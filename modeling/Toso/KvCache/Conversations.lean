/-
  Toso.KvCache.Conversations — what the generated requests share.

  Every prompt is one chain of segments: what its rank opens with, then its dialogue's
  messages with the answers between them.  A message's segments are fresh, so two
  dialogues part at their first message, or before it where they are of two ranks; and a
  later turn of a dialogue continues the chain of every turn before it.

  Main results:
    * `turnKeys_eq` — a turn's keys are the chain of its dialogue's segments so far.
    * `Planned.pass`, `planned_of_loop` — what one pass keeps, and the whole loop.
    * `segments_part` — where two dialogues part.
    * `makeWorkload_spec` — what is generated, and when nothing raises.
-/
import Toso.KvCache.Generator

namespace Toso.KvCache.Workload

open Lib Domain

/-! ## §1. The segments of a turn. -/

variable (p : Params) (generated : ℕ)

/-- The first segment past every rank's context. -/
def firstFresh : ℕ := 1000 + p.numConversations * p.convBaseBlocks

/-- What the dialogues of a rank open with. -/
def opened (c : ℕ) : List ℕ :=
  List.range p.systemBlocks ++ List.range' (1000 + c * p.convBaseBlocks) p.convBaseBlocks

/-- The message of turn `i`. -/
def message (i : ℕ) : List ℕ := List.range' (firstFresh p + p.queryBlocks * i) p.queryBlocks

/-- The blocks an output leaves behind. -/
def answer : List Segment := (List.range' 1 generated).map .generated

/-- The messages of some turns, the answers between them. -/
def talk : List ℕ → List Segment
  | [] => []
  | [i] => (message p i).map .chosen
  | i :: j :: rest => (message p i).map .chosen ++ (answer generated ++ talk (j :: rest))

/-- The segments of a prompt: of a rank, after some turns. -/
def segments (c : ℕ) (turns : List ℕ) : List Segment :=
  (opened p c).map .chosen ++ talk p generated turns

/-- The keys of a prompt. -/
def prompt (c : ℕ) (turns : List ℕ) : List String :=
  chain join p.modelId (segments p generated c turns)

variable {p generated}

theorem talk_concat (i : ℕ) : ∀ {turns : List ℕ}, turns ≠ [] →
    talk p generated (turns ++ [i]) =
      talk p generated turns ++ (answer generated ++ (message p i).map .chosen)
  | [], h => absurd rfl h
  | [j], _ => rfl
  | j :: k :: rest, _ => by
      have ih := talk_concat i (List.cons_ne_nil k rest)
      show (message p j).map .chosen ++ (answer generated ++ talk p generated (k :: (rest ++ [i])))
        = _
      rw [List.cons_append] at ih
      rw [ih]
      simp only [talk, List.append_assoc]

/-- **One more turn** continues the prompt by the answer and the message. -/
theorem segments_concat (c i : ℕ) {turns : List ℕ} (h : turns ≠ []) :
    segments p generated c (turns ++ [i]) =
      segments p generated c turns ++ (answer generated ++ (message p i).map .chosen) := by
  unfold segments
  rw [talk_concat i h, List.append_assoc]

variable (p generated) in
/-- The prompts of a dialogue grow. -/
theorem segments_take_prefix (c : ℕ) (turns : List ℕ) {m n : ℕ} (h : m ≤ n) :
    segments p generated c (turns.take m) <+: segments p generated c (turns.take n) := by
  induction n, h using Nat.le_induction with
  | base => exact List.prefix_refl _
  | succ n hmn ih =>
      refine ih.trans ?_
      by_cases hn : n < turns.length
      · rw [List.take_succ_eq_append_getElem hn]
        cases htake : turns.take n with
        | nil => exact ⟨talk p generated [turns[n]], by simp [segments, talk]⟩
        | cons i rest =>
            rw [segments_concat c turns[n] (List.cons_ne_nil i rest)]
            exact List.prefix_append _ _
      · rw [List.take_of_length_le (by omega), List.take_of_length_le (by omega)]

theorem length_opened (c : ℕ) : (opened p c).length = p.systemBlocks + p.convBaseBlocks := by
  unfold opened
  rw [List.length_append, List.length_range, List.length_range']

variable (generated) in
theorem segments_ne_nil (hq : 1 ≤ p.queryBlocks) (c : ℕ) {turns : List ℕ} (h : turns ≠ []) :
    segments p generated c turns ≠ [] := by
  have hmessage : ∀ i, (message p i).map Segment.chosen ≠ [] := fun i => by
    rw [← List.length_pos_iff, List.length_map, message, List.length_range']
    exact hq
  unfold segments
  intro hnil
  have htalk := (List.append_eq_nil_iff.mp hnil).2
  cases turns with
  | nil => exact h rfl
  | cons i rest =>
      cases rest with
      | nil => exact hmessage i htalk
      | cons j rest => exact hmessage i (List.append_eq_nil_iff.mp htalk).1

/-- What a rank opens with is what the loop over the ranks made. -/
theorem openings_get (n fresh c : ℕ) (h : c < n) : (openings p n fresh)[c]? =
    some (List.range p.systemBlocks
      ++ List.range' (fresh + c * p.convBaseBlocks) p.convBaseBlocks) := by
  induction n generalizing fresh c with
  | zero => omega
  | succ n ih =>
      cases c with
      | zero =>
          show some _ = _
          rw [Nat.zero_mul, Nat.add_zero]
      | succ c =>
          show (openings p n (fresh + p.convBaseBlocks))[c]? = _
          rw [ih _ c (by omega), show fresh + p.convBaseBlocks + c * p.convBaseBlocks
            = fresh + (c + 1) * p.convBaseBlocks by ring]

/-! ## §2. Dialogues as they are written. -/

/-- Turn `m` of a dialogue of rank `c` whose turns are `turns`. -/
structure Says (p : Params) (generated c : ℕ) (turns : List ℕ) (m : ℕ)
    (r : Request String String) : Prop where
  keys : r.blockKeys = prompt p generated c (turns.take (m + 1))
  conversation : r.conversation = rankName c
  id : some r.id = turns[m]?.map fun i => "r" ++ toString i

/-- A dialogue of rank `c` whose turns are `turns`. -/
structure Written (p : Params) (generated : ℕ) (said : List Turn) (c : ℕ) (turns : List ℕ) :
    Prop where
  length : said.length = turns.length
  turn : ∀ m t, said[m]? = some t → Says p generated c turns m t.request

/-- **The sequence a turn leaves behind**, and the prompt that continues it. -/
theorem prompt_concat (hq : 1 ≤ p.queryBlocks) {c : ℕ} (i : ℕ) {turns : List ℕ}
    (hne : turns ≠ []) {r : Request String String} (hr : r.blockKeys = prompt p generated c turns) :
    ∃ last, (r.blockKeys ++ r.continuationKeys grow id generated).getLast? = some last ∧
      prompt p generated c (turns ++ [i]) =
        r.blockKeys ++ r.continuationKeys grow id generated ++ extend last (message p i) := by
  have hseg := segments_ne_nil generated hq c hne
  have hend : (prompt p generated c turns).getLast? =
      some ((segments p generated c turns).foldl join p.modelId) := getLast?_chain _ hseg
  -- the sequence before, then what its output left behind, is one chain
  have hhistory : r.blockKeys ++ r.continuationKeys grow id generated =
      chain join p.modelId (segments p generated c turns ++ answer generated) := by
    have hcont := continuationKeys_eq (r := r) (by rw [hr]; exact hend) generated
    rw [hcont, hr, chain_append]
    rfl
  have hhist : segments p generated c turns ++ answer generated ≠ [] := fun hnil =>
    hseg (List.append_eq_nil_iff.mp hnil).1
  refine ⟨_, by rw [hhistory]; exact getLast?_chain _ hhist, ?_⟩
  rw [hhistory, extend_eq, ← chain_append, List.append_assoc, ← segments_concat c i hne]
  rfl

/-- **The keys of the next turn** are the prompt of its dialogue's turns. -/
theorem turnKeys_eq (hq : 1 ≤ p.queryBlocks) {said : List Turn} {c i : ℕ} {turns : List ℕ}
    (h : Written p generated said c turns) :
    turnKeys p generated (opened p c) (message p i) said =
      .ok (prompt p generated c (turns ++ [i])) := by
  have hlen := h.length
  cases hlast : said.getLast? with
  | none =>
      rw [List.getLast?_eq_none_iff.mp hlast] at hlen
      unfold turnKeys
      rw [hlast, List.eq_nil_of_length_eq_zero hlen.symm]
      show Except.ok (extend p.modelId (opened p c ++ message p i)) = _
      rw [extend_eq, List.map_append]
      rfl
  | some previous =>
      have hne : turns ≠ [] := by
        rintro rfl
        rw [List.eq_nil_of_length_eq_zero hlen] at hlast
        cases hlast
      have hpos : 0 < turns.length := List.length_pos_iff.mpr hne
      have hkeys :=
        (h.turn (said.length - 1) previous (by rw [← hlast, List.getLast?_eq_getElem?])).keys
      rw [List.take_of_length_le (by omega)] at hkeys
      obtain ⟨last, hend, hprompt⟩ := prompt_concat hq i hne hkeys
      unfold turnKeys
      simp only [hlast, hend]
      rw [hprompt]

/-- One more turn, written. -/
theorem Written.concat {said : List Turn} {c i : ℕ} {turns : List ℕ}
    (h : Written p generated said c turns) {t : Turn}
    (hkeys : t.request.blockKeys = prompt p generated c (turns ++ [i]))
    (hconv : t.request.conversation = rankName c) (hid : t.request.id = "r" ++ toString i) :
    Written p generated (said ++ [t]) c (turns ++ [i]) where
  length := by rw [List.length_append, List.length_append, h.length]; rfl
  turn m t' ht := by
    have hlen := h.length
    by_cases hm : m < said.length
    · rw [List.getElem?_append_left hm] at ht
      have hturn := h.turn m t' ht
      constructor
      · rw [hturn.keys, List.take_append_of_le_length (by omega)]
      · exact hturn.conversation
      · rw [hturn.id, List.getElem?_append_left (by omega)]
    · obtain rfl : m = said.length := by
        have hlt := (List.getElem?_eq_some_iff.mp ht).1
        rw [List.length_append, List.length_singleton] at hlt
        omega
      rw [List.getElem?_concat_length, Option.some.injEq] at ht
      subst ht
      constructor
      · rw [hkeys, List.take_of_length_le (by rw [List.length_append, hlen]; simp)]
      · exact hconv
      · rw [hid, hlen, List.getElem?_concat_length]
        rfl

/-! ## §3. The loop. -/

/-- **What the loop keeps**: after `n` turns the dialogues built are those of a plan, which
gives every turn to one of them, and a rank's open dialogue is of that rank. -/
structure Planned (p : Params) (generated n : ℕ) (b : Building) (plan : List (ℕ × List ℕ)) :
    Prop where
  length : b.built.length = plan.length
  written : ∀ (j : ℕ) (d : Dialogue) (pl : ℕ × List ℕ), b.built[j]? = some d → plan[j]? = some pl →
    d.rank = rankName pl.1 ∧ Written p generated d.turns pl.1 pl.2
  fits : ∀ pl ∈ plan, pl.1 < p.numConversations ∧ pl.2.length ≤ p.maxTurns
  indices : (plan.flatMap Prod.snd).Perm (List.range n)
  fresh : b.fresh = firstFresh p + p.queryBlocks * n
  active : ∀ c j : ℕ, b.active.get? c = some j → ∃ turns, plan[j]? = some (c, turns)

theorem planned_building : Planned p generated 0 (building p) [] where
  length := rfl
  written j d pl hd _ := by cases hd
  fits pl hpl := absurd hpl List.not_mem_nil
  indices := List.Perm.refl _
  fresh := rfl
  active c j h := by cases h

/-- One dialogue of a plan takes one more turn. -/
theorem flatMap_set {n c : ℕ} {turns : List ℕ} : ∀ {plan : List (ℕ × List ℕ)} {j : ℕ},
    plan[j]? = some (c, turns) →
      ((plan.set j (c, turns ++ [n])).flatMap Prod.snd).Perm (plan.flatMap Prod.snd ++ [n])
  | [], j, h => by cases h
  | pl :: rest, 0, h => by
      obtain rfl := Option.some.inj h
      show ((turns ++ [n]) ++ rest.flatMap Prod.snd).Perm
        ((turns ++ rest.flatMap Prod.snd) ++ [n])
      rw [List.append_assoc, List.append_assoc]
      exact List.perm_append_comm.append_left turns
  | pl :: rest, j + 1, h => by
      have ih : ((rest.set j (c, turns ++ [n])).flatMap Prod.snd).Perm
          (rest.flatMap Prod.snd ++ [n]) := flatMap_set h
      show (pl.2 ++ (rest.set j (c, turns ++ [n])).flatMap Prod.snd).Perm
        ((pl.2 ++ rest.flatMap Prod.snd) ++ [n])
      rw [List.append_assoc]
      exact ih.append_left pl.2

variable {rng : Stream} {n c j : ℕ} {b b' : Building} {plan : List (ℕ × List ℕ)} {rate : ℚ}

/-- **A turn added** to the dialogue the plan has at `j`. -/
theorem Planned.addTurn (hq : 1 ≤ p.queryBlocks) (h : Planned p generated n b plan)
    {d : Dialogue} {turns : List ℕ} (hpl : plan[j]? = some (c, turns))
    (hd : b.built[j]? = some d) (hroom : turns.length < p.maxTurns)
    (hok : addTurn rng p generated n c j d b = .ok b') :
    Planned p generated (n + 1) b' (plan.set j (c, turns ++ [n])) := by
  obtain ⟨hrank, hwritten⟩ := h.written j d _ hd hpl
  have hc : c < p.numConversations := (h.fits _ (List.mem_of_getElem? hpl)).1
  have hj : j < b.built.length := (List.getElem?_eq_some_iff.mp hd).1
  have hj' : j < plan.length := h.length ▸ hj
  unfold Workload.addTurn at hok
  -- the turn's message is the next block run of the counter, which is message `n`
  have hopen : (openings p p.numConversations 1000)[c]? = some (opened p c) :=
    openings_get _ _ c hc
  have hkeys := turnKeys_eq (i := n) hq hwritten
  have hmessage : List.range' b.fresh p.queryBlocks = message p n := by rw [h.fresh]; rfl
  simp only [hopen, hmessage, hkeys] at hok
  cases hthink : thinkOf rng p b.drawn d.turns with
  | error e =>
      rw [hthink] at hok
      cases hok
  | ok think =>
      rw [hthink] at hok
      have hok := Except.ok.inj hok
      subst hok
      constructor
      -- the dialogue at `j` has one turn more in the plan as in the building; the others are as
      -- they were
      · show (b.built.set j _).length = _
        rw [List.length_set, List.length_set, h.length]
      · intro k d' pl hd' hpl'
        change (b.built.set j _)[k]? = some d' at hd'
        by_cases hk : j = k
        · subst hk
          rw [List.getElem?_set_self hj, Option.some.injEq] at hd'
          rw [List.getElem?_set_self hj', Option.some.injEq] at hpl'
          subst hd' hpl'
          exact ⟨hrank, hwritten.concat rfl hrank rfl⟩
        · rw [List.getElem?_set_ne hk] at hd' hpl'
          exact h.written k d' pl hd' hpl'
      · intro pl hmem
        rcases List.mem_or_eq_of_mem_set hmem with hold | rfl
        · exact h.fits pl hold
        · refine ⟨hc, ?_⟩
          rw [List.length_append]
          exact hroom
      · refine (flatMap_set hpl).trans ?_
        rw [List.range_succ]
        exact h.indices.append_right [n]
      · show b.fresh + p.queryBlocks = _
        rw [h.fresh]
        ring
      -- whichever rank is active, its dialogue is still where it was
      · intro c' k hact
        obtain ⟨turns', hturns'⟩ := h.active c' k hact
        by_cases hk : j = k
        · subst hk
          have hsame : c' = c := congrArg Prod.fst (Option.some.inj (hturns'.symm.trans hpl))
          exact ⟨turns ++ [n], by rw [List.getElem?_set_self hj', hsame]⟩
        · exact ⟨turns', by rw [List.getElem?_set_ne hk, hturns']⟩

/-- **A dialogue opened** for a rank, nothing said in it yet. -/
theorem Planned.begun (h : Planned p generated n b plan) (hc : c < p.numConversations)
    {d : Dialogue} (hok : begun rng rate c b = .ok (j, d, b')) :
    Planned p generated n b' (plan ++ [(c, [])]) ∧ (plan ++ [(c, [])])[j]? = some (c, []) ∧
      b'.built[j]? = some d := by
  unfold Workload.begun at hok
  cases hgap : rng.expovariate b.drawn rate with
  | error e =>
      rw [hgap] at hok
      cases hok
  | ok gap =>
      rw [hgap] at hok
      have hok := Except.ok.inj hok
      simp only [Prod.mk.injEq] at hok
      obtain ⟨rfl, rfl, rfl⟩ := hok
      -- the new dialogue stands last, in the plan as among those built
      have hnew : (plan ++ [(c, ([] : List ℕ))])[b.built.length]? = some (c, []) := by
        rw [h.length, List.getElem?_concat_length]
      refine ⟨?_, hnew, List.getElem?_concat_length⟩
      constructor
      · show (b.built ++ [_]).length = _
        rw [List.length_append, List.length_append, h.length]
        rfl
      · intro k d' pl hd' hpl'
        change (b.built ++ [_])[k]? = some d' at hd'
        by_cases hk : k < b.built.length
        · rw [List.getElem?_append_left hk] at hd'
          rw [List.getElem?_append_left (h.length ▸ hk)] at hpl'
          exact h.written k d' pl hd' hpl'
        -- past those built before, there is the new one only, and it has no turns
        · obtain rfl : k = b.built.length := by
            have hlt := (List.getElem?_eq_some_iff.mp hd').1
            rw [List.length_append, List.length_singleton] at hlt
            omega
          rw [List.getElem?_concat_length, Option.some.injEq] at hd'
          rw [hnew, Option.some.injEq] at hpl'
          subst hd' hpl'
          exact ⟨rfl, rfl, fun m t ht => by cases ht⟩
      · intro pl hmem
        rcases List.mem_append.mp hmem with hold | hnewpl
        · exact h.fits pl hold
        · rw [List.mem_singleton.mp hnewpl]
          exact ⟨hc, Nat.zero_le _⟩
      · rw [List.flatMap_append]
        show (plan.flatMap Prod.snd ++ []).Perm _
        rw [List.append_nil]
        exact h.indices
      · exact h.fresh
      · intro c' k hact
        change (b.active.set c b.built.length).get? c' = some k at hact
        rcases Dict.get?_set_cases hact with ⟨rfl, rfl⟩ | ⟨_, hold⟩
        · exact ⟨[], hnew⟩
        · obtain ⟨turns, hturns⟩ := h.active c' k hold
          have hlt := (List.getElem?_eq_some_iff.mp hturns).1
          exact ⟨turns, by rw [List.getElem?_append_left hlt, hturns]⟩

/-- The dialogue a rank's next turn goes to is of that rank, and has room. -/
theorem Planned.dialogueAt (h : Planned p generated n b plan) {d : Dialogue}
    (hat : dialogueAt p c b = some (j, d)) : ∃ turns, plan[j]? = some (c, turns) ∧
      b.built[j]? = some d ∧ turns.length < p.maxTurns := by
  unfold Workload.dialogueAt at hat
  obtain ⟨k, hact, hat⟩ := Option.bind_eq_some_iff.mp hat
  obtain ⟨d', hd', hat⟩ := Option.bind_eq_some_iff.mp hat
  by_cases hfull : p.maxTurns ≤ d'.turns.length
  · rw [if_pos hfull] at hat
    cases hat
  · rw [if_neg hfull, Option.some.injEq, Prod.mk.injEq] at hat
    obtain ⟨rfl, rfl⟩ := hat
    obtain ⟨turns, hturns⟩ := h.active c k hact
    obtain ⟨_, hwritten⟩ := h.written k d' _ hd' hturns
    exact ⟨turns, hturns, hd', by rw [← hwritten.length]; omega⟩

/-- **What one pass keeps.** -/
theorem Planned.pass (hq : 1 ≤ p.queryBlocks) (hmax : 1 ≤ p.maxTurns)
    (h : Planned p generated n b plan) (hc : c < p.numConversations)
    (hok : pass rng p generated rate n c b = .ok b') :
    ∃ plan', Planned p generated (n + 1) b' plan' := by
  unfold Workload.pass at hok
  cases hat : Workload.dialogueAt p c b with
  | some at_ =>
      obtain ⟨j, d⟩ := at_
      rw [hat] at hok
      obtain ⟨turns, hturns, hd, hroom⟩ := h.dialogueAt hat
      exact ⟨_, h.addTurn hq hturns hd hroom hok⟩
  | none =>
      rw [hat] at hok
      cases hbegun : Workload.begun rng rate c b with
      | error e =>
          rw [hbegun] at hok
          cases hok
      | ok opened =>
          obtain ⟨j, d, b₁⟩ := opened
          rw [hbegun] at hok
          obtain ⟨h₁, hturns, hd⟩ := h.begun hc hbegun
          exact ⟨_, h₁.addTurn hq hturns hd hmax hok⟩

/-- **What the loop keeps**, from one plan to the next. -/
theorem planned_of_loop (hq : 1 ≤ p.queryBlocks) (hmax : 1 ≤ p.maxTurns) :
    ∀ {ranks : List ℕ} {n : ℕ} {b b' : Building} {plan : List (ℕ × List ℕ)},
      Planned p generated n b plan → (∀ c ∈ ranks, c < p.numConversations) →
      loop rng p generated rate n ranks b = .ok b' →
      ∃ plan', Planned p generated (n + ranks.length) b' plan'
  | [], n, b, b', plan, h, _, hok => by
      cases hok
      exact ⟨plan, h⟩
  | c :: rest, n, b, b', plan, h, hranks, hok => by
      unfold loop at hok
      cases hpass : Workload.pass rng p generated rate n c b with
      | error e =>
          rw [hpass] at hok
          cases hok
      | ok b₁ =>
          rw [hpass] at hok
          obtain ⟨plan₁, h₁⟩ := h.pass hq hmax (hranks c List.mem_cons_self) hpass
          obtain ⟨plan', h'⟩ := planned_of_loop hq hmax h₁
            (fun c' hc' => hranks c' (List.mem_cons_of_mem c hc')) hok
          refine ⟨plan', ?_⟩
          rw [List.length_cons, show n + (rest.length + 1) = n + 1 + rest.length by omega]
          exact h'

/-! ## §4. What two prompts share. -/

variable (generated) in
/-- A talk opens with the first segment of its first message. -/
theorem talk_head (hq : 1 ≤ p.queryBlocks) {turns : List ℕ} {i : ℕ} (h : turns.head? = some i) :
    (talk p generated turns)[0]? = some (.chosen (firstFresh p + p.queryBlocks * i)) := by
  have hmessage : (message p i)[0]? = some (firstFresh p + p.queryBlocks * i) := by
    unfold message
    rw [List.getElem?_range' hq]
    simp
  have hfirst : ((message p i).map Segment.chosen)[0]? =
      some (.chosen (firstFresh p + p.queryBlocks * i)) := by
    rw [List.getElem?_map, hmessage]
    rfl
  cases turns with
  | nil => cases h
  | cons j rest =>
      obtain rfl := Option.some.inj h
      cases rest with
      | nil => exact hfirst
      | cons k rest =>
          show ((message p j).map Segment.chosen ++ _)[0]? = _
          have hlt := (List.getElem?_eq_some_iff.mp hfirst).1
          rw [List.getElem?_append_left hlt, hfirst]

/-- The blocks two ranks open with alike. -/
def commonBlocks (p : Params) (same : Prop) [Decidable same] : ℕ :=
  if same then p.systemBlocks + p.convBaseBlocks else p.systemBlocks

variable (generated) in
/-- **Where two dialogues part**: past what their ranks open with alike. -/
theorem segments_part (c c' : ℕ) (hq : 1 ≤ p.queryBlocks) {i i' : ℕ} {turns turns' : List ℕ}
    (hi : turns.head? = some i) (hi' : turns'.head? = some i') (hne : i ≠ i') :
    Shares (commonBlocks p (c = c')) (prompt p generated c turns)
      (prompt p generated c' turns') := by
  have hlen := length_opened (p := p)
  have hfirst := talk_head generated hq hi
  have hfirst' := talk_head generated hq hi'
  -- fresh messages of different turns start with different segments
  have hfresh : firstFresh p + p.queryBlocks * i ≠ firstFresh p + p.queryBlocks * i' :=
    fun heq => hne (Nat.eq_of_mul_eq_mul_left hq (Nat.add_left_cancel heq))
  have htalk : ∀ (c : ℕ) (turns : List ℕ),
      (segments p generated c turns)[p.systemBlocks + p.convBaseBlocks]? =
        (talk p generated turns)[0]? := by
    intro c turns
    unfold segments
    rw [List.getElem?_append_right (by rw [List.length_map, hlen]), List.length_map, hlen,
      Nat.sub_self]
  have hwithin : ∀ (k : ℕ) (said : List ℕ),
      commonBlocks p (c = c') ≤ (segments p generated k said).length := by
    intro k said
    unfold segments
    rw [List.length_append, List.length_map, hlen]
    unfold commonBlocks
    split_ifs <;> omega
  refine shares_chain join_inj depth_join p.modelId (hwithin c turns) (hwithin c' turns') ?_ ?_
  · by_cases hc : c = c'
    · subst hc
      unfold commonBlocks segments
      rw [if_pos rfl, List.take_append_of_le_length (by rw [List.length_map, hlen]),
        List.take_append_of_le_length (by rw [List.length_map, hlen])]
    · have hsystem : ∀ (c : ℕ) (turns : List ℕ), (segments p generated c turns).take
          p.systemBlocks = (List.range p.systemBlocks).map .chosen := by
        intro c turns
        unfold segments opened
        rw [List.map_append, List.append_assoc, List.take_append_of_le_length (by simp),
          List.take_of_length_le (by simp)]
      unfold commonBlocks
      rw [if_neg hc, hsystem, hsystem]
  · intro s s' hs hs'
    by_cases hc : c = c'
    · subst hc
      unfold commonBlocks at hs hs'
      rw [if_pos rfl, htalk] at hs hs'
      rw [hfirst, Option.some.injEq] at hs
      rw [hfirst', Option.some.injEq] at hs'
      rw [← hs, ← hs']
      exact fun heq => hfresh (Segment.chosen.inj heq)
    · unfold commonBlocks at hs hs'
      rw [if_neg hc] at hs hs'
      by_cases hbase : p.convBaseBlocks = 0
      · -- without a context, the messages come right after the system prompt
        have hsame := htalk c turns
        have hsame' := htalk c' turns'
        rw [hbase, Nat.add_zero] at hsame hsame'
        rw [hsame, hfirst, Option.some.injEq] at hs
        rw [hsame', hfirst', Option.some.injEq] at hs'
        rw [← hs, ← hs']
        exact fun heq => hfresh (Segment.chosen.inj heq)
      · have hcontext : ∀ (c : ℕ) (turns : List ℕ),
            (segments p generated c turns)[p.systemBlocks]? =
              some (.chosen (1000 + c * p.convBaseBlocks)) := by
          intro c turns
          unfold segments opened
          rw [List.getElem?_append_left (by simp; omega), List.getElem?_map,
            List.getElem?_append_right (by simp), List.length_range, Nat.sub_self,
            List.getElem?_range' (Nat.pos_of_ne_zero hbase)]
          simp
        rw [hcontext, Option.some.injEq] at hs hs'
        rw [← hs, ← hs']
        intro heq
        have hmul := Nat.add_left_cancel (Segment.chosen.inj heq)
        exact hc (Nat.eq_of_mul_eq_mul_right (Nat.pos_of_ne_zero hbase) hmul)

/-- Turns of one dialogue share all of the earlier. -/
theorem prompt_within (c : ℕ) (turns : List ℕ) {m n : ℕ} (h : m ≤ n) :
    Shares (prompt p generated c (turns.take m)).length (prompt p generated c (turns.take m))
      (prompt p generated c (turns.take n)) := by
  have hprefix := segments_take_prefix p generated c turns h
  unfold prompt
  rw [length_chain]
  refine shares_chain join_inj depth_join p.modelId le_rfl hprefix.length_le ?_ ?_
  · rw [List.take_length]
    exact List.prefix_iff_eq_take.mp hprefix
  · intro s s' hs _
    rw [List.getElem?_length] at hs
    cases hs

/-! ## §5. What is generated. -/

/-- **The generated conversations**: how many requests there are, how a dialogue grows, and
what any two prompts share. -/
structure Conversational (p : Params) (generated : ℕ) (out : List Conversation) : Prop where
  /-- Every turn asked for is one request. -/
  requests : ((out.flatMap Conversation.requests).map Request.id).Perm
    ((List.range p.numRequests).map fun i => "r" ++ toString i)
  /-- Every dialogue is finite. -/
  turns : ∀ d ∈ out, d.turns.length ≤ p.maxTurns
  /-- A turn is the sequence before it, what its output left behind, and a message. -/
  grows : ∀ d ∈ out, ∀ (m : ℕ) (r r' : Request String String),
    d.requests[m]? = some r → d.requests[m + 1]? = some r' →
    ∃ last query, query.length = p.queryBlocks ∧
      (r.blockKeys ++ r.continuationKeys grow id generated).getLast? = some last ∧
      r'.blockKeys = r.blockKeys ++ r.continuationKeys grow id generated ++ extend last query
  /-- Within a dialogue, all of the earlier prompt is shared. -/
  within : ∀ d ∈ out, d.requests.Pairwise fun r r' =>
    Shares r.blockKeys.length r.blockKeys r'.blockKeys
  /-- Across dialogues, what their ranks open with alike. -/
  across : out.Pairwise fun d d' => ∀ r ∈ d.requests, ∀ r' ∈ d'.requests,
    Shares (commonBlocks p (r.conversation = r'.conversation)) r.blockKeys r'.blockKeys
  /-- No key stands at two positions. -/
  positions : ∀ d ∈ out, ∀ d' ∈ out, ∀ r ∈ d.requests, ∀ r' ∈ d'.requests,
    ∀ (i j : ℕ) (k : String), r.blockKeys[i]? = some k → r'.blockKeys[j]? = some k → i = j

theorem rankName_inj {c c' : ℕ} (h : rankName c = rankName c') : c = c' := by
  have hlist : "c".toList ++ (toString c).toList = "c".toList ++ (toString c').toList := by
    rw [← String.toList_append, ← String.toList_append]
    exact congrArg String.toList h
  exact toString_nat_inj (String.toList_injective (List.append_cancel_left hlist))

theorem Written.request {said : List Turn} {c : ℕ} {turns : List ℕ}
    (h : Written p generated said c turns) {m : ℕ} {r : Request String String}
    (hr : (said.map Turn.request)[m]? = some r) : Says p generated c turns m r := by
  rw [List.getElem?_map] at hr
  obtain ⟨t, ht, rfl⟩ := Option.map_eq_some_iff.mp hr
  exact h.turn m t ht

/-- The ids of a dialogue's requests are those of its turns. -/
theorem Written.ids {said : List Turn} {c : ℕ} {turns : List ℕ}
    (h : Written p generated said c turns) :
    (said.map Turn.request).map Request.id = turns.map fun i => "r" ++ toString i := by
  refine List.ext_getElem? fun m => ?_
  rw [List.getElem?_map, List.getElem?_map, List.getElem?_map]
  cases ht : said[m]? with
  | none =>
      have hge := List.getElem?_eq_none_iff.mp ht
      rw [h.length] at hge
      rw [List.getElem?_eq_none_iff.mpr hge]
      rfl
  | some t =>
      rw [← (h.turn m t ht).id]
      rfl

/-- The head of a dialogue's turns is at its first request. -/
theorem Written.head {said : List Turn} {c : ℕ} {turns : List ℕ}
    (h : Written p generated said c turns) {r : Request String String}
    (hr : r ∈ said.map Turn.request) : ∃ m i, turns.head? = some i ∧
      (turns.take (m + 1)).head? = some i ∧ Says p generated c turns m r := by
  obtain ⟨m, hm⟩ := List.mem_iff_getElem?.mp hr
  cases turns with
  | nil =>
      have hlen := h.length
      rw [List.eq_nil_of_length_eq_zero hlen] at hm
      cases hm
  | cons i rest => exact ⟨m, i, rfl, rfl, h.request hm⟩

section Built

variable (h : Planned p generated n b plan)
include h

/-- What the plan says of a dialogue that was built. -/
theorem Planned.at {d : Dialogue} (hd : b.built[j]? = some d) : ∃ pl, plan[j]? = some pl ∧
    pl ∈ plan ∧ Written p generated d.turns pl.1 pl.2 := by
  have hlt := (List.getElem?_eq_some_iff.mp hd).1
  have hlt' : j < plan.length := h.length ▸ hlt
  have hpl : plan[j]? = some plan[j] := List.getElem?_eq_getElem hlt'
  exact ⟨_, hpl, List.mem_of_getElem? hpl, (h.written j d _ hd hpl).2⟩

theorem Planned.ids : ((b.built.map Dialogue.freeze).flatMap Conversation.requests).map Request.id
    = (plan.flatMap Prod.snd).map fun i => "r" ++ toString i := by
  rw [List.map_flatMap, List.map_flatMap, List.flatMap_map]
  show (b.built.map fun d => (d.turns.map Turn.request).map Request.id).flatten =
    (plan.map fun pl => pl.2.map fun i => "r" ++ toString i).flatten
  congr 1
  refine List.ext_getElem? fun j => ?_
  rw [List.getElem?_map, List.getElem?_map]
  cases hd : b.built[j]? with
  | none =>
      have hge := List.getElem?_eq_none_iff.mp hd
      rw [h.length] at hge
      rw [List.getElem?_eq_none_iff.mpr hge]
      rfl
  | some d =>
      obtain ⟨pl, hpl, _, hwritten⟩ := h.at hd
      rw [hpl]
      exact congrArg some hwritten.ids

/-- Two dialogues of a plan have no turn in common. -/
theorem Planned.disjoint {k : ℕ} {pl pl' : ℕ × List ℕ} (hjk : j < k) (hj : plan[j]? = some pl)
    (hk : plan[k]? = some pl') : List.Disjoint pl.2 pl'.2 := by
  have hnodup : (plan.flatMap Prod.snd).Nodup := h.indices.nodup_iff.mpr List.nodup_range
  have hpair := (List.nodup_flatMap.mp hnodup).2
  obtain ⟨hlt, rfl⟩ := List.getElem?_eq_some_iff.mp hj
  obtain ⟨hlt', rfl⟩ := List.getElem?_eq_some_iff.mp hk
  exact List.pairwise_iff_getElem.mp hpair j k hlt hlt' hjk

/-- **What the loop leaves is what was asked for.** -/
theorem Planned.conversational (hq : 1 ≤ p.queryBlocks) (hn : n = p.numRequests) :
    Conversational p generated (b.built.map Dialogue.freeze) := by
  have hfind : ∀ c ∈ b.built.map Dialogue.freeze, ∃ pl ∈ plan,
      Written p generated c.turns pl.1 pl.2 := by
    intro c hc
    obtain ⟨d, hd, rfl⟩ := List.mem_map.mp hc
    obtain ⟨j, hj⟩ := List.mem_iff_getElem?.mp hd
    obtain ⟨pl, _, hmem, hwritten⟩ := h.at hj
    exact ⟨pl, hmem, hwritten⟩
  constructor
  -- every request once
  · rw [h.ids, ← hn]
    exact h.indices.map _
  · intro c hc
    obtain ⟨pl, hmem, hwritten⟩ := hfind c hc
    rw [hwritten.length]
    exact (h.fits pl hmem).2
  -- a turn continues the one before it: the plan's first `m + 1` turns, and one more
  · intro c hc m r r' hr hr'
    obtain ⟨pl, _, hwritten⟩ := hfind c hc
    have hm := (hwritten.request hr).keys
    have hm' := (hwritten.request hr').keys
    have hlt : m + 1 < pl.2.length := by
      have hlt := (List.getElem?_eq_some_iff.mp hr').1
      rw [Conversation.requests, List.length_map, hwritten.length] at hlt
      exact hlt
    have hne : pl.2.take (m + 1) ≠ [] := by
      rw [← List.length_pos_iff, List.length_take]
      omega
    rw [List.take_succ_eq_append_getElem hlt] at hm'
    obtain ⟨last, hend, hnext⟩ := prompt_concat hq pl.2[m + 1] hne hm
    exact ⟨last, message p pl.2[m + 1], List.length_range', hend, hm'.trans hnext⟩
  · intro c hc
    obtain ⟨pl, _, hwritten⟩ := hfind c hc
    refine List.pairwise_iff_getElem.mpr fun m m' hm hm' hlt => ?_
    have hr := (hwritten.request (List.getElem?_eq_getElem hm)).keys
    have hr' := (hwritten.request (List.getElem?_eq_getElem hm')).keys
    rw [hr, hr']
    exact prompt_within pl.1 pl.2 (by omega)
  -- two dialogues share what their ranks share, and no message of the one is in the other
  · rw [List.pairwise_map]
    refine List.pairwise_iff_getElem.mpr fun j k hj hk hjk r hr r' hr' => ?_
    obtain ⟨pl, hpl, _, hwritten⟩ := h.at (List.getElem?_eq_getElem hj)
    obtain ⟨pl', hpl', _, hwritten'⟩ := h.at (List.getElem?_eq_getElem hk)
    obtain ⟨m, i, hi, hfirst, hturn⟩ := hwritten.head hr
    obtain ⟨m', i', hi', hfirst', hturn'⟩ := hwritten'.head hr'
    have hne : i ≠ i' := by
      rintro rfl
      exact h.disjoint hjk hpl hpl' (List.mem_of_head? hi) (List.mem_of_head? hi')
    have hparts := segments_part generated pl.1 pl'.1 hq hfirst hfirst' hne
    rw [hturn.conversation, hturn'.conversation, hturn.keys, hturn'.keys]
    have hsame : commonBlocks p (rankName pl.1 = rankName pl'.1) =
        commonBlocks p (pl.1 = pl'.1) := by
      unfold commonBlocks
      by_cases hc : pl.1 = pl'.1
      · rw [if_pos hc, if_pos (congrArg rankName hc)]
      · rw [if_neg hc, if_neg fun heq => hc (rankName_inj heq)]
    rw [hsame]
    exact hparts
  -- a key stands at one position, whichever turn it is in
  · intro c hc c' hc' r hr r' hr' i j k hi hj
    obtain ⟨pl, _, hwritten⟩ := hfind c hc
    obtain ⟨pl', _, hwritten'⟩ := hfind c' hc'
    obtain ⟨m, _, _, _, hturn⟩ := hwritten.head hr
    obtain ⟨m', _, _, _, hturn'⟩ := hwritten'.head hr'
    rw [hturn.keys] at hi
    rw [hturn'.keys] at hj
    exact chain_position depth_join hi hj

end Built

/-! ## §6. What raises. -/

/-- An index that is sampled is one of the weights. -/
theorem sampleFrom_mem (x : ℚ) : ∀ (weights : List ℚ) (acc : ℚ) (i k : ℤ),
    sampleFrom x acc i weights = some k → i ≤ k ∧ k < i + weights.length
  | [], acc, i, k, h => by cases h
  | w :: rest, acc, i, k, h => by
      unfold sampleFrom at h
      rw [List.length_cons]
      by_cases hx : x ≤ acc + w
      · rw [if_pos hx, Option.some.injEq] at h
        push_cast
        omega
      · rw [if_neg hx] at h
        have ih := sampleFrom_mem x rest (acc + w) (i + 1) k h
        push_cast
        omega

/-- A rank is drawn exactly where there is one. -/
theorem rank_drawn (rng : Stream) (x s : ℚ) (n : ℕ) :
    (n ≠ 0 → ∃ c < n, indexOf n (sample x (zipfWeights rng n s)) = .ok c) ∧
      (n = 0 → indexOf n (sample x (zipfWeights rng n s)) = .error .index) := by
  have hlen : (zipfWeights rng n s).length = n := by
    unfold zipfWeights
    rw [List.length_map, List.length_map, List.length_range]
  constructor
  · intro hn
    have hin : 0 ≤ sample x (zipfWeights rng n s) ∧ sample x (zipfWeights rng n s) < n := by
      unfold sample
      cases hs : sampleFrom x 0 0 (zipfWeights rng n s) with
      | none =>
          rw [hlen]
          simp only [Option.getD_none]
          omega
      | some k =>
          have hk := sampleFrom_mem x _ 0 0 k hs
          rw [hlen] at hk
          simp only [Option.getD_some]
          omega
    refine ⟨(sample x (zipfWeights rng n s)).toNat, by omega, ?_⟩
    unfold indexOf
    rw [if_pos hin]
  · rintro rfl
    rfl

/-- **The ranks of the turns**: one each, unless there is none to draw. -/
theorem ranksFrom_spec (rng : Stream) (p : Params) : ∀ (n k : ℕ),
    (∀ ranks, ranksFrom rng p k n = .ok ranks →
      ranks.length = n ∧ ∀ c ∈ ranks, c < p.numConversations) ∧
    ((∃ ranks, ranksFrom rng p k n = .ok ranks) ↔ (n ≠ 0 → p.numConversations ≠ 0))
  | 0, k => by
      refine ⟨fun ranks h => ?_, fun _ h => absurd rfl h, fun _ => ⟨[], rfl⟩⟩
      cases h
      exact ⟨rfl, fun c hc => absurd hc List.not_mem_nil⟩
  | n + 1, k => by
      obtain ⟨ih, hanswers⟩ := ranksFrom_spec rng p n (k + 1)
      obtain ⟨hdrawn, hnone⟩ := rank_drawn rng (rng.random k) p.zipfS p.numConversations
      -- without a conversation there is no rank to draw
      by_cases hzero : p.numConversations = 0
      · have herror : ∀ ranks, ranksFrom rng p k (n + 1) ≠ .ok ranks := by
          intro ranks h
          unfold ranksFrom at h
          rw [hnone hzero] at h
          cases h
        refine ⟨fun ranks h => absurd h (herror ranks), ?_, ?_⟩
        · rintro ⟨ranks, h⟩
          exact absurd h (herror ranks)
        · intro h
          exact absurd hzero (h (Nat.succ_ne_zero n))
      · obtain ⟨c, hc, hindex⟩ := hdrawn hzero
        obtain ⟨rest, hrest⟩ := hanswers.mpr fun _ => hzero
        have hok : ranksFrom rng p k (n + 1) = .ok (c :: rest) := by
          unfold ranksFrom
          rw [hindex]
          show Except.map _ (ranksFrom rng p (k + 1) n) = _
          rw [hrest]
          rfl
        refine ⟨fun ranks h => ?_, fun _ _ => hzero, fun _ => ⟨_, hok⟩⟩
        rw [hok, Except.ok.injEq] at h
        subst h
        obtain ⟨hlen, hall⟩ := ih rest hrest
        refine ⟨by rw [List.length_cons, hlen], fun c' hc' => ?_⟩
        rcases List.mem_cons.mp hc' with rfl | hmem
        · exact hc
        · exact hall c' hmem

theorem expovariate_ok (rng : Stream) (n : ℕ) {lambd : ℚ} (h : lambd ≠ 0) :
    ∃ x, rng.expovariate n lambd = .ok x := by
  unfold Stream.expovariate
  rw [if_neg h]
  exact ⟨_, rfl⟩

variable (rng) in
/-- A turn is always added. -/
theorem Planned.addTurn_ok (hq : 1 ≤ p.queryBlocks) (h : Planned p generated n b plan)
    {d : Dialogue} {turns : List ℕ} (hpl : plan[j]? = some (c, turns))
    (hd : b.built[j]? = some d) : ∃ b', Workload.addTurn rng p generated n c j d b = .ok b' := by
  obtain ⟨_, hwritten⟩ := h.written j d _ hd hpl
  have hopen : (openings p p.numConversations 1000)[c]? = some (opened p c) :=
    openings_get _ _ c (h.fits _ (List.mem_of_getElem? hpl)).1
  have hmessage : List.range' b.fresh p.queryBlocks = message p n := by rw [h.fresh]; rfl
  have hthink : ∃ think, thinkOf rng p b.drawn d.turns = .ok think := by
    unfold thinkOf
    by_cases hturns : d.turns = []
    · exact ⟨_, if_pos hturns⟩
    · rw [if_neg hturns]
      by_cases hpos : 0 < p.thinkTime
      · obtain ⟨x, hx⟩ := expovariate_ok rng b.drawn (one_div_ne_zero hpos.ne')
        rw [if_pos hpos, hx]
        exact ⟨_, rfl⟩
      · exact ⟨_, if_neg hpos⟩
  obtain ⟨think, hthink⟩ := hthink
  unfold Workload.addTurn
  simp only [hopen, hmessage, turnKeys_eq (i := n) hq hwritten, hthink]
  exact ⟨_, rfl⟩

variable (rng) in
/-- At a rate, a pass goes through. -/
theorem Planned.pass_ok (hq : 1 ≤ p.queryBlocks) (h : Planned p generated n b plan)
    (hc : c < p.numConversations) (hrate : rate ≠ 0) :
    ∃ b', Workload.pass rng p generated rate n c b = .ok b' := by
  unfold Workload.pass
  cases hat : Workload.dialogueAt p c b with
  | some found =>
      obtain ⟨j, d⟩ := found
      obtain ⟨turns, hturns, hd, _⟩ := h.dialogueAt hat
      exact h.addTurn_ok rng hq hturns hd
  | none =>
      obtain ⟨gap, hgap⟩ := expovariate_ok rng b.drawn hrate
      have hbegun : ∃ j d b₁, Workload.begun rng rate c b = .ok (j, d, b₁) := by
        unfold Workload.begun
        rw [hgap]
        exact ⟨_, _, _, rfl⟩
      obtain ⟨j, d, b₁, hbegun⟩ := hbegun
      obtain ⟨h₁, hturns, hd⟩ := h.begun hc hbegun
      obtain ⟨b', hb'⟩ := h₁.addTurn_ok rng hq hturns hd
      refine ⟨b', ?_⟩
      show (Workload.begun rng rate c b).bind _ = _
      rw [hbegun]
      exact hb'

variable (rng) in
/-- At a rate, the loop goes through. -/
theorem loop_ok (hq : 1 ≤ p.queryBlocks) (hmax : 1 ≤ p.maxTurns) (hrate : rate ≠ 0) :
    ∀ {ranks : List ℕ} {n : ℕ} {b : Building} {plan : List (ℕ × List ℕ)},
      Planned p generated n b plan → (∀ c ∈ ranks, c < p.numConversations) →
      ∃ b', loop rng p generated rate n ranks b = .ok b'
  | [], n, b, plan, _, _ => ⟨b, rfl⟩
  | c :: rest, n, b, plan, h, hranks => by
      obtain ⟨b₁, hpass⟩ := h.pass_ok rng hq (hranks c List.mem_cons_self) hrate
      obtain ⟨plan₁, h₁⟩ := h.pass hq hmax (hranks c List.mem_cons_self) hpass
      obtain ⟨b', hb'⟩ := loop_ok hq hmax hrate h₁
        fun c' hc' => hranks c' (List.mem_cons_of_mem c hc')
      refine ⟨b', ?_⟩
      unfold loop
      rw [hpass]
      exact hb'

/-- Without one, the first dialogue cannot be opened. -/
theorem loop_stuck {ranks : List ℕ} (hne : ranks ≠ []) :
    loop rng p generated 0 0 ranks (building p) = .error .zeroDivision := by
  cases ranks with
  | nil => exact absurd rfl hne
  | cons c rest => rfl

/-- Dialogues are counted, and there is one where there is a turn. -/
theorem dialogueCount_spec (hmax : 1 ≤ p.maxTurns) {ranks : List ℕ}
    (hranks : ∀ c ∈ ranks, c < p.numConversations) : ∃ dialogues,
      dialogueCount p ranks = .ok dialogues ∧ (ranks ≠ [] → dialogues ≠ 0) := by
  have hguard : ¬ (p.maxTurns = 0 ∧ p.numConversations ≠ 0) := fun h => by omega
  refine ⟨_, if_neg hguard, fun hne => ?_⟩
  have hterm : ∀ c, 0 ≤ -(-(ranks.count c : ℤ) / (p.maxTurns : ℤ)) := by
    intro c
    have hdiv : -(ranks.count c : ℤ) / (p.maxTurns : ℤ) ≤ 0 :=
      Int.ediv_nonpos_of_nonpos_of_neg (by omega) (by omega)
    omega
  obtain ⟨c, hc⟩ := List.exists_mem_of_ne_nil ranks hne
  have hone : 0 < -(-(ranks.count c : ℤ) / (p.maxTurns : ℤ)) := by
    have hcount : 0 < ranks.count c := List.count_pos_iff.mpr hc
    have hdiv : -(ranks.count c : ℤ) / (p.maxTurns : ℤ) < 0 :=
      Int.ediv_neg_of_neg_of_pos (by omega) (by omega)
    omega
  have hmem : -(-(ranks.count c : ℤ) / (p.maxTurns : ℤ)) ∈ (List.range p.numConversations).map
      fun c => -(-(ranks.count c : ℤ) / (p.maxTurns : ℤ)) :=
    List.mem_map.mpr ⟨c, List.mem_range.mpr (hranks c hc), rfl⟩
  have hle := List.single_le_sum (l := (List.range p.numConversations).map
    fun c => -(-(ranks.count c : ℤ) / (p.maxTurns : ℤ))) (by
      intro x hx
      obtain ⟨c', _, rfl⟩ := List.mem_map.mp hx
      exact hterm c') _ hmem
  omega

/-! ## §7. The generator. -/

/-- Nothing generated depends on the order the conversations are listed in. -/
theorem Conversational.perm {l l' : List Conversation} (h : Conversational p generated l)
    (hperm : l'.Perm l) : Conversational p generated l' where
  requests := ((hperm.flatMap_right _).map Request.id).trans h.requests
  turns d hd := h.turns d (hperm.mem_iff.mp hd)
  grows d hd := h.grows d (hperm.mem_iff.mp hd)
  within d hd := h.within d (hperm.mem_iff.mp hd)
  across := by
    refine (hperm.pairwise_iff ?_).mpr h.across
    intro d d' hshares r hr r' hr'
    have hsymm := (hshares r' hr' r hr).symm
    have hcommon : commonBlocks p (r.conversation = r'.conversation) =
        commonBlocks p (r'.conversation = r.conversation) := by
      unfold commonBlocks
      by_cases hc : r.conversation = r'.conversation
      · rw [if_pos hc, if_pos hc.symm]
      · rw [if_neg hc, if_neg fun heq => hc heq.symm]
    rw [hcommon]
    exact hsymm
  positions d hd d' hd' := h.positions d (hperm.mem_iff.mp hd) d' (hperm.mem_iff.mp hd')

/-- The blocks of an output are counted wherever a block holds a token. -/
theorem generatedBlocks_ok (p : Params) :
    (∃ generated, generatedBlocks p = .ok generated) ↔ p.blockTokens ≠ 0 := by
  unfold generatedBlocks blocksFor
  by_cases hB : p.blockTokens = 0
  · rw [if_pos hB]
    simp [Except.mapError, hB]
  · rw [if_neg hB]
    exact ⟨fun _ => hB, fun _ => ⟨_, rfl⟩⟩

/-- The accelerator is built exactly where a block is a whole number of elements. -/
theorem accelerator_built {dtypes : String → Option ℕ} {size : ℕ}
    (hsize : dtypes defaultModel.computeDtype = some size) (blockTokens : ℕ) :
    (∃ acc, simulatedAccelerator dtypes defaultModel blockTokens = .ok acc) ↔
      blockTokens % size = 0 := by
  have hbytes : defaultModel.blockBytes 1 blockTokens = blockTokens := by
    simp [Model.blockBytes, defaultModel]
  unfold simulatedAccelerator
  rw [hsize]
  by_cases hwhole : defaultModel.blockBytes 1 blockTokens % size = 0
  · simp only [dif_pos hwhole]
    rw [hbytes] at hwhole
    exact ⟨fun _ => hwhole, fun _ => ⟨_, rfl⟩⟩
  · simp only [dif_neg hwhole]
    rw [hbytes] at hwhole
    refine ⟨fun h => ?_, fun h => absurd h hwhole⟩
    obtain ⟨acc, hacc⟩ := h
    cases hacc

/-- **The generator**, whatever the random stream.  What it answers is every turn asked
for, in dialogues that grow and share what they should.  It answers wherever a block is
some whole number of elements, and there are conversations and a rate if there are
requests. -/
theorem makeWorkload_spec (dtypes : String → Option ℕ) (rng : Stream) (p : Params)
    (hq : 1 ≤ p.queryBlocks) (hmax : 1 ≤ p.maxTurns) :
    (∀ out, makeWorkload dtypes rng p = .ok out →
      ∃ generated, generatedBlocks p = .ok generated ∧ Conversational p generated out) ∧
    ((∃ out, makeWorkload dtypes rng p = .ok out) ↔
      (∃ acc, simulatedAccelerator dtypes defaultModel p.blockTokens = .ok acc) ∧
        p.blockTokens ≠ 0 ∧
        (p.numRequests ≠ 0 → p.numConversations ≠ 0 ∧ p.arrivalRate ≠ 0)) := by
  unfold makeWorkload
  rw [← generatedBlocks_ok]
  -- what can raise, in the order of the source: the accelerator, the block size, the ranks
  cases hacc : simulatedAccelerator dtypes defaultModel p.blockTokens with
  | error e => simp [Except.mapError, Except.bind]
  | ok acc =>
      cases hgen : generatedBlocks p with
      | error e => simp [Except.mapError, Except.bind]
      | ok generated =>
          obtain ⟨hranks, hanswers⟩ := ranksFrom_spec rng p p.numRequests 0
          cases hdrawn : ranksFrom rng p 0 p.numRequests with
          | error e =>
              have hnone : ¬ (p.numRequests ≠ 0 → p.numConversations ≠ 0) := fun h => by
                obtain ⟨ranks, hok⟩ := hanswers.mpr h
                rw [hdrawn] at hok
                cases hok
              simp only [Except.mapError, Except.bind]
              refine ⟨fun out h => (by cases h), fun h => ?_, fun h => ?_⟩
              · obtain ⟨out, hout⟩ := h
                cases hout
              · exact absurd (fun hn => (h.2.2 hn).1) hnone
          | ok ranks =>
              obtain ⟨hlen, hall⟩ := hranks ranks hdrawn
              obtain ⟨dialogues, hcount, hpos⟩ := dialogueCount_spec hmax hall
              have hsome : p.numRequests ≠ 0 → p.numConversations ≠ 0 :=
                hanswers.mp ⟨ranks, hdrawn⟩
              simp only [Except.mapError, Except.bind, hcount]
              refine ⟨fun out hout => ⟨generated, rfl, ?_⟩, fun h => ?_, fun h => ?_⟩
              -- what is answered is what the loop built, sorted by arrival
              · cases hloop : loop rng p generated (convRate p dialogues) 0 ranks
                  (building p) with
                | error e =>
                    rw [hloop] at hout
                    cases hout
                | ok b =>
                    rw [hloop] at hout
                    obtain rfl := Except.ok.inj hout
                    obtain ⟨plan, hplan⟩ := planned_of_loop hq hmax planned_building hall hloop
                    have hconv := hplan.conversational hq (by rw [hlen, Nat.zero_add])
                    exact hconv.perm (List.perm_insertionSort _ _)
              -- it answers only if there is a rate to draw the first gap with
              · refine ⟨⟨acc, rfl⟩, ⟨generated, rfl⟩, fun hn => ⟨hsome hn, ?_⟩⟩
                intro hzero
                obtain ⟨out, hout⟩ := h
                have hrate : convRate p dialogues = 0 := by
                  unfold convRate
                  rw [if_neg hn, hzero, zero_mul, zero_div]
                have hne : ranks ≠ [] := by
                  rintro rfl
                  exact hn hlen.symm
                rw [hrate, loop_stuck hne] at hout
                cases hout
              -- and with a rate the loop runs to its end
              · by_cases hne : ranks = []
                · subst hne
                  exact ⟨_, rfl⟩
                · have hn : p.numRequests ≠ 0 := fun hzero =>
                    hne (List.eq_nil_of_length_eq_zero (hlen.trans hzero))
                  have hrate : convRate p dialogues ≠ 0 := by
                    unfold convRate
                    rw [if_neg hn]
                    exact div_ne_zero (mul_ne_zero (h.2.2 hn).2 (Int.cast_ne_zero.mpr (hpos hne)))
                      (Nat.cast_ne_zero.mpr hn)
                  obtain ⟨b, hb⟩ := loop_ok rng hq hmax hrate planned_building hall
                  rw [hb]
                  exact ⟨_, rfl⟩

/-- Seven turns of two ranks, three to a dialogue at most. -/
theorem makeWorkload_seven :
    let p : Params := ⟨7, 2, 2, 1, 1, 1, 5 / 2, 512, 600, 3, 1, "m0"⟩
    ∃ out, makeWorkload (fun _ => some 2) ⟨fun n => 1 / (n + 2), fun x => x, fun x _ => x⟩ p
        = .ok out ∧
      Conversational p 2 out := by
  intro p
  have hspec := makeWorkload_spec (fun _ => some 2)
    ⟨fun n => 1 / (n + 2), fun x => x, fun x _ => x⟩ p (by decide) (by decide)
  obtain ⟨out, hout⟩ := hspec.2.mpr
    ⟨(accelerator_built rfl 512).mpr rfl, by decide, fun _ => by decide +kernel⟩
  obtain ⟨generated, hgen, hconv⟩ := hspec.1 out hout
  obtain rfl : 2 = generated := Except.ok.inj ((show generatedBlocks p = .ok 2 from rfl).symm.trans
    hgen)
  exact ⟨out, hout, hconv⟩

/-- **Settings that raise**: requests without a conversation, without a rate, with blocks
that hold no token, and with blocks that are no whole number of elements. -/
theorem settings_raise :
    let p : Params := ⟨1, 8, 4, 4, 2, 11 / 10, 5 / 2, 512, 64, 8, 1, "m0"⟩
    let rng : Stream := ⟨fun _ => 1 / 2, fun x => x, fun x _ => x⟩
    let answer : Params → Except GeneratorError ℕ := fun p =>
      (makeWorkload (fun _ => some 2) rng p).map List.length
    answer p = .ok 1 ∧ answer { p with numConversations := 0 } = .error .index ∧
      answer { p with arrivalRate := 0 } = .error .zeroDivision ∧
      answer { p with blockTokens := 0 } = .error .zeroDivision ∧
      answer { p with blockTokens := 511 } =
        .error (.accelerator (.block (blockText 511 511 defaultModel.computeDtype))) := by
  decide +kernel

end Toso.KvCache.Workload
