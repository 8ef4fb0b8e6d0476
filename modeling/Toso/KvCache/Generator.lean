/-
  Toso.KvCache.Generator — synthetic conversations, and the keys their turns address
  prompts with.

  A conversation opens with a system prompt all requests share and a context of its
  rank, and then grows: a turn is the turn before it, the blocks its output left behind,
  and a new message.  The random stream decides the rank of each turn, when a dialogue
  opens and how long its user thinks; the segments come from one counter.

  A stream is what `random()` answers, and logarithms and powers are parameters: a float
  that overflows or underflows is not modelled.

  Main results:
    * `join_inj` — a key tells what it continues, and by which segment.
    * `extend_eq`, `continuationKeys_eq` — both ways of continuing a chain are one.
    * `makeWorkload` — the generator, every draw of it.
-/
import Toso.Lib.PrefixChain
import Toso.KvCache.PullCost
import Toso.KvCache.Reconcile
import Mathlib.Data.String.Basic

namespace Toso.KvCache.Workload

open Lib Domain

/-! ## §1. Conversations. -/

/-- `Turn`: one request, and the pause in front of it. -/
structure Turn where
  request : Request String String
  think : ℚ

/-- `Conversation`: turns run strictly one after another. -/
structure Conversation where
  id : String
  arrival : ℚ
  turns : List Turn

/-- `requests`. -/
def Conversation.requests (c : Conversation) : List (Request String String) :=
  c.turns.map Turn.request

/-- `_Dialogue`: a conversation under construction. -/
structure Dialogue where
  id : String
  rank : String
  arrival : ℚ
  /-- When the next turn would arrive if every turn were served instantly. -/
  planned : ℚ
  turns : List Turn

/-- What `make_workload` raises. -/
inductive GeneratorError
  /-- `IndexError`. -/
  | index
  /-- `ZeroDivisionError`. -/
  | zeroDivision
  /-- What building the accelerator raises. -/
  | accelerator (e : AcceleratorError)
  deriving DecidableEq

/-- The arguments of `make_workload`, less its seed. -/
structure Params where
  numRequests : ℕ
  numConversations : ℕ
  systemBlocks : ℕ
  convBaseBlocks : ℕ
  queryBlocks : ℕ
  zipfS : ℚ
  arrivalRate : ℚ
  blockTokens : ℕ
  outputTokens : ℤ
  maxTurns : ℕ
  thinkTime : ℚ
  modelId : String

/-- `random.Random(seed)`: the answers of `random()` in the order they are asked for, and
the float functions they are read through. -/
structure Stream where
  random : ℕ → ℚ
  log : ℚ → ℚ
  power : ℚ → ℚ → ℚ

/-- `expovariate`, on the draw at `n`. -/
def Stream.expovariate (rng : Stream) (n : ℕ) (lambd : ℚ) : Except GeneratorError ℚ :=
  if lambd = 0 then .error .zeroDivision else .ok (-(rng.log (1 - rng.random n)) / lambd)

/-! ## §2. Keys. -/

/-- `f"{acc}|{seg}"`. -/
def joined (acc seg : String) : String := acc ++ "|" ++ seg

/-- The loop of `_extend`. -/
def extend : String → List ℕ → List String
  | _, [] => []
  | acc, seg :: rest => joined acc (toString seg) :: extend (joined acc (toString seg)) rest

/-- `f"{acc}|g{i}"`. -/
def grow (acc : String) (i : ℕ) : String := joined acc ("g" ++ toString i)

/-- A segment of a key: one the generator chose, or a block a turn generated. -/
inductive Segment
  | chosen (seg : ℕ)
  | generated (i : ℕ)
  deriving DecidableEq

/-- The segment's text. -/
def Segment.text : Segment → String
  | .chosen seg => toString seg
  | .generated i => "g" ++ toString i

/-- A key continued by a segment. -/
def join (acc : String) (seg : Segment) : String := joined acc seg.text

theorem extend_eq (acc : String) (segs : List ℕ) :
    extend acc segs = chain join acc (segs.map .chosen) := by
  induction segs generalizing acc with
  | nil => rfl
  | cons seg rest ih =>
      show joined acc (toString seg) :: extend _ rest = _
      rw [ih]
      rfl

theorem growKeys_eq (count : ℕ) (acc : String) (i : ℕ) :
    growKeys grow count acc i = chain join acc ((List.range' i count).map .generated) := by
  induction count generalizing acc i with
  | zero => rfl
  | succ count ih =>
      show grow acc i :: growKeys grow count (grow acc i) (i + 1) = _
      rw [ih]
      rfl

/-- The keys a turn's output leaves behind continue its chain. -/
theorem continuationKeys_eq {r : Request String String} {last : String}
    (h : r.blockKeys.getLast? = some last) (count : ℕ) :
    r.continuationKeys grow id count =
      chain join last ((List.range' 1 count).map .generated) := by
  unfold Request.continuationKeys
  rw [h, growKeys_eq]
  rfl

theorem toString_nat_inj {m n : ℕ} (h : toString m = toString n) : m = n := by
  have hdigits : Nat.toDigits 10 m = Nat.toDigits 10 n := by
    rw [← Nat.toList_repr, ← Nat.toList_repr]
    exact congrArg String.toList h
  have hm := Nat.ofDigitChars_toDigits (b := 10) (n := m) (by decide) (by decide)
  rw [hdigits, Nat.ofDigitChars_toDigits (by decide) (by decide)] at hm
  exact hm.symm

/-- The digits of a segment, and the letter of a generated one. -/
theorem Segment.not_mem_text (seg : Segment) : '|' ∉ seg.text.toList := by
  have hdigits : ∀ n : ℕ, '|' ∉ (toString n).toList := fun n hmem => by
    have hrepr : (toString n).toList = Nat.toDigits 10 n := Nat.toList_repr
    rw [hrepr] at hmem
    exact absurd (Nat.isDigit_of_mem_toDigits (by decide) (by decide) hmem) (by decide)
  -- neither a digit nor the letter is the bar
  cases seg with
  | chosen n => exact hdigits n
  | generated i =>
      show '|' ∉ ("g" ++ toString i).toList
      rw [String.toList_append]
      intro hmem
      rcases List.mem_append.mp hmem with hg | hi
      · exact absurd hg (by decide)
      · exact hdigits i hi

/-- A generated block's text starts with a letter, so it is no number. -/
theorem Segment.text_inj {s t : Segment} (h : s.text = t.text) : s = t := by
  have hletter : ∀ n i : ℕ, toString n ≠ "g" ++ toString i := fun n i heq => by
    have hlist := congrArg String.toList heq
    rw [String.toList_append, show (toString n).toList = Nat.toDigits 10 n from Nat.toList_repr]
      at hlist
    have hmem : 'g' ∈ Nat.toDigits 10 n := by
      rw [hlist]
      exact List.mem_append_left _ (by decide)
    exact absurd (Nat.isDigit_of_mem_toDigits (by decide) (by decide) hmem) (by decide)
  cases s with
  | chosen n =>
      cases t with
      | chosen m => exact congrArg Segment.chosen (toString_nat_inj h)
      | generated i => exact absurd h (hletter n i)
  | generated i =>
      cases t with
      | chosen n => exact absurd h.symm (hletter n i)
      | generated j =>
          have hlist : "g".toList ++ (toString i).toList = "g".toList ++ (toString j).toList := by
            rw [← String.toList_append, ← String.toList_append]
            exact congrArg String.toList h
          have htail := List.append_cancel_left hlist
          exact congrArg Segment.generated (toString_nat_inj (String.toList_injective htail))

/-- **A key tells what it continues, and by which segment.** -/
theorem join_inj (a b : String) (s t : Segment) (h : join a s = join b t) : a = b ∧ s = t := by
  have hlist : a.toList ++ '|' :: s.text.toList = b.toList ++ '|' :: t.text.toList := by
    have hl := congrArg String.toList h
    simpa [join, joined, String.toList_append] using hl
  obtain ⟨c, ha, hs⟩ | ⟨c, hb, ht⟩ := List.append_eq_append_iff.mp hlist
  · cases c with
    | nil =>
        rw [List.append_nil] at ha
        have htext := (List.cons.inj hs).2
        exact ⟨(String.toList_injective ha).symm, Segment.text_inj (String.toList_injective htext)⟩
    | cons d c =>
        -- the text would hold the separator before its own
        have hmem : '|' ∈ s.text.toList := by
          rw [(List.cons.inj hs).2]
          exact List.mem_append_right _ List.mem_cons_self
        exact absurd hmem s.not_mem_text
  · cases c with
    | nil =>
        rw [List.append_nil] at hb
        have htext := (List.cons.inj ht).2
        exact ⟨String.toList_injective hb,
          (Segment.text_inj (String.toList_injective htext)).symm⟩
    | cons d c =>
        have hmem : '|' ∈ t.text.toList := by
          rw [(List.cons.inj ht).2]
          exact List.mem_append_right _ List.mem_cons_self
        exact absurd hmem t.not_mem_text

/-- The separators of a key: how many segments there are below its root's own. -/
def depth (key : String) : ℕ := key.toList.count '|'

theorem depth_join (a : String) (s : Segment) : depth (join a s) = depth a + 1 := by
  have htext : s.text.toList.count '|' = 0 := List.count_eq_zero.mpr s.not_mem_text
  unfold depth join joined
  rw [String.toList_append, String.toList_append, List.count_append, List.count_append, htext]
  rfl

/-! ## §3. Draws. -/

/-- `_zipf_weights`. -/
def zipfWeights (rng : Stream) (n : ℕ) (s : ℚ) : List ℚ :=
  let raw := (List.range n).map fun rank : ℕ => 1 / rng.power ((rank : ℚ) + 1) s
  raw.map fun w => w / raw.sum

/-- The loop of `_sample`. -/
def sampleFrom (x : ℚ) : ℚ → ℤ → List ℚ → Option ℤ
  | _, _, [] => none
  | acc, i, w :: rest => if x ≤ acc + w then some i else sampleFrom x (acc + w) (i + 1) rest

/-- `_sample`: an index, the last where the weights fall short. -/
def sample (x : ℚ) (weights : List ℚ) : ℤ :=
  (sampleFrom x 0 0 weights).getD (weights.length - 1)

/-- An index of a list of `n`, from its end when negative. -/
def indexOf (n : ℕ) (i : ℤ) : Except GeneratorError ℕ :=
  if 0 ≤ i ∧ i < n then .ok i.toNat
  else if -n ≤ i ∧ i < 0 then .ok (i + n).toNat
  else .error .index

/-- The rank of each turn, the draws from `k` on. -/
def ranksFrom (rng : Stream) (p : Params) : ℕ → ℕ → Except GeneratorError (List ℕ)
  | _, 0 => .ok []
  | k, n + 1 =>
      (indexOf p.numConversations
        (sample (rng.random k) (zipfWeights rng p.numConversations p.zipfS))).bind fun c =>
          (ranksFrom rng p (k + 1) n).map fun rest => c :: rest

/-- `sum(-(-n // max_turns) for n in counts)`. -/
def dialogueCount (p : Params) (ranks : List ℕ) : Except GeneratorError ℤ :=
  if p.maxTurns = 0 ∧ p.numConversations ≠ 0 then .error .zeroDivision
  else .ok ((List.range p.numConversations).map fun c =>
    -(-(ranks.count c : ℤ) / (p.maxTurns : ℤ))).sum

/-- `conv_rate`: dialogues per second. -/
def convRate (p : Params) (dialogues : ℤ) : ℚ :=
  if p.numRequests = 0 then p.arrivalRate else p.arrivalRate * dialogues / p.numRequests

/-! ## §4. The loop. -/

/-- `opening`: each rank's context behind the system prompt, from a segment on. -/
def openings (p : Params) : ℕ → ℕ → List (List ℕ)
  | 0, _ => []
  | n + 1, fresh =>
      (List.range p.systemBlocks ++ List.range' fresh p.convBaseBlocks)
        :: openings p n (fresh + p.convBaseBlocks)

/-- The variables of the loop: `drawn` draws of the stream are gone; `active` is where in
`built` the dialogue taking a rank's turns is. -/
structure Building where
  fresh : ℕ
  drawn : ℕ
  t : ℚ
  built : List Dialogue
  active : Dict ℕ ℕ
  started : Dict ℕ ℕ

/-- `f"c{c}"`. -/
def rankName (c : ℕ) : String := "c" ++ toString c

/-- The dialogue that takes a rank's next turn, if it is not full. -/
def dialogueAt (p : Params) (c : ℕ) (b : Building) : Option (ℕ × Dialogue) :=
  (b.active.get? c).bind fun j => (b.built[j]?).bind fun d =>
    if p.maxTurns ≤ d.turns.length then none else some (j, d)

/-- A dialogue opened for the rank. -/
def begun (rng : Stream) (rate : ℚ) (c : ℕ) (b : Building) :
    Except GeneratorError (ℕ × Dialogue × Building) :=
  (rng.expovariate b.drawn rate).map fun gap =>
    let t := b.t + gap
    let d : Dialogue :=
      ⟨rankName c ++ "." ++ toString (b.started.getD c 0), rankName c, t, t, []⟩
    (b.built.length, d,
      { b with
        drawn := b.drawn + 1
        t := t
        built := b.built ++ [d]
        active := b.active.set c b.built.length
        started := b.started.set c (b.started.getD c 0 + 1) })

/-- The keys of a turn: what its rank opens with, or the sequence before it and what its
output left behind, then the message. -/
def turnKeys (p : Params) (generated : ℕ) (opening query : List ℕ) (turns : List Turn) :
    Except GeneratorError (List String) :=
  match turns.getLast? with
  | none => .ok (extend p.modelId (opening ++ query))
  | some previous =>
      let history := previous.request.blockKeys
        ++ previous.request.continuationKeys grow id generated
      match history.getLast? with
      | none => .error .index
      | some last => .ok (history ++ extend last query)

/-- The pause in front of a turn, and the draws gone after it. -/
def thinkOf (rng : Stream) (p : Params) (drawn : ℕ) (turns : List Turn) :
    Except GeneratorError (ℚ × ℕ) :=
  if turns = [] then .ok (0, drawn)
  else if 0 < p.thinkTime then
    (rng.expovariate drawn (1 / p.thinkTime)).map fun think => (think, drawn + 1)
  else .ok (0, drawn)

/-- The request of turn `i`. -/
def requestOf (p : Params) (i : ℕ) (arrival : ℚ) (keys : List String) (conversation : String) :
    Request String String :=
  ⟨"r" ++ toString i, arrival, keys, keys.length * p.blockTokens, p.outputTokens,
    keys.length * p.blockTokens, conversation, rfl⟩

/-- The body of the loop, for the dialogue at `j`. -/
def addTurn (rng : Stream) (p : Params) (generated i c j : ℕ) (d : Dialogue) (b : Building) :
    Except GeneratorError Building :=
  match (openings p p.numConversations 1000)[c]? with
  | none => .error .index
  | some opening =>
      (turnKeys p generated opening (List.range' b.fresh p.queryBlocks) d.turns).bind fun keys =>
        (thinkOf rng p b.drawn d.turns).map fun (think, drawn) =>
          let planned := d.planned + think
          { b with
            fresh := b.fresh + p.queryBlocks
            drawn := drawn
            built := b.built.set j { d with
              planned := planned
              turns := d.turns ++ [⟨requestOf p i planned keys d.rank, think⟩] } }

/-- One pass of the loop: turn `i`, of rank `c`. -/
def pass (rng : Stream) (p : Params) (generated : ℕ) (rate : ℚ) (i c : ℕ) (b : Building) :
    Except GeneratorError Building :=
  match dialogueAt p c b with
  | some (j, d) => addTurn rng p generated i c j d b
  | none => (begun rng rate c b).bind fun (j, d, b) => addTurn rng p generated i c j d b

/-- The loop, from turn `i` on. -/
def loop (rng : Stream) (p : Params) (generated : ℕ) (rate : ℚ) :
    ℕ → List ℕ → Building → Except GeneratorError Building
  | _, [], b => .ok b
  | i, c :: rest, b =>
      (pass rng p generated rate i c b).bind fun b => loop rng p generated rate (i + 1) rest b

/-- A dialogue, frozen. -/
def Dialogue.freeze (d : Dialogue) : Conversation := ⟨d.id, d.arrival, d.turns⟩

/-- Sorted by arrival, then id. -/
def sortedByArrival (l : List Conversation) : List Conversation :=
  l.insertionSort fun c c' => c.arrival < c'.arrival ∨ c.arrival = c'.arrival ∧ c.id ≤ c'.id

/-- What the loop starts from: the segments past every rank's context. -/
def building (p : Params) : Building :=
  ⟨1000 + p.numConversations * p.convBaseBlocks, p.numRequests, 0, [], .empty, .empty⟩

/-- `generated_blocks`: the blocks of KV a turn's generation leaves behind. -/
def generatedBlocks (p : Params) : Except GeneratorError ℕ :=
  (blocksFor p.blockTokens (max (p.outputTokens - 1) 0).toNat).mapError fun _ => .zeroDivision

/-- `make_workload`.  `dtypes` is torch's table of element sizes. -/
def makeWorkload (dtypes : String → Option ℕ) (rng : Stream) (p : Params) :
    Except GeneratorError (List Conversation) :=
  ((simulatedAccelerator dtypes defaultModel p.blockTokens).mapError .accelerator).bind fun _ =>
  (generatedBlocks p).bind fun generated =>
  (ranksFrom rng p 0 p.numRequests).bind fun ranks =>
  (dialogueCount p ranks).bind fun dialogues =>
  (loop rng p generated (convRate p dialogues) 0 ranks (building p)).map fun b =>
    sortedByArrival (b.built.map Dialogue.freeze)

end Toso.KvCache.Workload
