/-
  Toso.KvCache.RoutedPulls — a plan and the read that carries it out.

  A memo names the asking host and a set of keys, not a request.  A fetch is
  answered from the oldest memo that matches, so it carries out its own plan only
  in order: a prefill host makes the fetches of one set of keys in the order
  they were booked, and a decode host fetches no chain that is owed to it as a
  pull.

  Main results:
    * `right_iff` — a fetch is answered right exactly when it is in order.
    * `pulls_carried` — while every fetch is in order the memos are exactly the
      pulls still owed, and every fetch carries out its own plan.
    * `pull_overtaken` — a fetch that overtakes another is told its peer.
-/
import Toso.KvCache.PricedOnce

namespace Toso.KvCache

open Lib Proposed

variable {ν ι κ : Type*}

/-- A request whose fetch is still to come: on its way, or just accepted. -/
def Leg.owes (leg : Leg ν ι κ) : Bool :=
  match leg.stage with
  | .asking => true
  | .served _ .accepted => true
  | _ => false

/-- What a fetch should have been told: one that carries out a plan, that plan's
source, spending its own memo; any other, spending nothing. -/
def Fetch.Right (f : Fetch ν ι) : Prop :=
  match f.priced with
  | some source => f.head = some source ∧ f.spent = some f.asker
  | none => f.spent = none

/-- The memo an action records. -/
def Action.memo : Action ι κ → Option (Memo ι κ)
  | .committed response _ => response.memo
  | _ => none

namespace Serving

section

variable [LinearOrder ι] [DecidableEq κ] [DecidableEq ν]

/-! ## §1. The pulls owed. -/

/-- Does a request still owe its fetch? -/
def owing (s : Serving ν ι κ) (id : ν) : Bool := (s.legs.get? id).any Leg.owes

/-- The pull an accepted decision priced, while its request owes the fetch. -/
def pullOf (s : Serving ν ι κ) (a : ν × Action ι κ) : Option (ν × Memo ι κ) :=
  if s.owing a.1 then a.2.memo.map fun m => (a.1, m) else none

/-- The pulls owed, in the order they were booked. -/
def owed (s : Serving ν ι κ) : List (ν × Memo ι κ) := s.dispatched.filterMap s.pullOf

/-- Who has owed `host` a pull of exactly `keys` for longest. -/
def firstOwed (s : Serving ν ι κ) (host : ι) (keys : List κ) : Option ν :=
  (s.owed.find? fun m => decide (m.2.Matches host keys)).map Prod.fst

/-- A fetch in order: a priced pull is made by whoever has owed it for longest, and a
handoff fetches what nobody owes its host. -/
def InOrder (s : Serving ν ι κ) : Event ν ι κ → Prop
  | .pull id _ => ∀ at' ∈ s.at? id .accepted, ∀ m ∈ at'.2.memo,
      s.firstOwed at'.1.host m.planned = some id
  | .handoff id _ => ∀ at' ∈ s.at? id .prefilled,
      -- a host that prefilled the request, or an empty chain, fetches nothing
      at'.2.decode = at'.2.prefill ∨ at'.1.request.blockKeys = [] ∨
        s.firstOwed at'.2.decode at'.1.request.blockKeys = none
  | _ => True

instance (s : Serving ν ι κ) : (e : Event ν ι κ) → Decidable (s.InOrder e)
  | .pull id _ => inferInstanceAs (Decidable (∀ at' ∈ s.at? id .accepted,
      ∀ m ∈ at'.2.memo, s.firstOwed at'.1.host m.planned = some id))
  | .handoff id _ => inferInstanceAs (Decidable (∀ at' ∈ s.at? id .prefilled,
      at'.2.decode = at'.2.prefill ∨ at'.1.request.blockKeys = [] ∨
        s.firstOwed at'.2.decode at'.1.request.blockKeys = none))
  | .arrive _ _ | .ask _ _ | .finish _ _ | .join _ | .leave _ | .report _ _ | .deliver _
  | .busy _ _ | .tick _ => .isTrue trivial

/-! ## §2. How the pulls owed change. -/

omit [LinearOrder ι] [DecidableEq κ] in
/-- A pull is labelled as the action that recorded it. -/
theorem pullOf_eq_some {s : Serving ν ι κ} {a : ν × Action ι κ} {b : ν × Memo ι κ}
    (h : s.pullOf a = some b) : b.1 = a.1 ∧ a.2.memo = some b.2 := by
  unfold pullOf at h
  rw [Option.ite_none_right_eq_some, Option.map_eq_some_iff] at h
  obtain ⟨_, m, hm, rfl⟩ := h
  exact ⟨rfl, hm⟩

omit [LinearOrder ι] [DecidableEq κ] in
/-- The pulls owed after a step that appends to what was dispatched. -/
theorem owed_append {s t : Serving ν ι κ} (new : List (ν × Action ι κ))
    (hd : t.dispatched = s.dispatched ++ new)
    (h : ∀ a ∈ s.dispatched, t.owing a.1 = s.owing a.1) :
    t.owed = s.owed ++ new.filterMap t.pullOf := by
  unfold owed
  rw [hd, List.filterMap_append]
  congr 1
  refine List.filterMap_congr fun a ha => ?_
  unfold pullOf
  rw [h a ha]

omit [LinearOrder ι] [DecidableEq κ] in
/-- The pulls owed after a step that dispatches no decision. -/
theorem owed_congr {s t : Serving ν ι κ} (hd : t.dispatched = s.dispatched)
    (h : ∀ a ∈ s.dispatched, t.owing a.1 = s.owing a.1) : t.owed = s.owed := by
  have happ := owed_append [] (by rw [hd, List.append_nil]) h
  rw [happ, List.filterMap_nil, List.append_nil]

omit [LinearOrder ι] [DecidableEq κ] in
/-- Who owes after a leg is replaced. -/
theorem owing_set {s t : Serving ν ι κ} {id : ν} {leg : Leg ν ι κ}
    (hlegs : t.legs = s.legs.set id leg) (x : ν) :
    t.owing x = if id = x then leg.owes else s.owing x := by
  unfold owing
  rw [hlegs, Dict.get?_set]
  by_cases hx : id = x
  · rw [if_pos hx, if_pos hx, Option.any_some]
  · rw [if_neg hx, if_neg hx]

omit [LinearOrder ι] [DecidableEq κ] in
/-- A leg that owes as it did before. -/
theorem owed_same {s t : Serving ν ι κ} {id : ν} {leg : Leg ν ι κ}
    (hl : s.legs.get? id = some leg) (leg' : Leg ν ι κ) (hlegs : t.legs = s.legs.set id leg')
    (hd : t.dispatched = s.dispatched) (howes : leg'.owes = leg.owes) : t.owed = s.owed := by
  refine owed_congr hd fun a _ => ?_
  rw [owing_set hlegs]
  by_cases ha : id = a.1
  · rw [if_pos ha, howes, ← ha, owing, hl, Option.any_some]
  · rw [if_neg ha]

omit [LinearOrder ι] [DecidableEq κ] in
/-- A leg that no longer owes. -/
theorem owed_drop {s t : Serving ν ι κ} {id : ν} (leg' : Leg ν ι κ)
    (hlegs : t.legs = s.legs.set id leg') (hd : t.dispatched = s.dispatched)
    (howes : leg'.owes = false) : t.owed = s.owed.filter fun m => m.1 ≠ id := by
  unfold owed
  rw [hd, List.filter_filterMap]
  refine List.filterMap_congr fun a _ => ?_
  unfold pullOf
  rw [owing_set hlegs, howes]
  by_cases ha : id = a.1
  · cases hm : a.2.memo <;> cases s.owing a.1 <;> simp [ha, Option.filter]
  · have hne : a.1 ≠ id := fun heq => ha heq.symm
    cases hm : a.2.memo <;> cases s.owing a.1 <;> simp [ha, hne, Option.filter]

omit [LinearOrder ι] [DecidableEq κ] in
/-- What a pull owed says of the decision that recorded it. -/
theorem memo_of_owed {s : Serving ν ι κ} {id : ν} {response : Response ι κ}
    {outputTokens : ℤ} (h : s.actionsOf id = [.committed response outputTokens])
    {m : Memo ι κ} (hm : (id, m) ∈ s.owed) : response.memo = some m := by
  obtain ⟨a, ha, hp⟩ := List.mem_filterMap.mp hm
  obtain ⟨hlabel, hmemo⟩ := pullOf_eq_some hp
  rw [eq_of_actionsOf h ha hlabel.symm] at hmemo
  exact hmemo

omit [LinearOrder ι] [DecidableEq κ] in
/-- Each request owes one pull at most. -/
theorem PricedOnce.owed_nodup {s : Serving ν ι κ} (h : PricedOnce s) :
    (s.owed.map Prod.fst).Nodup := by
  refine h.dispatched_nodup.sublist ?_
  unfold owed
  induction s.dispatched with
  | nil => exact List.Sublist.slnil
  | cons a rest ih =>
      cases hp : s.pullOf a with
      | none =>
          rw [List.filterMap_cons_none hp]
          exact ih.cons _
      | some b =>
          rw [List.filterMap_cons_some hp, List.map_cons, List.map_cons, (pullOf_eq_some hp).1]
          exact ih.cons_cons _

/-! ## §3. Spending a memo. -/

/-- With distinct labels, erasing the first match is dropping its label. -/
theorem eraseP_eq_filter {β : Type*} (p : ν × β → Bool) {id : ν} :
    ∀ {l : List (ν × β)}, (l.map Prod.fst).Nodup → (l.find? p).map Prod.fst = some id →
      l.eraseP p = l.filter fun a => a.1 ≠ id
  | [], _, h => by cases h
  | a :: rest, hn, h => by
      rw [List.map_cons, List.nodup_cons] at hn
      obtain ⟨hhead, hrest⟩ := hn
      by_cases hp : p a = true
      · -- the first match: nothing behind it carries its label
        rw [List.find?_cons_of_pos hp, Option.map_some, Option.some.injEq] at h
        rw [List.eraseP_cons_of_pos hp, List.filter_cons_of_neg (by simp [h])]
        symm
        rw [List.filter_eq_self]
        intro b hb
        have hne : b.1 ≠ id := fun heq =>
          hhead (List.mem_map.mpr ⟨b, hb, heq.trans h.symm⟩)
        simpa using hne
      · rw [List.find?_cons_of_neg hp] at h
        obtain ⟨b, hb, hid⟩ := Option.map_eq_some_iff.mp h
        have hne : a.1 ≠ id := fun heq =>
          hhead (List.mem_map.mpr ⟨b, List.mem_of_find?_eq_some hb, hid.trans heq.symm⟩)
        rw [List.eraseP_cons_of_neg hp, List.filter_cons_of_pos (by simpa using hne),
          eraseP_eq_filter p hrest h]

/-! ## §4. While every fetch is in order. -/

/-- The memos are the pulls owed, and every fetch was told what it should. -/
structure Carried (s : Serving ν ι κ) : Prop where
  memos : s.memos = s.owed
  right : ∀ f ∈ s.fetched, f.Right

/-- The peer a fetch is answered from, and whose memo it spends. -/
theorem Carried.peer {s : Serving ν ι κ} (h : Carried s) (hlabel : Labelled s) (host : ι)
    (keys : List κ) : s.plane.routed.peer host keys =
      (s.owed.find? fun m => decide (m.2.Matches host keys)).map fun m => m.2.peer := by
  rw [RoutedPullSensor.peer_eq, ← hlabel.memos, List.find?_map, Option.map_map, h.memos]
  rfl

/-- **One fetch of a plan's pull**: it is told right exactly when its request has
owed the pull for longest. -/
theorem Carried.pull {s : Serving ν ι κ} (h : Carried s) (hlabel : Labelled s)
    (honce : PricedOnce s) (cfg : Settings ι) {leg : Leg ν ι κ} {response : Response ι κ}
    (hl : s.legs.get? leg.request.id = some leg) (hs : leg.stage = .served response .accepted)
    {m : Memo ι κ} (hm : response.memo = some m) (located : κ → List ι) :
    ((∀ f ∈ (s.pull cfg leg response located).fetched, f.Right) ↔
      s.firstOwed leg.host m.planned = some leg.request.id) ∧
    (s.firstOwed leg.host m.planned = some leg.request.id →
      (s.pull cfg leg response located).memos = (s.pull cfg leg response located).owed) := by
  have hstand := honce.standing _ leg hl
  unfold Standing at hstand
  rw [hs] at hstand
  rw [pull_eq_fetch cfg s leg located hm]
  obtain ⟨answer, hhead, heq⟩ :=
    fetch_eq cfg s leg response leg.host m.planned (some m.peer) located .prefilling
  rw [heq]
  constructor
  · constructor
    · -- what it spent is its own memo
      intro hright
      have hlast := hright ⟨leg.request.id, some m.peer, answer.head,
        (s.memos.find? fun m' => decide (m'.2.Matches leg.host m.planned)).map Prod.fst⟩
        (List.mem_append_right _ List.mem_cons_self)
      rw [h.memos] at hlast
      exact hlast.2
    · intro hfirst f hf
      rcases List.mem_append.mp hf with hold | hnew
      · exact h.right f hold
      · rw [List.mem_singleton] at hnew
        subst hnew
        obtain ⟨b, hb, hid⟩ := Option.map_eq_some_iff.mp hfirst
        have hmem : (leg.request.id, b.2) ∈ s.owed := by
          rw [← hid]
          exact List.mem_of_find?_eq_some hb
        have hown := memo_of_owed hstand.2.2.1 hmem
        rw [hm, Option.some.injEq] at hown
        refine ⟨?_, ?_⟩
        · apply hhead
          rw [h.peer hlabel, hb, hown]
          rfl
        · show (s.memos.find? _).map Prod.fst = _
          rw [h.memos]
          exact hfirst
  · intro hfirst
    show s.memos.eraseP _ = _
    rw [h.memos, eraseP_eq_filter _ honce.owed_nodup hfirst]
    symm
    exact owed_drop { leg with stage := .served response .prefilling } rfl rfl rfl

/-- **One handoff's fetch**: it spends nothing exactly when nobody owes it. -/
theorem Carried.handoff {s : Serving ν ι κ} (h : Carried s) (cfg : Settings ι)
    {leg : Leg ν ι κ} {response : Response ι κ}
    (hl : s.legs.get? leg.request.id = some leg) (hs : leg.stage = .served response .prefilled)
    (located : κ → List ι) (host : ι) (keys : List κ) :
    let t := s.fetch cfg leg response host keys none located .handed
    ((∀ f ∈ t.fetched, f.Right) ↔ s.firstOwed host keys = none) ∧
      (s.firstOwed host keys = none → t.memos = t.owed) := by
  obtain ⟨answer, _, heq⟩ := fetch_eq cfg s leg response host keys none located .handed
  show ((∀ f ∈ (s.fetch cfg leg response host keys none located .handed).fetched, f.Right) ↔ _)
    ∧ _
  rw [heq]
  constructor
  · constructor
    · intro hright
      have hlast := hright ⟨leg.request.id, none, answer.head,
        (s.memos.find? fun m => decide (m.2.Matches host keys)).map Prod.fst⟩
        (List.mem_append_right _ List.mem_cons_self)
      rw [h.memos] at hlast
      exact hlast
    · intro hfirst f hf
      rcases List.mem_append.mp hf with hold | hnew
      · exact h.right f hold
      · rw [List.mem_singleton] at hnew
        subst hnew
        show (s.memos.find? _).map Prod.fst = none
        rw [h.memos]
        exact hfirst
  · intro hfirst
    show s.memos.eraseP _ = _
    have hnone := Option.map_eq_none_iff.mp hfirst
    rw [h.memos, List.eraseP_of_forall_not (by simpa using List.find?_eq_none.mp hnone)]
    symm
    refine owed_same hl { leg with stage := .served response .handed } rfl rfl ?_
    simp only [Leg.owes, hs]

/-- What one step owes the claim: its fetch is right exactly when it is in order, and
in order the memos stay the pulls owed. -/
def StepsRight (s t : Serving ν ι κ) (e : Event ν ι κ) : Prop :=
  ((∀ f ∈ t.fetched, f.Right) ↔ s.InOrder e) ∧ (s.InOrder e → t.memos = t.owed)

/-- A step that fetches nothing. -/
theorem Carried.quiet {s t : Serving ν ι κ} (h : Carried s) {e : Event ν ι κ}
    (hf : t.fetched = s.fetched) (hm : t.memos = s.memos) (ho : t.owed = s.owed)
    (hord : s.InOrder e) : s.StepsRight t e := by
  constructor
  · constructor
    · intro _
      exact hord
    · intro _
      rw [hf]
      exact h.right
  · intro _
    rw [hm, ho]
    exact h.memos

/-- **One ask**: a booking owes its pull from then on, behind every other. -/
theorem Carried.ask {s : Serving ν ι κ} (h : Carried s) (honce : PricedOnce s)
    (cfg : Settings ι) {id : ν} {leg : Leg ν ι κ} (hl : s.legs.get? id = some leg)
    (hs : leg.stage = .asking) (located : κ → List ι) :
    s.StepsRight (s.ask cfg leg located) (.ask id located) := by
  obtain rfl := honce.id_eq id leg hl
  have hstand := honce.standing _ leg hl
  unfold Standing at hstand
  rw [hs] at hstand
  have howes : leg.owes = true := by simp only [Leg.owes, hs]
  rcases ask_cases cfg s leg located with ⟨placed, hp, heq⟩ | ⟨hp, hcases⟩
  · -- moved, and served where it was sent: it owes what it owed
    rcases hstand with ⟨_, _, hnone⟩ | ⟨_, response, hhost, _, hsome⟩
    · rw [hp] at hnone
      cases hnone
    · rw [hp, Option.some.injEq] at hsome
      subst hsome
      rw [heq, answered_here hhost]
      refine h.quiet rfl rfl ?_ trivial
      exact owed_same hl { leg with stage := .served placed .accepted } rfl rfl howes.symm
  · have hact : s.actionsOf leg.request.id = [] ∧ leg.hops = 0 := by
      rcases hstand with ⟨hhops, hact, _⟩ | ⟨_, response, _, _, hsome⟩
      · exact ⟨hact, hhops⟩
      · rw [hp] at hsome
        cases hsome
    obtain ⟨hact, hhops⟩ := hact
    -- nothing booked so far is this request's
    have hframe : ∀ (t : Serving ν ι κ) (leg' : Leg ν ι κ),
        t.legs = s.legs.set leg.request.id leg' →
        ∀ a ∈ s.dispatched, t.owing a.1 = s.owing a.1 := by
      intro t leg' hlegs a ha
      rw [owing_set hlegs, if_neg (ne_of_actionsOf_nil hact ha).symm]
    rcases hcases with heq | heq | ⟨response, heq⟩
    · rw [heq]
      exact h.quiet rfl rfl (owed_congr rfl (hframe _ { leg with stage := .raised } rfl))
        trivial
    · rw [heq]
      exact h.quiet rfl rfl (owed_congr rfl (hframe _ { leg with stage := .refused } rfl))
        trivial
    · rw [heq]
      have hfew : leg.hops + 1 < maxHops := by
        unfold maxHops
        omega
      have hnew : (answered leg (some response)).owes = true := by
        by_cases hhost : response.prefill = leg.host
        · rw [answered_here hhost]
          rfl
        · rw [answered_elsewhere hhost hfew]
          exact howes
      have howing : (s.booked leg response).owing leg.request.id = true := by
        have hset := owing_set (s := s) (t := s.booked leg response) rfl leg.request.id
        rw [hset, if_pos rfl]
        exact hnew
      have howed : (s.booked leg response).owed =
          s.owed ++ response.memo.toList.map fun m => (leg.request.id, m) := by
        rw [owed_append [(leg.request.id, .committed response leg.request.outputTokens)] rfl
          (hframe _ (answered leg (some response)) rfl)]
        congr 1
        have hpull : (s.booked leg response).pullOf
            (leg.request.id, .committed response leg.request.outputTokens) =
            response.memo.map fun m => (leg.request.id, m) := by
          unfold pullOf
          rw [if_pos howing]
          rfl
        cases hm : response.memo with
        | none =>
            rw [hm] at hpull
            rw [List.filterMap_cons_none hpull]
            rfl
        | some m =>
            rw [hm] at hpull
            rw [List.filterMap_cons_some hpull]
            rfl
      constructor
      · constructor
        · intro _
          trivial
        · intro _
          exact h.right
      · intro _
        rw [howed, ← h.memos]
        rfl

/-- **One step.** -/
theorem Carried.step {s t : Serving ν ι κ} {cfg : Settings ι} {e : Event ν ι κ}
    (h : Carried s) (hlabel : Labelled s) (honce : PricedOnce s)
    (hst : next cfg s e = some t) : s.StepsRight t e := by
  cases e with
  | arrive request host =>
      simp only [next, Option.ite_none_left_eq_some, Option.some.injEq] at hst
      obtain ⟨hfresh, rfl⟩ := hst
      have habsent := honce.absent request.id (by simpa using hfresh)
      refine h.quiet rfl rfl (owed_congr rfl ?_) trivial
      intro a ha
      have hset := owing_set (s := s) (t := s.setLeg request.id ⟨request, host, 0, .asking⟩)
        rfl a.1
      rw [hset, if_neg (ne_of_actionsOf_nil habsent.1 ha).symm]
  | ask id located =>
      obtain ⟨leg, hl, hs, rfl⟩ := next_ask hst
      exact h.ask honce cfg hl hs located
  | pull id located =>
      obtain ⟨leg, response, hl, hs, rfl⟩ := next_at hst
      obtain rfl := honce.id_eq id leg hl
      have hat : s.at? leg.request.id .accepted = some (leg, response) :=
        at?_eq_some.mpr ⟨hl, hs⟩
      show s.StepsRight (s.pull cfg leg response located) (.pull leg.request.id located)
      cases hm : response.memo with
      | none =>
          rw [pull_eq_setLeg cfg s leg located hm]
          refine h.quiet rfl rfl ?_ (by simp [InOrder, hat, hm])
          have hstand := honce.standing _ leg hl
          unfold Standing at hstand
          rw [hs] at hstand
          have hdrop : (s.setLeg leg.request.id
              { leg with stage := .served response .prefilling }).owed =
              s.owed.filter fun m => m.1 ≠ leg.request.id := owed_drop _ rfl rfl rfl
          rw [hdrop, List.filter_eq_self]
          intro m hmem
          -- a plan that priced no pull owes none
          have hne : m.1 ≠ leg.request.id := by
            intro heq
            have hown := memo_of_owed hstand.2.2.1 (m := m.2) (by rw [← heq]; exact hmem)
            rw [hm] at hown
            cases hown
          simpa using hne
      | some m =>
          have hord : s.InOrder (.pull leg.request.id located) ↔
              s.firstOwed leg.host m.planned = some leg.request.id := by
            simp [InOrder, hat, hm]
          unfold StepsRight
          rw [hord]
          exact h.pull hlabel honce cfg hl hs hm located
  | finish id seen =>
      obtain ⟨_, leg, response, hl, hs, rfl⟩ := next_finish hst
      obtain rfl := honce.id_eq id leg hl
      refine h.quiet rfl rfl (owed_same hl { leg with
        stage := .served response (if cfg.simulateDecode then .prefilled else .done) }
        rfl rfl ?_) trivial
      show Leg.owes { leg with
        stage := .served response (if cfg.simulateDecode then .prefilled else .done) } = leg.owes
      cases cfg.simulateDecode
      · simp [Leg.owes, hs]
      · simp [Leg.owes, hs]
  | handoff id located =>
      obtain ⟨leg, response, hl, hs, rfl⟩ := next_at hst
      obtain rfl := honce.id_eq id leg hl
      have hat : s.at? leg.request.id .prefilled = some (leg, response) :=
        at?_eq_some.mpr ⟨hl, hs⟩
      show s.StepsRight (s.handoff cfg leg response located) (.handoff leg.request.id located)
      rcases handoff_cases cfg s leg response located with ⟨hown, heq⟩ | ⟨hown, heq⟩
      · rw [heq]
        refine h.quiet rfl rfl (owed_same hl { leg with stage := .served response .handed }
          rfl rfl ?_) ?_
        · simp only [Leg.owes, hs]
        · simp only [InOrder, hat, Option.mem_some_iff, forall_eq']
          rcases hown with hsame | hempty
          · exact .inl hsame
          · exact .inr (.inl hempty)
      · rw [heq]
        have hord : s.InOrder (.handoff leg.request.id located) ↔
            s.firstOwed response.decode leg.request.blockKeys = none := by
          simp only [InOrder, hat, Option.mem_some_iff, forall_eq']
          constructor
          · intro hor
            rcases hor with hsame | hempty | hnone
            · exact absurd (.inl hsame) hown
            · exact absurd (.inr hempty) hown
            · exact hnone
          · intro hnone
            exact .inr (.inr hnone)
        unfold StepsRight
        rw [hord]
        exact h.handoff cfg hl hs located _ _
  | join id =>
      obtain ⟨leg, response, hl, hs, rfl⟩ := next_at hst
      obtain rfl := honce.id_eq id leg hl
      show s.StepsRight (s.join leg response) (.join leg.request.id)
      rcases join_cases s leg response with ⟨_, heq⟩ | ⟨_, heq⟩
      · rw [heq]
        refine h.quiet rfl rfl (owed_same hl { leg with stage := .served response .done }
          rfl rfl ?_) trivial
        simp only [Leg.owes, hs]
      · rw [heq]
        refine h.quiet rfl rfl (owed_same hl { leg with stage := .served response .decoding }
          rfl rfl ?_) trivial
        simp only [Leg.owes, hs]
  | leave id =>
      obtain ⟨leg, response, hl, hs, rfl⟩ := next_at hst
      obtain rfl := honce.id_eq id leg hl
      refine h.quiet rfl rfl (owed_same hl { leg with stage := .served response .done }
        rfl rfl ?_) trivial
      simp only [Leg.owes, hs]
  | report host estimate =>
      cases hst
      exact h.quiet rfl rfl rfl trivial
  | deliver i =>
      obtain ⟨_, _, rfl⟩ := Option.map_eq_some_iff.mp hst
      exact h.quiet rfl rfl rfl trivial
  | busy host busyUntil =>
      cases hst
      exact h.quiet rfl rfl rfl trivial
  | tick now =>
      simp only [next, Option.ite_none_right_eq_some, Option.some.injEq] at hst
      rw [← hst.2]
      exact h.quiet rfl rfl rfl trivial

/-! ## §5. Plans and the reads that carry them out. -/

omit [DecidableEq κ] in
theorem Carried.start (cfg : Settings ι) (now : ℚ) :
    Carried (start cfg now : Serving ν ι κ) := by
  constructor
  · rfl
  · intro f hf
    cases hf

/-- **One step, from any state that is right so far**: its fetch is answered right
exactly when it is in order. -/
theorem right_iff {cfg : Settings ι} {s t : Serving ν ι κ} {e : Event ν ι κ}
    (hrun : (machine cfg).Reachable s) (h : Carried s) (hst : next cfg s e = some t) :
    (∀ f ∈ t.fetched, f.Right) ↔ s.InOrder e :=
  (h.step (labelled_of_run hrun) (pricedOnce_of_run hrun) hst).1

theorem carried_of_run {cfg : Settings ι} {s : Serving ν ι κ}
    (h : ((machine cfg).guarded InOrder).Reachable s) : Carried s := by
  have hall : Carried s ∧ Labelled s ∧ PricedOnce s := by
    refine Machine.Reachable.guarded_invariant
      (P := fun s => Carried s ∧ Labelled s ∧ PricedOnce s) ?_ ?_ h
    · intro s hs
      obtain ⟨now, rfl⟩ := hs
      have hinit : (machine cfg).Reachable (start cfg now : Serving ν ι κ) := .init ⟨now, rfl⟩
      exact ⟨Carried.start cfg now, labelled_of_run hinit, pricedOnce_of_run hinit⟩
    · intro s e t hs hok hst
      obtain ⟨hcarried, hlabel, honce⟩ := hs
      have hone := hcarried.step hlabel honce hst
      exact ⟨⟨hone.2 hok, hone.1.mpr hok⟩, hlabel.step hst, honce.step hst⟩
  exact hall.1

/-- **A plan and its read agree, while fetches are made in order.**  The sensor
remembers exactly the pulls still owed, every fetch so far was answered from its own
plan, and the next one will be exactly when it is in order too. -/
theorem pulls_carried {cfg : Settings ι} {s : Serving ν ι κ}
    (h : ((machine cfg).guarded InOrder).Reachable s) :
    s.plane.routed.pending = s.owed.map Prod.snd ∧ (∀ f ∈ s.fetched, f.Right) ∧
    ∀ e t, next cfg s e = some t → ((∀ f ∈ t.fetched, f.Right) ↔ s.InOrder e) := by
  have hcarried := carried_of_run h
  have hrun := Machine.Reachable.of_guarded h
  refine ⟨?_, hcarried.right, ?_⟩
  · rw [← (labelled_of_run hrun).memos, hcarried.memos]
  · intro e t hst
    exact right_iff hrun hcarried hst

end

/-! ## §6. One order that holds, and one that does not. -/

/-- Two requests for one chain, each fetching before the next is booked. -/
theorem pulls_carried_in_turn : ∃ s : Serving ℕ ℕ ℕ,
    s.fetched = [⟨1, some 1, some 1, some 1⟩, ⟨2, some 2, some 2, some 2⟩] ∧
    s.plane.routed.pending = s.owed.map Prod.snd ∧ (∀ f ∈ s.fetched, f.Right) ∧
    ∀ e t, next spreadConfig s e = some t → ((∀ f ∈ t.fetched, f.Right) ↔ s.InOrder e) := by
  have hrun : (Machine.replay (Machine.guardedNext InOrder (next spreadConfig))
      (start spreadConfig 0) [.arrive (chainRequest 1) 3, .ask 1 twoHolders, .ask 1 twoHolders,
        .pull 1 twoHolders, .arrive (chainRequest 2) 0, .ask 2 twoHolders,
        .pull 2 twoHolders]).any (fun s : Serving ℕ ℕ ℕ => decide
      (s.fetched = [⟨1, some 1, some 1, some 1⟩, ⟨2, some 2, some 2, some 2⟩])) = true := by
    decide +kernel
  obtain ⟨s, hs, hfetched⟩ := (Option.any_eq_true _ _).mp hrun
  have hreach : ((machine spreadConfig).guarded InOrder).Reachable s :=
    Machine.Reachable.of_guarded_replay (fun _ _ _ hst => hst) _ (.init ⟨0, rfl⟩) hs
  exact ⟨s, of_decide_eq_true hfetched, pulls_carried hreach⟩

/-- **A fetch that overtakes another.**  Request 1 was booked first and is still on
its way to instance 0 when request 2, booked for the same chain from another peer,
fetches there: it is told request 1's peer and spends request 1's memo. -/
theorem pull_overtaken : ∃ s : Serving ℕ ℕ ℕ, ∃ f ∈ s.fetched,
    (machine spreadConfig).Reachable s ∧ f.asker = 2 ∧ f.priced = some 2 ∧
      f.head = some 1 ∧ f.spent = some 1 := by
  have hrun : (run spreadConfig 0 [.arrive (chainRequest 1) 3, .ask 1 twoHolders,
      .arrive (chainRequest 2) 0, .ask 2 twoHolders, .pull 2 twoHolders]).any
      (fun s : Serving ℕ ℕ ℕ => decide (s.fetched = [⟨2, some 2, some 1, some 1⟩])) = true := by
    decide +kernel
  obtain ⟨s, hs, hfetched⟩ := (Option.any_eq_true _ _).mp hrun
  refine ⟨s, ⟨2, some 2, some 1, some 1⟩, ?_, reachable_of_run hs, rfl, rfl, rfl, rfl⟩
  rw [of_decide_eq_true hfetched]
  exact List.mem_singleton_self _

end Serving

end Toso.KvCache
