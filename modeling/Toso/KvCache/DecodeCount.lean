/-
  Toso.KvCache.DecodeCount — the batch a decision predicts, member by member.

  A predicted batch adds two counts: the observed members estimated to be
  decoding still, and the reservations that will have joined by then.  A
  reservation carries no request and is read until the clock passes its
  predicted completion; a batch report names the request as soon as it really
  joined.  The two overlap exactly when a report is folded too early.

  Main results:
    * `predictedBatch_eq` — the predicted batch is the number of contributors.
    * `once_iff` — a step leaves every request counted once exactly when no
      report it folds is early.
    * `counted_once` — the same in every run that folds no report early.
    * `counted_twice` — a request that prefilled sooner than predicted.
-/
import Toso.KvCache.PricedOnce
import Mathlib.Tactic.Linarith

namespace Toso.KvCache

open Lib Proposed SimCommon Domain

variable {ν ι κ : Type*}

/-- The reservation an action records. -/
def Action.reservation : Action ι κ → Option (Reservation ι)
  | .committed response outputTokens => some (response.reservation outputTokens)
  | _ => none

namespace Reservation

/-- How long a reservation is predicted to decode. -/
def span (r : Reservation ι) (b : DecodeBatch ι) : ℚ :=
  (max 0 (r.outputTokens - 1) : ℤ) * decodeStepTime 1 b.profile b.model

/-- A reservation that nothing counts beside a member finishing at `finish`: no read
offers it any more, or it never decodes while the member does. -/
def Over (r : Reservation ι) (b : DecodeBatch ι) (now finish : ℚ) : Prop :=
  r.prefillDone < now ∨ finish ≤ r.prefillDone ∨ r.span b ≤ 0

instance (r : Reservation ι) (b : DecodeBatch ι) (now finish : ℚ) :
    Decidable (r.Over b now finish) :=
  inferInstanceAs (Decidable (_ ∨ _ ∨ _))

/-- What is over stays over. -/
theorem Over.mono {r : Reservation ι} {b : DecodeBatch ι} {now later finish : ℚ}
    (h : r.Over b now finish) (hle : now ≤ later) : r.Over b later finish := by
  rcases h with hdone | hrest
  · exact .inl (lt_of_lt_of_le hdone hle)
  · exact .inr hrest

end Reservation

namespace Serving

section

variable [LinearOrder ι] [DecidableEq κ] [DecidableEq ν]

/-! ## §1. Who contributes. -/

/-- Every reservation ever booked, by request. -/
def promised (s : Serving ν ι κ) : List (ν × Reservation ι) :=
  s.dispatched.filterMap fun a => a.2.reservation.map fun r => (a.1, r)

/-- Was the request accepted, to decode on `d`? -/
def DecodesOn (s : Serving ν ι κ) (id : ν) (d : ι) : Prop :=
  ∃ r, (id, r) ∈ s.promised ∧ r.decodeId = d

/-- Who a batch predicted for `d` at `doneTime` counts, once for each time it does. -/
def contributors (cfg : Settings ι) (s : Serving ν ι κ) (d : ι) (doneTime : ℚ) : List ν :=
  ((s.observed d).filter fun m => doneTime < m.2).map Prod.fst ++
    (s.reservations.filter fun x =>
      s.clock ≤ x.2.prefillDone ∧ x.2.Joins cfg.decodeBatch d doneTime).map Prod.fst

/-- A batch report is folded on time when the reservation of every member is over. -/
def OnTime (cfg : Settings ι) (s : Serving ν ι κ) : Event ν ι κ → Prop
  | .deliver i => ∀ report ∈ s.reports[i]?, ∀ m ∈ report.2, ∀ x ∈ s.promised,
      x.1 = m.1 → x.2.Over cfg.decodeBatch s.clock m.2
  | _ => True

instance (cfg : Settings ι) (s : Serving ν ι κ) : (e : Event ν ι κ) → Decidable (s.OnTime cfg e)
  | .deliver i => inferInstanceAs (Decidable (∀ report ∈ s.reports[i]?, ∀ m ∈ report.2,
      ∀ x ∈ s.promised, x.1 = m.1 → x.2.Over cfg.decodeBatch s.clock m.2))
  | .arrive _ _ | .ask _ _ | .pull _ _ | .finish _ _ | .handoff _ _ | .join _ | .leave _
  | .report _ _ | .busy _ _ | .tick _ => .isTrue trivial

omit [LinearOrder ι] [DecidableEq κ] [DecidableEq ν] in
/-- What a step books is added behind. -/
theorem promised_append {s t : Serving ν ι κ} {new : List (ν × Action ι κ)}
    (hd : t.dispatched = s.dispatched ++ new) :
    t.promised = s.promised ++ new.filterMap fun a => a.2.reservation.map fun r => (a.1, r) := by
  unfold promised
  rw [hd, List.filterMap_append]

omit [LinearOrder ι] [DecidableEq κ] in
/-- Each request is promised once at most. -/
theorem PricedOnce.promised_nodup {s : Serving ν ι κ} (h : PricedOnce s) :
    (s.promised.map Prod.fst).Nodup := by
  refine h.dispatched_nodup.sublist ?_
  unfold promised
  induction s.dispatched with
  | nil => exact List.Sublist.slnil
  | cons a rest ih =>
      cases hr : a.2.reservation with
      | none =>
          rw [List.filterMap_cons_none (by rw [hr]; rfl)]
          exact ih.cons _
      | some r =>
          rw [List.filterMap_cons_some (by rw [hr]; rfl), List.map_cons, List.map_cons]
          exact ih.cons_cons _

omit [LinearOrder ι] [DecidableEq κ] in
/-- A request's one booking is promised. -/
theorem mem_promised {s : Serving ν ι κ} {id : ν} {response : Response ι κ}
    {outputTokens : ℤ} (h : s.actionsOf id = [.committed response outputTokens]) :
    (id, response.reservation outputTokens) ∈ s.promised := by
  have hmem : Action.committed response outputTokens ∈ s.actionsOf id := by
    rw [h]
    exact List.mem_singleton_self _
  obtain ⟨a, ha, hact⟩ := List.mem_map.mp hmem
  obtain ⟨ha, hid⟩ := List.mem_filter.mp ha
  refine List.mem_filterMap.mpr ⟨a, ha, ?_⟩
  rw [hact]
  simpa [Action.reservation] using hid

/-! ## §2. Batches, reports and reservations, whatever the order. -/

/-- A member of a batch decodes on the batch's host. -/
def Decoding (s : Serving ν ι κ) (id : ν) (d : ι) : Prop :=
  ∃ leg response, s.legs.get? id = some leg ∧ leg.stage = .served response .decoding ∧
    response.decode = d

/-- **What every run keeps** of the two sources of the count. -/
structure Tallied (cfg : Settings ι) (s : Serving ν ι κ) : Prop where
  batch : ∀ d, ∀ id ∈ s.batches d, s.Decoding id d
  batch_nodup : ∀ d, (s.batches d).Nodup
  reports : ∀ r ∈ s.reports, (r.2.map Prod.fst).Nodup ∧ ∀ m ∈ r.2, s.DecodesOn m.1 r.1
  observed : ∀ d, ((s.observed d).map Prod.fst).Nodup ∧
    ∀ m ∈ s.observed d, s.DecodesOn m.1 d
  reserved : s.reservations.Sublist s.promised
  /-- Nothing that a read would still offer has been dropped. -/
  kept : ∀ x ∈ s.promised, s.clock ≤ x.2.prefillDone → x ∈ s.reservations
  sensed : cfg.lookahead = true → s.plane.reserved.isSome = true

omit [LinearOrder ι] [DecidableEq κ] [DecidableEq ν] in
/-- What was promised stays promised. -/
theorem DecodesOn.mono {s t : Serving ν ι κ} {id : ν} {d : ι}
    (hp : ∀ x ∈ s.promised, x ∈ t.promised) (h : s.DecodesOn id d) : t.DecodesOn id d := by
  obtain ⟨r, hr, hd⟩ := h
  exact ⟨r, hp _ hr, hd⟩

omit [LinearOrder ι] [DecidableEq κ] in
/-- A leg replaced that was not decoding. -/
theorem Decoding.set {s t : Serving ν ι κ} {id : ν} {leg' : Leg ν ι κ}
    (hlegs : t.legs = s.legs.set id leg') (hold : ∀ d, ¬ s.Decoding id d) {x : ν} {d : ι}
    (h : s.Decoding x d) : t.Decoding x d := by
  have hne : id ≠ x := by
    intro heq
    subst heq
    exact hold d h
  obtain ⟨leg, response, hl, hs, hd⟩ := h
  refine ⟨leg, response, ?_, hs, hd⟩
  rw [hlegs, Dict.get?_set_ne _ _ hne]
  exact hl

omit [LinearOrder ι] [DecidableEq κ] in
/-- A leg that is not in its decode phase decodes nowhere. -/
theorem not_decoding {s : Serving ν ι κ} {id : ν} {leg : Leg ν ι κ}
    (hl : s.legs.get? id = some leg) (hs : ∀ response, leg.stage ≠ .served response .decoding)
    (d : ι) : ¬ s.Decoding id d := by
  intro h
  obtain ⟨leg', response, hl', hs', _⟩ := h
  rw [hl, Option.some.injEq] at hl'
  subst hl'
  exact hs response hs'

section Frame

variable {cfg : Settings ι} {s t : Serving ν ι κ}

omit [LinearOrder ι] [DecidableEq κ] in
/-- Steps that move nothing the count reads. -/
theorem Tallied.frame (h : Tallied cfg s)
    (hbatch : ∀ d id, s.Decoding id d → t.Decoding id d) (hb : t.batches = s.batches)
    (hr : t.reports = s.reports) (ho : t.observed = s.observed)
    (hd : t.dispatched = s.dispatched) (hres : t.reservations = s.reservations)
    (hclock : s.clock ≤ t.clock)
    (hsense : t.plane.reserved.isSome = s.plane.reserved.isSome) : Tallied cfg t := by
  have hp : t.promised = s.promised := by
    unfold promised
    rw [hd]
  have hon : ∀ id d, s.DecodesOn id d → t.DecodesOn id d := by
    intro id d hd
    exact hd.mono fun x hx => hp ▸ hx
  constructor
  case batch =>
    intro d id hid
    rw [hb] at hid
    exact hbatch d id (h.batch d id hid)
  case batch_nodup =>
    intro d
    rw [hb]
    exact h.batch_nodup d
  case reports =>
    intro r hr'
    rw [hr] at hr'
    exact ⟨(h.reports r hr').1, fun m hm => hon _ _ ((h.reports r hr').2 m hm)⟩
  case observed =>
    intro d
    rw [ho]
    exact ⟨(h.observed d).1, fun m hm => hon _ _ ((h.observed d).2 m hm)⟩
  case reserved =>
    rw [hres, hp]
    exact h.reserved
  case kept =>
    intro x hx hle
    rw [hres]
    exact h.kept x (hp ▸ hx) (hclock.trans hle)
  case sensed =>
    intro hla
    rw [hsense]
    exact h.sensed hla

omit [LinearOrder ι] [DecidableEq κ] in
/-- A leg that was not decoding, replaced, and nothing else the count reads. -/
theorem Tallied.setLeg (h : Tallied cfg s) {id : ν} (leg' : Leg ν ι κ)
    (hlegs : t.legs = s.legs.set id leg') (hold : ∀ d, ¬ s.Decoding id d)
    (hb : t.batches = s.batches) (hr : t.reports = s.reports) (ho : t.observed = s.observed)
    (hd : t.dispatched = s.dispatched) (hres : t.reservations = s.reservations)
    (hclock : t.clock = s.clock)
    (hsense : t.plane.reserved.isSome = s.plane.reserved.isSome) : Tallied cfg t :=
  h.frame (fun _ _ hdec => hdec.set hlegs hold) hb hr ho hd hres (le_of_eq hclock.symm) hsense

end Frame

/-- **A booking**: one more reservation, of a request nobody has seen. -/
theorem Tallied.booked {cfg : Settings ι} {s : Serving ν ι κ} (h : Tallied cfg s)
    {leg : Leg ν ι κ} (hold : ∀ d, ¬ s.Decoding leg.request.id d) (response : Response ι κ) :
    Tallied cfg (s.booked leg response) := by
  have hp : (s.booked leg response).promised = s.promised ++
      [(leg.request.id, response.reservation leg.request.outputTokens)] := by
    have happ := promised_append (s := s) (t := s.booked leg response) rfl
    rw [happ]
    rfl
  have hon : ∀ id d, s.DecodesOn id d → (s.booked leg response).DecodesOn id d := by
    intro id d hd
    refine hd.mono fun x hx => ?_
    rw [hp]
    exact List.mem_append_left _ hx
  constructor
  case batch =>
    intro d id hid
    exact (h.batch d id hid).set rfl hold
  case batch_nodup => exact h.batch_nodup
  case reports =>
    intro r hr
    exact ⟨(h.reports r hr).1, fun m hm => hon _ _ ((h.reports r hr).2 m hm)⟩
  case observed =>
    intro d
    exact ⟨(h.observed d).1, fun m hm => hon _ _ ((h.observed d).2 m hm)⟩
  case reserved =>
    rw [hp]
    exact h.reserved.append (List.Sublist.refl _)
  case kept =>
    intro x hx hle
    rw [hp] at hx
    rcases List.mem_append.mp hx with hold' | hnew
    · exact List.mem_append_left _ (h.kept x hold' hle)
    · exact List.mem_append_right _ hnew
  case sensed =>
    intro hla
    show (Scheduler.book _ _ _ _).plane.reserved.isSome = true
    rw [Scheduler.book_reserved, Option.isSome_map]
    exact h.sensed hla

theorem Tallied.fetch {cfg : Settings ι} {s : Serving ν ι κ} (h : Tallied cfg s)
    {leg : Leg ν ι κ} (hold : ∀ d, ¬ s.Decoding leg.request.id d) (response : Response ι κ)
    (host : ι) (keys : List κ) (priced : Option ι) (located : κ → List ι) (after : Phase) :
    Tallied cfg (s.fetch cfg leg response host keys priced located after) := by
  obtain ⟨_, _, heq⟩ := fetch_eq cfg s leg response host keys priced located after
  rw [heq]
  exact h.setLeg { leg with stage := .served response after } rfl hold rfl rfl rfl rfl
    rfl rfl (Option.isSome_map ..)

/-- **A prefill seen to finish**: only what no later read offers is dropped. -/
theorem Tallied.finished {cfg : Settings ι} {s : Serving ν ι κ} (h : Tallied cfg s)
    {leg : Leg ν ι κ} (hold : ∀ d, ¬ s.Decoding leg.request.id d) (response : Response ι κ)
    {seen : ℚ} (hseen : seen ≤ s.clock) : Tallied cfg (s.finished cfg leg response seen) := by
  constructor
  case batch =>
    intro d id hid
    exact (h.batch d id hid).set rfl hold
  case batch_nodup => exact h.batch_nodup
  case reports => exact h.reports
  case observed => exact h.observed
  case reserved => exact List.filter_sublist.trans h.reserved
  case kept =>
    intro x hx hle
    refine List.mem_filter.mpr ⟨h.kept x hx hle, ?_⟩
    simpa using hseen.trans hle
  case sensed =>
    intro hla
    show (s.plane.reserved.map _).isSome = true
    rw [Option.isSome_map]
    exact h.sensed hla

omit [LinearOrder ι] [DecidableEq κ] in
/-- Dropping a leg's decode phase says nothing of the others. -/
theorem Decoding.set_ne {s t : Serving ν ι κ} {id : ν} {leg' : Leg ν ι κ}
    (hlegs : t.legs = s.legs.set id leg') {x : ν} {d : ι} (h : s.Decoding x d) (hne : x ≠ id) :
    t.Decoding x d := by
  obtain ⟨leg, response, hl, hs, hd⟩ := h
  refine ⟨leg, response, ?_, hs, hd⟩
  rw [hlegs, Dict.get?_set_ne _ _ hne.symm]
  exact hl

omit [DecidableEq κ] in
/-- **A request joins**: it was in no batch. -/
theorem Tallied.join {cfg : Settings ι} {s : Serving ν ι κ} (h : Tallied cfg s)
    {leg : Leg ν ι κ} (hold : ∀ d, ¬ s.Decoding leg.request.id d) (response : Response ι κ) :
    Tallied cfg (s.join leg response) := by
  rcases join_cases s leg response with ⟨_, heq⟩ | ⟨_, heq⟩
  · rw [heq]
    exact h.setLeg { leg with stage := .served response .done } rfl hold rfl rfl rfl
      rfl rfl rfl rfl
  · rw [heq]
    set t : Serving ν ι κ :=
      { s.setLeg leg.request.id { leg with stage := .served response .decoding } with
        batches := Function.update s.batches response.decode
          (s.batches response.decode ++ [leg.request.id]) } with ht
    have hlegs : t.legs = s.legs.set leg.request.id
        { leg with stage := .served response .decoding } := rfl
    -- the one new member of a batch decodes there by its leg
    have hself : t.Decoding leg.request.id response.decode := by
      refine ⟨{ leg with stage := .served response .decoding }, response, ?_, rfl, rfl⟩
      rw [hlegs, Dict.get?_set_self]
    have hmem : ∀ d id, id ∈ t.batches d →
        id ∈ s.batches d ∨ (d = response.decode ∧ id = leg.request.id) := by
      intro d id hid
      change id ∈ Function.update s.batches response.decode _ d at hid
      by_cases hd : d = response.decode
      · subst hd
        rw [Function.update_self] at hid
        rcases List.mem_append.mp hid with hin | hin
        · exact .inl hin
        · exact .inr ⟨rfl, List.mem_singleton.mp hin⟩
      · rw [Function.update_of_ne hd] at hid
        exact .inl hid
    constructor
    case batch =>
      intro d id hid
      rcases hmem d id hid with hin | ⟨rfl, rfl⟩
      · exact (h.batch d id hin).set hlegs hold
      · exact hself
    case batch_nodup =>
      intro d
      show (Function.update s.batches response.decode _ d).Nodup
      by_cases hd : d = response.decode
      · subst hd
        rw [Function.update_self, List.nodup_append]
        refine ⟨h.batch_nodup _, List.nodup_singleton _, ?_⟩
        intro a ha b hb hab
        rw [List.mem_singleton] at hb
        subst hb
        subst hab
        exact hold _ (h.batch _ _ ha)
      · rw [Function.update_of_ne hd]
        exact h.batch_nodup d
    case reports => exact h.reports
    case observed => exact h.observed
    case reserved => exact h.reserved
    case kept => exact h.kept
    case sensed => exact h.sensed

omit [DecidableEq κ] in
/-- **A request leaves** the one batch it is in. -/
theorem Tallied.leave {cfg : Settings ι} {s : Serving ν ι κ} (h : Tallied cfg s)
    {leg : Leg ν ι κ} {response : Response ι κ} (hl : s.legs.get? leg.request.id = some leg)
    (hs : leg.stage = .served response .decoding) : Tallied cfg (s.leave leg response) := by
  have hhost : ∀ d, s.Decoding leg.request.id d → d = response.decode := by
    intro d hdec
    obtain ⟨leg', response', hl', hs', rfl⟩ := hdec
    rw [hl, Option.some.injEq] at hl'
    subst hl'
    rw [hs] at hs'
    cases hs'
    rfl
  constructor
  case batch =>
    intro d id hid
    change id ∈ Function.update s.batches response.decode _ d at hid
    by_cases hd : d = response.decode
    · subst hd
      rw [Function.update_self, (h.batch_nodup _).mem_erase_iff] at hid
      exact (h.batch _ id hid.2).set_ne rfl hid.1
    · rw [Function.update_of_ne hd] at hid
      have hdec := h.batch d id hid
      refine hdec.set_ne rfl ?_
      intro heq
      subst heq
      exact hd (hhost d hdec)
  case batch_nodup =>
    intro d
    show (Function.update s.batches response.decode _ d).Nodup
    by_cases hd : d = response.decode
    · subst hd
      rw [Function.update_self]
      exact (h.batch_nodup _).erase _
    · rw [Function.update_of_ne hd]
      exact h.batch_nodup d
  case reports => exact h.reports
  case observed => exact h.observed
  case reserved => exact h.reserved
  case kept => exact h.kept
  case sensed => exact h.sensed

omit [LinearOrder ι] [DecidableEq κ] in
/-- **A host reports its batch**: members decode there, each once. -/
theorem Tallied.report {cfg : Settings ι} {s : Serving ν ι κ} (h : Tallied cfg s)
    (honce : PricedOnce s) (host : ι) (estimate : ν → ℚ) :
    Tallied cfg { s with
      reports := s.reports ++ [(host, (s.batches host).map fun id => (id, estimate id))] } := by
  refine ⟨h.batch, h.batch_nodup, ?_, h.observed, h.reserved, h.kept, h.sensed⟩
  intro r hr
  rcases List.mem_append.mp hr with hold | hnew
  · exact h.reports r hold
  · rw [List.mem_singleton] at hnew
    subst hnew
    constructor
    · rw [List.map_map]
      show ((s.batches host).map id).Nodup
      rw [List.map_id]
      exact h.batch_nodup host
    · intro m hm
      obtain ⟨id, hid, rfl⟩ := List.mem_map.mp hm
      obtain ⟨leg, response, hl, hs, hd⟩ := h.batch host id hid
      have hstand := honce.standing id leg hl
      unfold Standing at hstand
      rw [hs] at hstand
      exact ⟨_, mem_promised hstand.2.2.1, hd⟩

/-- **A report folded** replaces what was observed of its host. -/
theorem Tallied.deliver {cfg : Settings ι} {s : Serving ν ι κ} (h : Tallied cfg s) {i : ℕ}
    {host : ι} {members : List (ν × ℚ)} (hi : s.reports[i]? = some (host, members)) :
    Tallied cfg (s.deliver i host members) := by
  constructor
  case batch => exact h.batch
  case batch_nodup => exact h.batch_nodup
  case reports =>
    intro r hr
    exact h.reports r (List.mem_of_mem_eraseIdx hr)
  case observed =>
    intro d
    show ((Function.update s.observed host members d).map Prod.fst).Nodup ∧
      ∀ m ∈ Function.update s.observed host members d, s.DecodesOn m.1 d
    by_cases hd : d = host
    · subst hd
      rw [Function.update_self]
      exact h.reports _ (List.mem_of_getElem? hi)
    · rw [Function.update_of_ne hd]
      exact h.observed d
  case reserved => exact h.reserved
  case kept => exact h.kept
  case sensed =>
    intro hla
    show (s.plane.reserved.map _).isSome = true
    rw [Option.isSome_map]
    exact h.sensed hla

theorem Tallied.step {cfg : Settings ι} {s t : Serving ν ι κ} {e : Event ν ι κ}
    (h : Tallied cfg s) (honce : PricedOnce s) (hst : next cfg s e = some t) :
    Tallied cfg t := by
  -- before it joins a request is in no batch, so a leg that moves then disturbs none
  cases moves_of_next hst with
  | @arrive request host hfresh =>
      refine h.setLeg ⟨request, host, 0, .asking⟩ rfl ?_ rfl rfl
        rfl rfl rfl rfl rfl
      intro d hdec
      obtain ⟨leg, _, hl, _⟩ := hdec
      rw [hl] at hfresh
      cases hfresh
  | @ask id located leg hl hs =>
      obtain rfl := honce.id_eq id leg hl
      have hold := not_decoding hl (fun r => by rw [hs]; simp)
      rcases ask_cases cfg s leg located with
        ⟨placed, _, heq⟩ | ⟨_, heq | heq | ⟨response, heq⟩⟩
      · rw [heq]
        exact h.setLeg (answered leg (some placed)) rfl hold rfl rfl rfl rfl rfl rfl rfl
      · rw [heq]
        exact h.setLeg { leg with stage := .raised } rfl hold rfl rfl rfl rfl rfl rfl
          rfl
      · rw [heq]
        exact h.setLeg { leg with stage := .refused } rfl hold rfl rfl rfl rfl rfl rfl
          rfl
      · rw [heq]
        exact h.booked hold response
  | @pass _ id leg response before after hl hs hb =>
      obtain rfl := honce.id_eq id leg hl
      have hold := not_decoding hl (fun r => by rw [hs]; simp [hb])
      exact h.setLeg { leg with stage := .served response after } rfl hold
        rfl rfl rfl rfl rfl rfl rfl
  | @fetch _ id leg response before after _ _ _ _ hl hs hb =>
      obtain rfl := honce.id_eq id leg hl
      exact h.fetch (not_decoding hl (fun r => by rw [hs]; simp [hb])) response _ _ _ _ _
  | @finish id _ leg response hl hs hseen =>
      obtain rfl := honce.id_eq id leg hl
      exact h.finished (not_decoding hl (fun r => by rw [hs]; simp)) response hseen
  | @join id leg response hl hs =>
      obtain rfl := honce.id_eq id leg hl
      exact h.join (not_decoding hl (fun r => by rw [hs]; simp)) response
  | @leave id leg response hl hs =>
      obtain rfl := honce.id_eq id leg hl
      exact h.leave hl hs
  | report => exact h.report honce _ _
  | deliver hi => exact h.deliver hi
  | busy =>
      exact h.frame (fun _ _ hdec => hdec) rfl rfl rfl rfl rfl le_rfl (Option.isSome_map ..)
  | tick hnow => exact h.frame (fun _ _ hdec => hdec) rfl rfl rfl rfl rfl hnow rfl

theorem tallied_of_run {cfg : Settings ι} {s : Serving ν ι κ}
    (h : (machine cfg).Reachable s) : Tallied cfg s := by
  have hboth : Tallied cfg s ∧ PricedOnce s := by
    refine h.invariant (P := fun s => Tallied cfg s ∧ PricedOnce s) ?_ ?_
    · intro s hs
      obtain ⟨now, rfl⟩ := hs
      refine ⟨?_, pricedOnce_of_run (.init ⟨now, rfl⟩)⟩
      constructor
      case batch =>
        intro d id hid
        cases hid
      case batch_nodup =>
        intro d
        exact List.nodup_nil
      case reports =>
        intro r hr
        cases hr
      case observed =>
        intro d
        exact ⟨List.nodup_nil, fun m hm => by cases hm⟩
      case reserved => exact List.Sublist.refl _
      case kept =>
        intro x hx
        cases hx
      case sensed =>
        intro hla
        show (if cfg.lookahead then some _ else none).isSome = true
        rw [if_pos hla]
        rfl
    · intro s e t hs hst
      exact ⟨hs.1.step hs.2 hst, hs.2.step hst⟩
  exact hboth.1

/-! ## §3. Counted once. -/

/-- Every member observed has a reservation that is over. -/
def Timely (cfg : Settings ι) (s : Serving ν ι κ) : Prop :=
  ∀ d, ∀ m ∈ s.observed d, ∀ x ∈ s.promised, x.1 = m.1 → x.2.Over cfg.decodeBatch s.clock m.2

omit [LinearOrder ι] [DecidableEq κ] in
/-- A request is promised one reservation. -/
theorem PricedOnce.promised_eq {s : Serving ν ι κ} (h : PricedOnce s)
    {x y : ν × Reservation ι} (hx : x ∈ s.promised) (hy : y ∈ s.promised) (heq : x.1 = y.1) :
    x = y :=
  List.inj_on_of_nodup_map h.promised_nodup hx hy heq

omit [DecidableEq κ] in
/-- **Counted once, and over**: at every host and for every completion a decision may
ask about, nobody contributes twice exactly when every observed member's reservation
is over. -/
theorem Tallied.timely_iff {cfg : Settings ι} {s : Serving ν ι κ} (h : Tallied cfg s)
    (honce : PricedOnce s) :
    s.Timely cfg ↔ ∀ d doneTime, (s.contributors cfg d doneTime).Nodup := by
  constructor
  · intro htimely d doneTime
    unfold contributors
    rw [List.nodup_append]
    refine ⟨(h.observed d).1.sublist (List.filter_sublist.map _), ?_, ?_⟩
    · exact (honce.promised_nodup.sublist (h.reserved.map _)).sublist
        (List.filter_sublist.map _)
    · -- a member and a reservation of one request
      intro a ha b hb hab
      obtain ⟨m, hm, rfl⟩ := List.mem_map.mp ha
      obtain ⟨x, hx, rfl⟩ := List.mem_map.mp hb
      obtain ⟨hm, hlate⟩ := List.mem_filter.mp hm
      obtain ⟨hx, hjoin⟩ := List.mem_filter.mp hx
      have hover := htimely d m hm x (h.reserved.subset hx) hab.symm
      have hlate' : doneTime < m.2 := by simpa using hlate
      have hjoin' : s.clock ≤ x.2.prefillDone ∧ x.2.Joins cfg.decodeBatch d doneTime := by
        simpa using hjoin
      obtain ⟨hpending, _, hafter, hbefore⟩ := hjoin'
      change doneTime < x.2.prefillDone + x.2.span cfg.decodeBatch at hbefore
      rcases hover with hdone | hfinish | hspan
      · exact absurd hpending (not_le.mpr hdone)
      · exact absurd (hfinish.trans hafter) (not_le.mpr hlate')
      · linarith
  · intro hnodup d m hm x hx hxm
    by_contra hover
    unfold Reservation.Over at hover
    simp only [not_or, not_lt, not_le] at hover
    obtain ⟨hpending, hfinish, hspan⟩ := hover
    obtain ⟨r, hr, hd⟩ := (h.observed d).2 m hm
    have hxr : x = (m.1, r) := honce.promised_eq hx hr hxm
    -- at its own predicted completion it is a member and a reservation both
    have htwice := hnodup d x.2.prefillDone
    unfold contributors at htwice
    rw [List.nodup_append] at htwice
    refine htwice.2.2 m.1 ?_ x.1 ?_ hxm.symm
    · exact List.mem_map.mpr ⟨m, List.mem_filter.mpr ⟨hm, by simpa using hfinish⟩, rfl⟩
    · refine List.mem_map.mpr ⟨x, List.mem_filter.mpr ⟨h.kept x hx hpending, ?_⟩, rfl⟩
      have hjoins : x.2.Joins cfg.decodeBatch d x.2.prefillDone := by
        refine ⟨by rw [hxr]; exact hd, le_rfl, ?_⟩
        show _ < x.2.prefillDone + x.2.span cfg.decodeBatch
        linarith
      simpa using ⟨hpending, hjoins⟩

/-- What every step but a folded report leaves of the observed batches, of the clock
and of what was promised. -/
def Quiet (s t : Serving ν ι κ) : Prop :=
  t.observed = s.observed ∧ s.clock ≤ t.clock ∧ ∀ x ∈ s.promised, x ∈ t.promised

omit [LinearOrder ι] [DecidableEq κ] [DecidableEq ν] in
/-- A step that touches none of the three. -/
theorem Quiet.frame {s t : Serving ν ι κ} (hobserved : t.observed = s.observed)
    (hclock : t.clock = s.clock) (hpromised : t.promised = s.promised) : s.Quiet t := by
  refine ⟨hobserved, hclock.ge, ?_⟩
  rw [hpromised]
  exact fun _ hx => hx

theorem fetch_quiet (cfg : Settings ι) (s : Serving ν ι κ) (leg : Leg ν ι κ)
    (response : Response ι κ) (host : ι) (keys : List κ) (priced : Option ι)
    (located : κ → List ι) (after : Phase) :
    s.Quiet (s.fetch cfg leg response host keys priced located after) := by
  obtain ⟨_, _, heq⟩ := fetch_eq cfg s leg response host keys priced located after
  rw [heq]
  exact .frame rfl rfl rfl

theorem next_quiet {cfg : Settings ι} {s t : Serving ν ι κ} {e : Event ν ι κ}
    (hst : next cfg s e = some t) (he : ∀ i, e ≠ .deliver i) : s.Quiet t := by
  cases moves_of_next hst with
  | arrive => exact .frame rfl rfl rfl
  | @ask _ located leg _ _ =>
      rcases ask_cases cfg s leg located with
        ⟨_, _, heq⟩ | ⟨_, heq | heq | ⟨response, heq⟩⟩
      · rw [heq]
        exact .frame rfl rfl rfl
      · rw [heq]
        exact .frame rfl rfl rfl
      · rw [heq]
        exact .frame rfl rfl rfl
      · rw [heq]
        -- a booking is promised behind what was
        refine ⟨rfl, le_rfl, fun x hx => ?_⟩
        have happ := promised_append (s := s) (t := s.booked leg response) rfl
        rw [happ]
        exact List.mem_append_left _ hx
  | pass => exact .frame rfl rfl rfl
  | fetch => exact fetch_quiet ..
  | finish => exact .frame rfl rfl rfl
  | join =>
      rcases join_cases s _ _ with ⟨_, heq⟩ | ⟨_, heq⟩
      · rw [heq]
        exact .frame rfl rfl rfl
      · rw [heq]
        exact .frame rfl rfl rfl
  | leave => exact .frame rfl rfl rfl
  | report => exact .frame rfl rfl rfl
  | @deliver i => exact absurd rfl (he i)
  | busy => exact .frame rfl rfl rfl
  | tick hnow => exact ⟨rfl, hnow, fun _ hx => hx⟩

/-- **One step**: the members stay timely exactly when no report it folds is early. -/
theorem Timely.step_iff {cfg : Settings ι} {s t : Serving ν ι κ} {e : Event ν ι κ}
    (h : s.Timely cfg) (htally : Tallied cfg s) (hnext : PricedOnce t)
    (hst : next cfg s e = some t) : t.Timely cfg ↔ s.OnTime cfg e := by
  by_cases he : ∃ i, e = .deliver i
  · obtain ⟨i, rfl⟩ := he
    obtain ⟨⟨host, members⟩, hi, rfl⟩ := Option.map_eq_some_iff.mp hst
    constructor
    · intro ht report hreport m hm x hx hxm
      rw [hi, Option.mem_some_iff] at hreport
      subst hreport
      refine ht host m ?_ x hx hxm
      show m ∈ Function.update s.observed host members host
      rw [Function.update_self]
      exact hm
    · intro hok d m hm x hx hxm
      change m ∈ Function.update s.observed host members d at hm
      by_cases hd : d = host
      · subst hd
        rw [Function.update_self] at hm
        exact hok (d, members) hi m hm x hx hxm
      · rw [Function.update_of_ne hd] at hm
        exact h d m hm x hx hxm
  · have hdeliver : ∀ i, e ≠ .deliver i := fun i hi => he ⟨i, hi⟩
    obtain ⟨hobs, hclock, hprom⟩ := next_quiet hst hdeliver
    have hok : s.OnTime cfg e := by
      cases e with
      | deliver i => exact absurd rfl (hdeliver i)
      | _ => trivial
    refine ⟨fun _ => hok, fun _ => ?_⟩
    intro d m hm x hx hxm
    rw [hobs] at hm
    -- its reservation is the one it had already
    obtain ⟨r, hr, _⟩ := (htally.observed d).2 m hm
    have hxr : x = (m.1, r) := hnext.promised_eq hx (hprom _ hr) hxm
    subst hxr
    exact (h d m hm _ hr rfl).mono hclock

omit [DecidableEq κ] in
/-- **The predicted batch is the number of contributors**, in a run that predicts. -/
theorem predictedBatch_eq {cfg : Settings ι} {s : Serving ν ι κ} (hla : cfg.lookahead = true)
    (h : Tallied cfg s) (hlabel : Labelled s) (d : ι) (doneTime : ℚ) :
    predictedBatch cfg.decodeBatch s.plane.cluster s.plane.reserved s.clock d doneTime =
      (s.contributors cfg d doneTime).length := by
  obtain ⟨r, hr⟩ := Option.isSome_iff_exists.mp (h.sensed hla)
  have hdec : cfg.simulateDecode = true := by
    unfold Settings.lookahead at hla
    exact (Bool.and_eq_true_iff.mp hla).1
  have hres := hlabel.reservations r hr
  unfold predictedBatch contributors
  have hla' : cfg.decodeBatch.lookahead = true := hla
  have hdec' : cfg.decodeBatch.tbtEnabled = true := hdec
  rw [if_pos hdec', if_pos hla', hr, List.length_append]
  congr 1
  · unfold ClusterSensor.predictOccupancy
    rw [← hlabel.observed d, List.countP_map, List.length_map, List.countP_eq_length_filter]
    rfl
  · show (r.held.filter _).countP _ = _
    rw [List.countP_filter, ← hres, List.countP_map, List.length_map,
      List.countP_eq_length_filter]
    congr 1
    refine List.filter_congr fun x _ => ?_
    simp [Bool.and_comm]

omit [DecidableEq κ] in
/-- Whoever contributes was accepted, to decode on the host asked about. -/
theorem Tallied.contributes {cfg : Settings ι} {s : Serving ν ι κ} (h : Tallied cfg s) {d : ι}
    {doneTime : ℚ} {id : ν} (hid : id ∈ s.contributors cfg d doneTime) : s.DecodesOn id d := by
  rcases List.mem_append.mp hid with hmember | hreserved
  · obtain ⟨m, hm, rfl⟩ := List.mem_map.mp hmember
    exact (h.observed d).2 m (List.mem_of_mem_filter hm)
  · obtain ⟨x, hx, rfl⟩ := List.mem_map.mp hreserved
    obtain ⟨hx, hjoin⟩ := List.mem_filter.mp hx
    have hjoin' : s.clock ≤ x.2.prefillDone ∧ x.2.Joins cfg.decodeBatch d doneTime := by
      simpa using hjoin
    exact ⟨x.2, h.reserved.subset hx, hjoin'.2.1⟩

/-- **One step, from any state that counts everybody once**: it still does exactly
when the step folds no report early. -/
theorem once_iff {cfg : Settings ι} {s t : Serving ν ι κ} {e : Event ν ι κ}
    (hrun : (machine cfg).Reachable s)
    (honce : ∀ d doneTime, (s.contributors cfg d doneTime).Nodup)
    (hst : next cfg s e = some t) :
    (∀ d doneTime, (t.contributors cfg d doneTime).Nodup) ↔ s.OnTime cfg e := by
  have htally := tallied_of_run hrun
  have hpriced := pricedOnce_of_run hrun
  have hnext := hpriced.step hst
  have htimely := (htally.timely_iff hpriced).mpr honce
  rw [← (htally.step hpriced hst).timely_iff hnext]
  exact htimely.step_iff htally hnext hst

theorem timely_of_run {cfg : Settings ι} {s : Serving ν ι κ}
    (h : ((machine cfg).guarded (OnTime cfg)).Reachable s) : s.Timely cfg := by
  have hall : s.Timely cfg ∧ (machine cfg).Reachable s := by
    refine Machine.Reachable.guarded_invariant
      (P := fun s => s.Timely cfg ∧ (machine cfg).Reachable s) ?_ ?_ h
    · intro s hs
      obtain ⟨now, rfl⟩ := hs
      refine ⟨?_, .init ⟨now, rfl⟩⟩
      intro d m hm
      cases hm
    · intro s e t hs hok hst
      obtain ⟨htimely, hrun⟩ := hs
      have hnext := (pricedOnce_of_run hrun).step hst
      exact ⟨(htimely.step_iff (tallied_of_run hrun) hnext hst).mpr hok, hrun.step hst⟩
  exact hall.1

/-- **Each request is counted once, while no report is folded early.**  In every such
run of a scheduler that predicts, every batch it can predict, for any host and any
completion, is the number of its contributors, each an accepted request decoding on
that host and none twice; and the next step keeps it so exactly when it folds no
report early either. -/
theorem counted_once {cfg : Settings ι} {s : Serving ν ι κ} (hla : cfg.lookahead = true)
    (h : ((machine cfg).guarded (OnTime cfg)).Reachable s) :
    (∀ d doneTime,
      predictedBatch cfg.decodeBatch s.plane.cluster s.plane.reserved s.clock d doneTime =
        (s.contributors cfg d doneTime).length ∧
      (∀ id ∈ s.contributors cfg d doneTime, s.DecodesOn id d) ∧
      (s.contributors cfg d doneTime).Nodup) ∧
    ∀ e t, next cfg s e = some t →
      ((∀ d doneTime, (t.contributors cfg d doneTime).Nodup) ↔ s.OnTime cfg e) := by
  have hrun := Machine.Reachable.of_guarded h
  have htally := tallied_of_run hrun
  have hnodup := (htally.timely_iff (pricedOnce_of_run hrun)).mp (timely_of_run h)
  refine ⟨?_, fun e t hst => once_iff hrun hnodup hst⟩
  intro d doneTime
  exact ⟨predictedBatch_eq hla htally (labelled_of_run hrun) d doneTime,
    fun id hid => htally.contributes hid, hnodup d doneTime⟩

end

/-! ## §4. A prefill on time, and one that was early. -/

/-- Instance 0 prefills, instance 1 decodes, and occupancy is rolled forward. -/
def predictConfig : Settings ℕ :=
  { spreadConfig with
    ids := [0, 1]
    decodePool := [1]
    simulateDecode := true
    earlyRejection := .predict }

/-- A request with a hundred tokens to emit. -/
def longRequest (id : ℕ) : Request ℕ ℕ := { chainRequest id with outputTokens := 100 }

/-- The life of request 1 up to its batch report, prefilled at `seen`. -/
def joinsAt (seen : ℚ) : List (Event ℕ ℕ ℕ) :=
  [.arrive (longRequest 1) 0, .ask 1 fun _ => [], .pull 1 fun _ => [], .tick seen,
    .finish 1 seen, .handoff 1 fun _ => [0], .join 1, .report 1 fun _ => 1000, .deliver 0]

/-- A request that prefilled after its predicted completion. -/
theorem counted_once_late : ∃ s : Serving ℕ ℕ ℕ,
    s.contributors predictConfig 1 5 = [1] ∧
    (∀ d doneTime,
      predictedBatch predictConfig.decodeBatch s.plane.cluster s.plane.reserved s.clock d
        doneTime = (s.contributors predictConfig d doneTime).length ∧
      (∀ id ∈ s.contributors predictConfig d doneTime, s.DecodesOn id d) ∧
      (s.contributors predictConfig d doneTime).Nodup) ∧
    ∀ e t, next predictConfig s e = some t →
      ((∀ d doneTime, (t.contributors predictConfig d doneTime).Nodup) ↔
        s.OnTime predictConfig e) := by
  have hrun : (Machine.replay (Machine.guardedNext (OnTime predictConfig) (next predictConfig))
      (start predictConfig 0) (joinsAt 5)).any (fun s : Serving ℕ ℕ ℕ =>
        decide (s.contributors predictConfig 1 5 = [1])) = true := by
    decide +kernel
  obtain ⟨s, hs, hone⟩ := (Option.any_eq_true _ _).mp hrun
  have hreach : ((machine predictConfig).guarded (OnTime predictConfig)).Reachable s :=
    Machine.Reachable.of_guarded_replay (fun _ _ _ hst => hst) _ (.init ⟨0, rfl⟩) hs
  exact ⟨s, of_decide_eq_true hone, counted_once (by decide) hreach⟩

/-- **A request that prefilled sooner than predicted** is both a member and a
reservation when the next one is decided: that decision is priced at a batch of two,
and books the gap of three, while one request decodes. -/
theorem counted_twice : ∃ s t : Serving ℕ ℕ ℕ, ∃ response,
    (machine predictConfig).Reachable s ∧
    next predictConfig s (.ask 2 fun _ => []) = some t ∧
    (t.legs.get? 2).map Leg.stage = some (.served response .accepted) ∧
    s.contributors predictConfig response.decode response.plan.doneTime = [1, 1] ∧
    response.predTbt = predTbt 2 predictConfig.profile predictConfig.model true := by
  have hrun : (run predictConfig 0 (joinsAt 0 ++ [.arrive (longRequest 2) 0])).any
      (fun s : Serving ℕ ℕ ℕ => (next predictConfig s (.ask 2 fun _ => [])).any fun t =>
        ((t.legs.get? 2).bind fun leg => leg.stage.servedAt .accepted).any fun response =>
          decide (s.contributors predictConfig response.decode response.plan.doneTime = [1, 1] ∧
            response.predTbt = predTbt 2 predictConfig.profile predictConfig.model true)) =
      true := by
    decide +kernel
  obtain ⟨s, hs, hask⟩ := (Option.any_eq_true _ _).mp hrun
  obtain ⟨t, ht, hserved⟩ := (Option.any_eq_true _ _).mp hask
  obtain ⟨response, hresponse, hcount⟩ := (Option.any_eq_true _ _).mp hserved
  obtain ⟨leg, hl, hstage⟩ := Option.bind_eq_some_iff.mp hresponse
  refine ⟨s, t, response, reachable_of_run hs, ht, ?_, of_decide_eq_true hcount⟩
  rw [hl, Option.map_some, Stage.servedAt_eq_some.mp hstage]

end Serving

end Toso.KvCache
