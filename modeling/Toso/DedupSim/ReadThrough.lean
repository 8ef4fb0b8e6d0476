/-
  Toso.DedupSim.ReadThrough — one call of `read_through`, among other readers.

  A call asks the control plane for a plan, waits until its gate opens, fetches
  the batch from the plan's sources, stores it in the reader's volume and reports
  the publication.  A fetch that misses a key reports the publication and asks
  again; what else a fetch or a store raises leaves the call.  Between its own
  moves other readers decide and publish, and other clients write.

  Main results:
    * `handed_landed_iff` — a call that ended left nothing in flight, exactly when
      no fetch and no store left it by an exception.
    * `unheld_never_ends` — a call for a key that nobody holds never ends.
-/
import Toso.DedupSim.Routing

namespace Toso.DedupSim

open Lib Toso.Proposed

variable {δ ρ ν : Type*}

/-! ## §1. A call. -/

/-- What `get_batch` does. -/
inductive Fetched
  | returned
  | keyError
  | raised
  deriving DecidableEq

/-- What `put_batch` does; what it raises is not told apart. -/
inductive Stored
  | landed
  | raised
  deriving DecidableEq

/-- Where a call stands, with its plan. -/
inductive Phase (ν : Type*)
  | asking
  | settling (plan : ReadPlan ν)
  | reading (plan : ReadPlan ν)
  | storing (plan : ReadPlan ν)
  | returned
  | raised
  deriving DecidableEq

/-- A call of `read_through`: the plane it runs against, and the publications
declared for it; each is handed to it when its gate opens. -/
structure Call (δ ν : Type*) where
  plane : State δ ν
  phase : Phase ν
  handed : List (Publication ν)

/-- A move of the call, or a step of another process. -/
inductive CallEvent (δ ρ ν : Type*)
  | asked
  | settled
  | fetched (outcome : Fetched)
  | stored (outcome : Stored)
  | other (e : Event δ ρ ν)

/-- The plan of a call, while it has one. -/
def Phase.plan? : Phase ν → Option (ReadPlan ν)
  | asking => none
  | settling plan => some plan
  | reading plan => some plan
  | storing plan => some plan
  | returned => none
  | raised => none

/-- The call has returned or raised. -/
def Phase.Ended (phase : Phase ν) : Prop := phase = .returned ∨ phase = .raised

/-- The start of a call; an empty batch is refused. -/
def Call.start (requests : List ρ) (plane : State δ ν) : Call δ ν :=
  ⟨plane, if requests = [] then .raised else .asking, []⟩

instance (s : State δ ν) (plan : ReadPlan ν) : Decidable (s.Open plan) :=
  match h : plan.ready with
  | none => isTrue fun n hn => by rw [h] at hn; cases hn
  | some n => decidable_of_iff (s.dispatcher.Released n) (by simp [State.Open, h])

namespace Dedup

variable [LinearOrder ν] (D : Dedup δ ρ ν) (requests : List ρ) (requester : ν)

/-- `sources` of the control plane, up to its gate. -/
def ask (c : Call δ ν) : Call δ ν :=
  match D.decide requests requester c.plane with
  | .ok (plane, plan) => ⟨plane, .settling plan, c.handed ++ [plan.publication]⟩
  | .error _ => { c with phase := .raised }

/-- `dispatch(Published(plan.publication))`, and on to `phase`. -/
def report (plan : ReadPlan ν) (phase : Phase ν) (c : Call δ ν) : Option (Call δ ν) :=
  (D.dispatch (.published plan.publication) c.plane).map fun plane =>
    { c with plane := plane, phase := phase }

/-- `read_through`, move by move. -/
def move (c : Call δ ν) (e : CallEvent δ ρ ν) : Option (Call δ ν) :=
  match c.phase, e with
  | .asking, .asked => some (D.ask requests requester c)
  | .settling plan, .settled =>
      if c.plane.Open plan then some { c with phase := .reading plan } else none
  | .reading plan, .fetched .returned => some { c with phase := .storing plan }
  | .reading plan, .fetched .keyError => D.report plan .asking c
  | .reading _, .fetched .raised => some { c with phase := .raised }
  | .storing plan, .stored .landed => D.report plan .returned c
  | .storing _, .stored .raised => some { c with phase := .raised }
  | _, _ => none

/-- A step beside the call: no other process completes a publication of it. -/
def Beside (c : Call δ ν) (e : Event δ ρ ν) (c' : Call δ ν) : Prop :=
  (∀ p, e = .published p → p ∉ c.handed) ∧
    ∃ plane, D.Step c.plane e plane ∧ c' = { c with plane := plane }

/-- **The steps of a call** among other processes. -/
def CallStep (c : Call δ ν) : CallEvent δ ρ ν → Call δ ν → Prop
  | .other e, c' => D.Beside c e c'
  | e, c' => D.move requests requester c e = some c'

/-- A call from a reachable plane. -/
def calls : Machine (Call δ ν) (CallEvent δ ρ ν) :=
  ⟨fun c => ∃ plane, D.machine.Reachable plane ∧ c = .start requests plane,
    D.CallStep requests requester⟩

end Dedup

/-! ## §2. What is in flight. -/

/-- An exception that leaves the call: not the missing key it asks again for. -/
def CallEvent.Escapes : CallEvent δ ρ ν → Prop
  | .fetched outcome => outcome = .raised
  | .stored outcome => outcome = .raised
  | _ => False

/-- A label that is no escape adds none. -/
theorem kept_snoc {events : List (CallEvent δ ρ ν)} {e : CallEvent δ ρ ν}
    (h : ∀ x ∈ events, ¬ x.Escapes) (he : ¬ e.Escapes) : ∀ x ∈ events ++ [e], ¬ x.Escapes := by
  intro x hx
  rcases List.mem_append.mp hx with hx | hx
  · exact h x hx
  · rw [List.mem_singleton.mp hx]
    exact he

section

variable [LinearOrder ν] {D : Dedup δ ρ ν} {requests : List ρ} {requester : ν}

/-- **The invariant of a call**: of what was declared for it, only the publication
of its plan is in flight; after an exception, something still is. -/
structure Call.Sound (D : Dedup δ ρ ν) (events : List (CallEvent δ ρ ν)) (c : Call δ ν) :
    Prop where
  coherent : Coherent D c.plane
  planned : ∀ p ∈ c.handed, ∃ plan ∈ c.plane.plans, plan.publication = p
  current : ∀ plan, c.phase.plan? = some plan →
    plan.publication ∈ c.handed ∧ c.plane.Unpublished plan.publication
  others : c.phase ≠ .raised → ∀ p ∈ c.handed, c.plane.Unpublished p →
    ∃ plan, c.phase.plan? = some plan ∧ plan.publication = p
  kept : c.phase ≠ .raised → ∀ e ∈ events, ¬ e.Escapes
  lost : c.phase = .raised → (c.handed = [] ∧ ∀ e ∈ events, ¬ e.Escapes) ∨
    (∃ p ∈ c.handed, c.plane.Unpublished p) ∧ ∃ e ∈ events, e.Escapes

/-- A step of another process moves nothing of the call. -/
theorem unpublished_beside (hC : D.controller.Documented) {s s' : State δ ν}
    (h : Coherent D s) {e : Event δ ρ ν} (hs : D.Step s e s') {p : Publication ν}
    (hp : ∃ plan ∈ s.plans, plan.publication = p) (hown : ∀ q, e = .published q → p ≠ q) :
    s'.Unpublished p ↔ s.Unpublished p := by
  obtain ⟨own, hplan, rfl⟩ := hp
  obtain ⟨hle, huniq⟩ := h.issued own hplan
  cases e with
  | sources requests requester =>
      obtain ⟨plan, hdecide⟩ := hs
      obtain ⟨arrival, hd⟩ := Dedup.decide_cases hC hdecide
      obtain ⟨hlt, hunp⟩ := hd.unpublished hC h.tracks
      rw [hunp]
      refine or_iff_left fun heq => ?_
      rw [heq] at hle
      omega
  | published q =>
      obtain ⟨⟨other, hother, hq⟩, hdispatch⟩ := hs
      rw [unpublished_landed hC h.tracks hdispatch]
      refine and_iff_left_of_imp fun hin hpub => ?_
      -- an id names one publication, and this is not that of the call
      have hsame := (h.issued other hother).2 _ hin (by rw [hpub, hq])
      exact hown q rfl (hsame.trans hq)
  | written directory =>
      obtain ⟨_, rfl⟩ := hs
      exact Iff.rfl

/-- Plans are kept. -/
theorem planned_step (hC : D.controller.Documented) {s s' : State δ ν} {e : Event δ ρ ν}
    (hs : D.Step s e s') : ∀ plan ∈ s.plans, plan ∈ s'.plans := by
  intro plan hplan
  cases e with
  | sources requests requester =>
      obtain ⟨new, hdecide⟩ := hs
      obtain ⟨arrival, hd⟩ := Dedup.decide_cases hC hdecide
      rw [hd.plans]
      exact List.mem_append_left _ hplan
  | published q =>
      rw [(published_cases hs.2).2.2.2]
      exact hplan
  | written directory =>
      obtain ⟨_, rfl⟩ := hs
      exact hplan

theorem Call.Sound.start {s : State δ ν} (h : Coherent D s) (requests : List ρ) :
    (Call.start requests s).Sound D [] where
  coherent := h
  planned p hp := by cases hp
  current plan hplan := by
    unfold Call.start at hplan
    split at hplan <;> cases hplan
  others _ p hp := by cases hp
  kept _ e he := by cases he
  lost _ := .inl ⟨rfl, fun e he => by cases he⟩

/-- A move that changes the phase only, and keeps its plan. -/
theorem Call.Sound.turn {events : List (CallEvent δ ρ ν)} {c : Call δ ν} (h : c.Sound D events)
    (hphase : c.phase ≠ .raised) {phase : Phase ν} (hplan : phase.plan? = c.phase.plan?)
    (hraised : phase ≠ .raised) {e : CallEvent δ ρ ν} (he : ¬ e.Escapes) :
    ({ c with phase := phase } : Call δ ν).Sound D (events ++ [e]) where
  coherent := h.coherent
  planned := h.planned
  current plan hp := h.current plan (hplan ▸ hp)
  others _ p hp hin := hplan ▸ h.others hphase p hp hin
  kept _ := kept_snoc (h.kept hphase) he
  lost hp := absurd hp hraised

/-- The control plane answers: a new publication is in flight, and the plan's. -/
theorem Call.Sound.asked (hC : D.controller.Documented) {events : List (CallEvent δ ρ ν)}
    {c : Call δ ν} (h : c.Sound D events) (hphase : c.phase = .asking) :
    (D.ask requests requester c).Sound D (events ++ [.asked]) := by
  have hnone : ∀ p ∈ c.handed, ¬ c.plane.Unpublished p := by
    intro p hp hin
    obtain ⟨plan, hplan, _⟩ := h.others (by rw [hphase]; exact nofun) p hp hin
    rw [hphase] at hplan
    cases hplan
  obtain ⟨s', plan, hdecide⟩ := Dedup.decide_total hC h.coherent.fanout requests requester
  obtain ⟨arrival, hd⟩ := Dedup.decide_cases hC hdecide
  obtain ⟨_, hunp⟩ := hd.unpublished hC h.coherent.tracks
  have hask : D.ask requests requester c
      = ⟨s', .settling plan, c.handed ++ [plan.publication]⟩ := by
    unfold Dedup.ask
    rw [hdecide]
  rw [hask]
  constructor
  case coherent => exact h.coherent.decided hC hd
  case planned =>
    intro p hp
    show ∃ own ∈ s'.plans, own.publication = p
    rw [hd.plans]
    rcases List.mem_append.mp hp with hp | hp
    · obtain ⟨own, hown, hpub⟩ := h.planned p hp
      exact ⟨own, List.mem_append_left _ hown, hpub⟩
    · exact ⟨plan, List.mem_append_right _ (List.mem_singleton_self plan),
        (List.mem_singleton.mp hp).symm⟩
  case current =>
    intro own hown
    cases hown
    exact ⟨List.mem_append_right _ (List.mem_singleton_self _), (hunp _).mpr (.inr rfl)⟩
  case others =>
    intro _ p hp hin
    refine ⟨plan, rfl, ?_⟩
    rcases (hunp p).mp hin with hold | hnew
    · rcases List.mem_append.mp hp with hp | hp
      · exact absurd hold (hnone p hp)
      · exact (List.mem_singleton.mp hp).symm
    · exact hnew.symm
  case kept =>
    intro _
    have hescapes : ¬ (CallEvent.asked : CallEvent δ ρ ν).Escapes := not_false
    exact kept_snoc (h.kept (by rw [hphase]; exact nofun)) hescapes
  case lost => exact fun hraised => nomatch hraised

/-- A report takes the plan's publication out of flight. -/
theorem Call.Sound.report (hC : D.controller.Documented) {events : List (CallEvent δ ρ ν)}
    {c c' : Call δ ν} (h : c.Sound D events) {plan : ReadPlan ν}
    (hplan : c.phase.plan? = some plan) {phase : Phase ν} (hphase : phase.plan? = none)
    (hraised : phase ≠ .raised) (hreport : D.report plan phase c = some c')
    {e : CallEvent δ ρ ν} (he : ¬ e.Escapes) : c'.Sound D (events ++ [e]) := by
  have hcurrent : c.phase ≠ .raised := by
    intro heq
    rw [heq] at hplan
    cases hplan
  obtain ⟨plane, hdispatch, rfl⟩ := Option.map_eq_some_iff.mp hreport
  have hown := h.planned plan.publication (h.current plan hplan).1
  have hunp := unpublished_landed hC h.coherent.tracks hdispatch
  constructor
  case coherent => exact h.coherent.landed hC hown hdispatch
  case planned =>
    intro p hp
    obtain ⟨own, hmem, hpub⟩ := h.planned p hp
    refine ⟨own, ?_, hpub⟩
    show own ∈ plane.plans
    rw [(published_cases hdispatch).2.2.2]
    exact hmem
  case current =>
    intro own hmine
    rw [hphase] at hmine
    cases hmine
  case others =>
    intro _ p hp hin
    obtain ⟨hbefore, hne⟩ := (hunp p).mp hin
    obtain ⟨own, hmine, rfl⟩ := h.others hcurrent p hp hbefore
    rw [hplan] at hmine
    cases hmine
    exact absurd rfl hne
  case kept => exact fun _ => kept_snoc (h.kept hcurrent) he
  case lost => exact fun hlost => absurd hlost hraised

/-- An exception leaves the plan's publication in flight. -/
theorem Call.Sound.escaped {events : List (CallEvent δ ρ ν)} {c : Call δ ν}
    (h : c.Sound D events) {plan : ReadPlan ν} (hplan : c.phase.plan? = some plan)
    {e : CallEvent δ ρ ν} (he : e.Escapes) :
    ({ c with phase := .raised } : Call δ ν).Sound D (events ++ [e]) where
  coherent := h.coherent
  planned := h.planned
  current plan hp := by cases hp
  others hne := absurd rfl hne
  kept hne := absurd rfl hne
  lost _ := .inr ⟨⟨plan.publication, h.current plan hplan⟩,
    ⟨e, List.mem_append_right _ (List.mem_singleton_self e), he⟩⟩

/-- Another process takes a step. -/
theorem Call.Sound.beside (hC : D.controller.Documented) {events : List (CallEvent δ ρ ν)}
    {c c' : Call δ ν} (h : c.Sound D events) {e : Event δ ρ ν} (hs : D.Beside c e c') :
    c'.Sound D (events ++ [.other e]) := by
  obtain ⟨hown, plane, hstep, rfl⟩ := hs
  have hunp : ∀ p ∈ c.handed, (plane.Unpublished p ↔ c.plane.Unpublished p) := by
    intro p hp
    refine unpublished_beside hC h.coherent hstep (h.planned p hp) fun q hq heq => ?_
    exact hown q hq (heq ▸ hp)
  have hescapes : ¬ (CallEvent.other e : CallEvent δ ρ ν).Escapes := not_false
  constructor
  case coherent => exact h.coherent.step hC hstep
  case planned =>
    intro p hp
    obtain ⟨own, hmem, hpub⟩ := h.planned p hp
    exact ⟨own, planned_step hC hstep own hmem, hpub⟩
  case current =>
    intro plan hplan
    obtain ⟨hmem, hin⟩ := h.current plan hplan
    exact ⟨hmem, (hunp _ hmem).mpr hin⟩
  case others => exact fun hne p hp hin => h.others hne p hp ((hunp p hp).mp hin)
  case kept => exact fun hne => kept_snoc (h.kept hne) hescapes
  case lost =>
    intro hraised
    rcases h.lost hraised with ⟨hnil, hkept⟩ | ⟨⟨p, hp, hin⟩, x, hx, hlost⟩
    · exact .inl ⟨hnil, kept_snoc hkept hescapes⟩
    · exact .inr ⟨⟨p, hp, (hunp p hp).mpr hin⟩, x, List.mem_append_left _ hx, hlost⟩

/-- **What a move is.** -/
theorem move_cases {c c' : Call δ ν} {e : CallEvent δ ρ ν}
    (h : D.move requests requester c e = some c') :
    (c.phase = .asking ∧ e = .asked ∧ c' = D.ask requests requester c) ∨
    (∃ plan, c.phase = .settling plan ∧ e = .settled ∧ c.plane.Open plan ∧
      c' = { c with phase := .reading plan }) ∨
    (∃ plan, c.phase = .reading plan ∧ e = .fetched .returned ∧
      c' = { c with phase := .storing plan }) ∨
    (∃ plan, c.phase = .reading plan ∧ e = .fetched .keyError ∧
      D.report plan .asking c = some c') ∨
    (∃ plan, c.phase = .storing plan ∧ e = .stored .landed ∧
      D.report plan .returned c = some c') ∨
    (∃ plan, (c.phase = .reading plan ∧ e = .fetched .raised ∨
      c.phase = .storing plan ∧ e = .stored .raised) ∧ c' = { c with phase := .raised }) := by
  unfold Dedup.move at h
  split at h
  · next hphase => exact .inl ⟨hphase, rfl, (Option.some.inj h).symm⟩
  · next plan hphase =>
      split at h
      · next hopen => exact .inr (.inl ⟨plan, hphase, rfl, hopen, (Option.some.inj h).symm⟩)
      · cases h
  · next plan hphase =>
      exact .inr (.inr (.inl ⟨plan, hphase, rfl, (Option.some.inj h).symm⟩))
  · next plan hphase => exact .inr (.inr (.inr (.inl ⟨plan, hphase, rfl, h⟩)))
  · next plan hphase =>
      exact .inr (.inr (.inr (.inr (.inr
        ⟨plan, .inl ⟨hphase, rfl⟩, (Option.some.inj h).symm⟩))))
  · next plan hphase => exact .inr (.inr (.inr (.inr (.inl ⟨plan, hphase, rfl, h⟩))))
  · next plan hphase =>
      exact .inr (.inr (.inr (.inr (.inr
        ⟨plan, .inr ⟨hphase, rfl⟩, (Option.some.inj h).symm⟩))))
  · cases h

/-- **Every step keeps a call sound.** -/
theorem Call.Sound.step (hC : D.controller.Documented) {events : List (CallEvent δ ρ ν)}
    {c c' : Call δ ν} (h : c.Sound D events) {e : CallEvent δ ρ ν}
    (hs : D.CallStep requests requester c e c') : c'.Sound D (events ++ [e]) := by
  have hmove : D.move requests requester c e = some c' → c'.Sound D (events ++ [e]) := by
    intro hmove
    rcases move_cases hmove with ⟨hphase, rfl, rfl⟩ | ⟨plan, hphase, rfl, _, rfl⟩ |
      ⟨plan, hphase, rfl, rfl⟩ | ⟨plan, hphase, rfl, hreport⟩ | ⟨plan, hphase, rfl, hreport⟩ |
      ⟨plan, ⟨hphase, rfl⟩ | ⟨hphase, rfl⟩, rfl⟩
    · exact h.asked hC hphase
    · have hlive : c.phase ≠ .raised := by simp [hphase]
      have hplan : (Phase.reading plan).plan? = c.phase.plan? := by rw [hphase]; rfl
      exact h.turn hlive hplan (by simp) (by simp [CallEvent.Escapes])
    · have hlive : c.phase ≠ .raised := by simp [hphase]
      have hplan : (Phase.storing plan).plan? = c.phase.plan? := by rw [hphase]; rfl
      exact h.turn hlive hplan (by simp) (by simp [CallEvent.Escapes])
    · have hplan : c.phase.plan? = some plan := by rw [hphase]; rfl
      exact h.report hC hplan rfl (by simp) hreport (by simp [CallEvent.Escapes])
    · have hplan : c.phase.plan? = some plan := by rw [hphase]; rfl
      exact h.report hC hplan rfl (by simp) hreport (by simp [CallEvent.Escapes])
    · have hplan : c.phase.plan? = some plan := by rw [hphase]; rfl
      exact h.escaped hplan (by simp [CallEvent.Escapes])
    · have hplan : c.phase.plan? = some plan := by rw [hphase]; rfl
      exact h.escaped hplan (by simp [CallEvent.Escapes])
  cases e with
  | other e => exact h.beside hC hs
  | asked => exact hmove hs
  | settled => exact hmove hs
  | fetched outcome => exact hmove hs
  | stored outcome => exact hmove hs

/-- **Nothing left in flight**: over every call, whatever its fetches and its stores
do and whatever other processes do meanwhile, once it has returned or raised every
publication it was handed has landed, if and only if no fetch raised anything but
a missing key and no store raised. -/
theorem handed_landed_iff (hC : D.controller.Documented) {s : State δ ν}
    (h : D.machine.Reachable s) {events : List (CallEvent δ ρ ν)} {c : Call δ ν}
    (hrun : (D.calls requests requester).Trace (.start requests s) events c)
    (hended : c.phase.Ended) :
    (∀ p ∈ c.handed, ¬ c.plane.Unpublished p) ↔ ∀ e ∈ events, ¬ e.Escapes := by
  have hsound : c.Sound D events :=
    hrun.invariant (P := fun events c => c.Sound D events)
      (.start (coherent_of_reachable hC h) requests) fun _ _ _ _ ht hst => ht.step hC hst
  constructor
  · intro hlanded
    by_cases hraised : c.phase = .raised
    · rcases hsound.lost hraised with ⟨_, hkept⟩ | ⟨⟨p, hp, hin⟩, _⟩
      · exact hkept
      · exact absurd hin (hlanded p hp)
    · exact hsound.kept hraised
  · intro hkept p hp hin
    rcases hended with hreturned | hraised
    · obtain ⟨plan, hplan, _⟩ := hsound.others (by rw [hreturned]; exact nofun) p hp hin
      rw [hreturned] at hplan
      cases hplan
    · rcases hsound.lost hraised with ⟨hnil, _⟩ | ⟨_, e, he, hescapes⟩
      · rw [hnil] at hp
        cases hp
      · exact hkept e he hescapes

end

/-- The steps of a call that compute: its moves, and other readers' decisions. -/
def Dedup.callNext [LinearOrder ν] (D : Dedup δ ρ ν) (requests : List ρ) (requester : ν)
    (c : Call δ ν) : CallEvent δ ρ ν → Option (Call δ ν)
  | .other (.sources others reader) =>
      (D.next c.plane (.sources others reader)).map fun plane => { c with plane := plane }
  | e => D.move requests requester c e

theorem Dedup.callStep_of_next [LinearOrder ν] {D : Dedup δ ρ ν} {requests : List ρ}
    {requester : ν} (c : Call δ ν) (e : CallEvent δ ρ ν) (c' : Call δ ν)
    (h : D.callNext requests requester c e = some c') :
    (D.calls requests requester).step c e c' := by
  cases e with
  | other e =>
      cases e with
      | sources others reader =>
          obtain ⟨plane, hplane, rfl⟩ := Option.map_eq_some_iff.mp h
          exact ⟨fun p hp => (nomatch hp), plane, Dedup.step_of_next _ _ _ hplane, rfl⟩
      | published p => simp [callNext, move] at h
      | written directory => simp [callNext, move] at h
  | asked => exact h
  | settled => exact h
  | fetched outcome => exact h
  | stored outcome => exact h

/-- A fetch misses the key, the call asks again and returns: both publications it
was handed have landed. -/
theorem retried_landed :
    ∃ c : Call (KeyDirectory ℕ) ℕ, c.phase = .returned ∧ c.handed = [⟨1, 1⟩, ⟨2, 1⟩] ∧
      ∀ p ∈ c.handed, ¬ c.plane.Unpublished p := by
  have hrun : (Machine.replay ((oneKey 1).callNext [()] 1) (.start [()] (atOrigin 1))
      [.asked, .settled, .fetched .keyError, .asked, .settled, .fetched .returned,
        .stored .landed]).map (fun c => decide (c.phase = .returned ∧ c.handed = [⟨1, 1⟩, ⟨2, 1⟩]))
      = some true := by decide +kernel
  obtain ⟨c, hc, hval⟩ := Option.map_eq_some_iff.mp hrun
  obtain ⟨hphase, hhanded⟩ := of_decide_eq_true hval
  have htrace := Machine.Trace.of_replay (M := (oneKey 1).calls [()] 1)
    Dedup.callStep_of_next _ .nil hc
  refine ⟨c, hphase, hhanded, ?_⟩
  refine (handed_landed_iff (keyController_documented ℕ) (.init (atOrigin_fresh 1)) htrace
    (.inl hphase)).mpr fun e he => ?_
  simp only [List.nil_append, List.mem_cons, List.not_mem_nil, or_false] at he
  rcases he with rfl | rfl | rfl | rfl | rfl | rfl | rfl <;> simp [CallEvent.Escapes]

/-- **A store that raises strands its readers.**  Reader `1` asks, reader `2` is
routed behind it, and the `put_batch` of reader `1` raises: the call is over, its
publication is in flight, and reader `2` waits for it. -/
theorem raised_store_strands :
    (oneKey 1).controller.Documented ∧ (oneKey 1).machine.Reachable (atOrigin 1) ∧
      ∃ (events : List (CallEvent (KeyDirectory ℕ) Unit ℕ)) (c : Call (KeyDirectory ℕ) ℕ),
        ((oneKey 1).calls [()] 1).Trace (.start [()] (atOrigin 1)) events c ∧ c.phase.Ended ∧
        (∃ p ∈ c.handed, c.plane.Unpublished p) ∧ c.plane.WaitsFor ⟨2, 2⟩ ⟨1, 1⟩ := by
  have hrun : (Machine.replay ((oneKey 1).callNext [()] 1) (.start [()] (atOrigin 1))
      [.asked, .settled, .other (.sources [()] 2), .fetched .returned, .stored .raised]).map
        (fun c => decide (c.phase = .raised ∧ c.handed = [⟨1, 1⟩] ∧
          c.plane.sensor.isInFlight ⟨1, 1⟩ = true ∧ c.plane.WaitsFor ⟨2, 2⟩ ⟨1, 1⟩))
      = some true := by decide +kernel
  obtain ⟨c, hc, hval⟩ := Option.map_eq_some_iff.mp hrun
  obtain ⟨hphase, hhanded, hin, hwaits⟩ := of_decide_eq_true hval
  have htrace := Machine.Trace.of_replay (M := (oneKey 1).calls [()] 1)
    Dedup.callStep_of_next _ .nil hc
  refine ⟨keyController_documented ℕ, .init (atOrigin_fresh 1), _, c, htrace, .inr hphase,
    ⟨⟨1, 1⟩, ?_, hin⟩, hwaits⟩
  rw [hhanded]
  exact List.mem_singleton_self _

/-! ## §3. A call alone, for a key that nobody holds. -/

/-- What the store documents of the sources it serves: a pending declaration offers
nothing but itself, and retiring it offers nothing new. -/
structure Controller.Offers (C : Controller δ ρ ν) : Prop where
  put : ∀ rs requests v d, ∀ q ∈ C.servingUnion rs (C.notifyPutBatch requests v d).2,
    q ∈ C.servingUnion rs d ∨ q = ⟨(C.notifyPutBatch requests v d).1, v⟩
  delete : ∀ rs n d, ∀ q ∈ C.servingUnion rs (C.notifyDeleteBatch n d),
    q ∈ C.servingUnion rs d

/-- No live holder serves the key of a request. -/
def Controller.Unheld (C : Controller δ ρ ν) (r : ρ) (d : δ) : Prop :=
  ∀ q ∈ C.servingUnion [r] d, q.pub ≠ 0

/-- A move that asks the control plane. -/
def CallEvent.asks : CallEvent δ ρ ν → Bool
  | .asked => true
  | _ => false

/-- The routing questions of a run. -/
def questions (events : List (CallEvent δ ρ ν)) : ℕ := events.countP CallEvent.asks

namespace Dedup

variable [LinearOrder ν] (D : Dedup δ ρ ν) (requests : List ρ) (requester : ν)

/-- **The steps of a call alone.**  `get_batch` is all or nothing: with a key that
nobody holds it raises `KeyError`. -/
def AloneStep (c : Call δ ν) (e : CallEvent δ ρ ν) (c' : Call δ ν) : Prop :=
  D.move requests requester c e = some c' ∧
    ∀ outcome, e = .fetched outcome →
      (∃ r ∈ requests, D.controller.Unheld r c.plane.sensor.directory) → outcome = .keyError

/-- A call that no other process runs beside. -/
def alone : Machine (Call δ ν) (CallEvent δ ρ ν) :=
  ⟨fun c => ∃ plane, D.machine.Reachable plane ∧ c = .start requests plane,
    D.AloneStep requests requester⟩

end Dedup

section

variable [LinearOrder ν] {D : Dedup δ ρ ν} {requests : List ρ} {requester : ν}

/-- How many moves a phase is short of the next question. -/
def Phase.short : Phase ν → ℕ
  | asking => 0
  | settling _ => 2
  | reading _ => 1
  | _ => 0

/-- **The invariant of a call alone**, from the directory it began with: nothing is
offered but what was and its own publications, and it is about to ask, parked
or about to miss. -/
structure Call.Retries (D : Dedup δ ρ ν) (requests : List ρ) (requester : ν) (d : δ)
    (events : List (CallEvent δ ρ ν)) (c : Call δ ν) : Prop where
  coherent : Coherent D c.plane
  offered : ∀ rs, ∀ q ∈ D.controller.servingUnion rs c.plane.sensor.directory,
    q ∈ D.controller.servingUnion rs d ∨ q.pub ≠ 0 ∧ q.volume = requester
  live : c.phase = .asking ∨ ∃ plan ∈ c.plane.plans,
    c.phase = .reading plan ∨ c.phase = .settling plan ∧ (plan.ready = none ∨
      ∃ q ∈ D.controller.servingUnion requests d, q.pub ≠ 0 ∧ q.volume ≠ requester)
  counted : events.length + c.phase.short = 3 * questions events

omit [LinearOrder ν] in
theorem questions_snoc (events : List (CallEvent δ ρ ν)) (e : CallEvent δ ρ ν) :
    questions (events ++ [e]) = questions events + if e.asks then 1 else 0 := by
  unfold questions
  rw [List.countP_append, List.countP_singleton]

/-- A key that nobody held when the call began has no holder since. -/
theorem Call.Retries.unheld {d : δ} {events : List (CallEvent δ ρ ν)} {c : Call δ ν}
    (h : c.Retries D requests requester d events) {r : ρ} (hr : D.controller.Unheld r d) :
    D.controller.Unheld r c.plane.sensor.directory := by
  intro q hq
  rcases h.offered [r] q hq with hold | ⟨hpub, _⟩
  · exact hr q hold
  · exact hpub

/-- The control plane answers, and the call waits behind other readers only. -/
theorem Call.Retries.asked (hC : D.controller.Documented) (hO : D.controller.Offers) {d : δ}
    {events : List (CallEvent δ ρ ν)} {c : Call δ ν} (h : c.Retries D requests requester d events)
    (hphase : c.phase = .asking) :
    (D.ask requests requester c).Retries D requests requester d (events ++ [.asked]) := by
  obtain ⟨s', plan, hdecide⟩ := Dedup.decide_total hC h.coherent.fanout requests requester
  obtain ⟨arrival, hd⟩ := Dedup.decide_cases hC hdecide
  have hask : D.ask requests requester c
      = ⟨s', .settling plan, c.handed ++ [plan.publication]⟩ := by
    unfold Dedup.ask
    rw [hdecide]
  have hoffered : ∀ rs, ∀ q ∈ D.controller.servingUnion rs s'.sensor.directory,
      q ∈ D.controller.servingUnion rs d ∨ q.pub ≠ 0 ∧ q.volume = requester := by
    intro rs q hq
    rw [hd.sensor] at hq
    rcases hO.put rs requests requester c.plane.sensor.directory q hq with hold | rfl
    · exact h.offered rs q hold
    · have hfresh := hC.fresh requests requester c.plane.sensor.directory
      refine .inr ⟨?_, rfl⟩
      show (D.controller.notifyPutBatch requests requester c.plane.sensor.directory).1 ≠ 0
      omega
  rw [hask]
  constructor
  case coherent => exact h.coherent.decided hC hd
  case offered => exact hoffered
  case live =>
    refine .inr ⟨plan, ?_, .inr ⟨rfl, ?_⟩⟩
    · show plan ∈ s'.plans
      rw [hd.plans]
      exact List.mem_append_right _ (List.mem_singleton_self plan)
    · rcases Dispatcher.gate_cases hd.gate with ⟨hready, _⟩ | ⟨_, hholds, _⟩
      · exact .inl hready
      · -- a gate is parked on a pending source of the cover, in another volume
        rw [Bool.not_eq_false', List.any_eq_true] at hholds
        obtain ⟨q, hq, _⟩ := hholds
        obtain ⟨hchosen, hpub⟩ := Dedup.mem_gatePublications.mp hq
        obtain ⟨hadmits, hserved⟩ := Dedup.admits_of_chosen hC hchosen
        have hvolume := ((D.admits_iff c.plane.fanout requester q).mp hadmits).1
        have hsensor : q ∈ D.controller.servingUnion requests s'.sensor.directory := by
          rw [hd.sensor]
          exact hserved
        rcases hoffered requests q hsensor with hold | ⟨_, hown⟩
        · exact .inr ⟨q, hold, hpub, hvolume⟩
        · exact absurd hown hvolume
  case counted =>
    have hcounted := h.counted
    rw [hphase] at hcounted
    rw [questions_snoc, List.length_append]
    simp only [Phase.short, CallEvent.asks, List.length_singleton, if_true] at hcounted ⊢
    omega

/-- The gate opens. -/
theorem Call.Retries.settled {d : δ} {events : List (CallEvent δ ρ ν)} {c : Call δ ν}
    (h : c.Retries D requests requester d events) {plan : ReadPlan ν}
    (hphase : c.phase = .settling plan) :
    ({ c with phase := .reading plan } : Call δ ν).Retries D requests requester d
      (events ++ [.settled]) where
  coherent := h.coherent
  offered := h.offered
  live := by
    rcases h.live with hasking | ⟨own, hown, hreading | ⟨hsettling, _⟩⟩
    · rw [hphase] at hasking
      cases hasking
    · rw [hphase] at hreading
      cases hreading
    · rw [hphase] at hsettling
      cases hsettling
      exact .inr ⟨plan, hown, .inl rfl⟩
  counted := by
    have hcounted := h.counted
    rw [hphase] at hcounted
    rw [questions_snoc, List.length_append]
    simp only [Phase.short, CallEvent.asks, List.length_singleton] at hcounted ⊢
    simp only [Bool.false_eq_true, if_false]
    omega

/-- A missed key is reported, and the call is about to ask again. -/
theorem Call.Retries.missed (hC : D.controller.Documented) (hO : D.controller.Offers) {d : δ}
    {events : List (CallEvent δ ρ ν)} {c c' : Call δ ν}
    (h : c.Retries D requests requester d events) {plan : ReadPlan ν}
    (hphase : c.phase = .reading plan) (hreport : D.report plan .asking c = some c') :
    c'.Retries D requests requester d (events ++ [.fetched .keyError]) := by
  obtain ⟨plane, hdispatch, rfl⟩ := Option.map_eq_some_iff.mp hreport
  have hown : ∃ own ∈ c.plane.plans, own.publication = plan.publication := by
    rcases h.live with hasking | ⟨own, hown, hreading | ⟨hsettling, _⟩⟩
    · rw [hphase] at hasking
      cases hasking
    · rw [hphase] at hreading
      cases hreading
      exact ⟨plan, hown, rfl⟩
    · rw [hphase] at hsettling
      cases hsettling
  constructor
  case coherent => exact h.coherent.landed hC hown hdispatch
  case offered =>
    intro rs q hq
    have hsensor : plane.sensor = c.plane.sensor.published D.controller plan.publication :=
      (published_cases hdispatch).2.1
    refine h.offered rs q (hO.delete rs plan.publication.pub _ q ?_)
    rw [hsensor] at hq
    exact hq
  case live => exact .inl rfl
  case counted =>
    have hcounted := h.counted
    rw [hphase] at hcounted
    rw [questions_snoc, List.length_append]
    simp only [Phase.short, CallEvent.asks, List.length_singleton] at hcounted ⊢
    simp only [Bool.false_eq_true, if_false]
    omega

/-- A call that retries has not ended, and never gets to store. -/
theorem Call.Retries.turning {d : δ} {events : List (CallEvent δ ρ ν)} {c : Call δ ν}
    (h : c.Retries D requests requester d events) :
    ¬ c.phase.Ended ∧ ∀ plan, c.phase ≠ .storing plan := by
  unfold Phase.Ended
  rcases h.live with hasking | ⟨plan, _, hreading | ⟨hsettling, _⟩⟩
  · simp [hasking]
  · simp [hreading]
  · simp [hsettling]

/-- **Every step of a call alone keeps it retrying.** -/
theorem Call.Retries.step (hC : D.controller.Documented) (hO : D.controller.Offers) {d : δ}
    (hr : ∃ r ∈ requests, D.controller.Unheld r d) {events : List (CallEvent δ ρ ν)}
    {c c' : Call δ ν} (h : c.Retries D requests requester d events) {e : CallEvent δ ρ ν}
    (hs : D.AloneStep requests requester c e c') :
    c'.Retries D requests requester d (events ++ [e]) := by
  obtain ⟨hmove, hfetch⟩ := hs
  obtain ⟨r, hmem, hunheld⟩ := hr
  have hmissing : ∃ r ∈ requests, D.controller.Unheld r c.plane.sensor.directory :=
    ⟨r, hmem, h.unheld hunheld⟩
  obtain ⟨_, hnever⟩ := h.turning
  rcases move_cases hmove with ⟨hphase, rfl, rfl⟩ | ⟨plan, hphase, rfl, _, rfl⟩ |
    ⟨plan, hphase, rfl, _⟩ | ⟨plan, hphase, rfl, hreport⟩ | ⟨plan, hphase, rfl, _⟩ |
    ⟨plan, ⟨hphase, rfl⟩ | ⟨hphase, rfl⟩, _⟩
  · exact h.asked hC hO hphase
  · exact h.settled hphase
  · cases hfetch _ rfl hmissing
  · exact h.missed hC hO hphase hreport
  · exact absurd hphase (hnever plan)
  · cases hfetch _ rfl hmissing
  · exact absurd hphase (hnever plan)

/-- A call alone that was asked for a key nobody holds retries. -/
theorem retries_of_alone (hC : D.controller.Documented) (hO : D.controller.Offers)
    {s : State δ ν} (h : D.machine.Reachable s)
    (hr : ∃ r ∈ requests, D.controller.Unheld r s.sensor.directory)
    {events : List (CallEvent δ ρ ν)} {c : Call δ ν}
    (hrun : (D.alone requests requester).Trace (.start requests s) events c) :
    c.Retries D requests requester s.sensor.directory events := by
  refine hrun.invariant
    (P := fun events c => c.Retries D requests requester s.sensor.directory events) ?_
    fun _ _ _ _ ht hst => ht.step hC hO hr hst
  obtain ⟨r, hmem, _⟩ := hr
  have hstart : Call.start requests s = ⟨s, .asking, []⟩ := by
    unfold Call.start
    rw [if_neg (List.ne_nil_of_mem hmem)]
  rw [hstart]
  exact ⟨coherent_of_reachable hC h, fun _ _ hq => .inl hq, .inl rfl, rfl⟩

/-- **A call that retries goes on**: it takes another step, or stands parked behind
another reader. -/
theorem Call.Retries.goes_on {d : δ}
    {events : List (CallEvent δ ρ ν)} {c : Call δ ν}
    (h : c.Retries D requests requester d events) :
    (∃ e c', (D.alone requests requester).step c e c') ∨
      ∃ plan, c.phase = .settling plan ∧ ¬ c.plane.Open plan ∧
        ∃ q ∈ D.controller.servingUnion requests d, q.pub ≠ 0 ∧ q.volume ≠ requester := by
  rcases h.live with hasking | ⟨plan, hplan, hreading | ⟨hsettling, hgate⟩⟩
  · refine .inl ⟨.asked, D.ask requests requester c, ?_, fun _ he => by cases he⟩
    unfold Dedup.move
    rw [hasking]
  · obtain ⟨fanout, hpub, _⟩ :=
      FanoutSensor.published_sound h.coherent.fanout plan.publication
    have hreport : ∃ c', D.report plan .asking c = some c' := by
      simp [Dedup.report, Dedup.dispatch, hpub]
    obtain ⟨c', hc'⟩ := hreport
    refine .inl ⟨.fetched .keyError, c', ?_, fun _ he _ => (CallEvent.fetched.inj he).symm⟩
    unfold Dedup.move
    rw [hreading]
    exact hc'
  · by_cases hopen : c.plane.Open plan
    · refine .inl ⟨.settled, { c with phase := .reading plan }, ?_, fun _ he => by cases he⟩
      unfold Dedup.move
      rw [hsettling]
      exact if_pos hopen
    · refine .inr ⟨plan, hsettling, hopen, hgate.resolve_left fun hnone => hopen fun n hn => ?_⟩
      rw [hnone] at hn
      cases hn

/-- **A key that nobody holds is asked for without end.**  From every reachable state
in which no live holder, and no publication but the reader's own, offers some key
of the batch, a call alone never returns and never raises, after however many
moves; every third of them asks the control plane again, until it stands parked
behind another reader that offers other keys. -/
theorem unheld_never_ends (hC : D.controller.Documented) (hO : D.controller.Offers)
    {s : State δ ν} (h : D.machine.Reachable s)
    (hr : ∃ r ∈ requests, ∀ q ∈ D.controller.servingUnion [r] s.sensor.directory,
      q.pub ≠ 0 ∧ q.volume = requester)
    {events : List (CallEvent δ ρ ν)} {c : Call δ ν}
    (hrun : (D.alone requests requester).Trace (.start requests s) events c) :
    ¬ c.phase.Ended ∧ events.length ≤ 3 * questions events ∧
      ((∃ e c', (D.alone requests requester).step c e c') ∨
        ∃ plan, c.phase = .settling plan ∧ ¬ c.plane.Open plan ∧
          ∃ q ∈ D.controller.servingUnion requests s.sensor.directory,
            q.pub ≠ 0 ∧ q.volume ≠ requester) := by
  have hunheld : ∃ r ∈ requests, D.controller.Unheld r s.sensor.directory := by
    obtain ⟨r, hmem, hr⟩ := hr
    exact ⟨r, hmem, fun q hq => (hr q hq).1⟩
  have hretries := retries_of_alone hC hO h hunheld hrun
  have hcounted := hretries.counted
  exact ⟨hretries.turning.1, by omega, hretries.goes_on⟩

end

/-- The steps of a call alone that compute. -/
def Dedup.aloneNext [LinearOrder ν] (D : Dedup δ ρ ν) (requests : List ρ) (requester : ν)
    (c : Call δ ν) : CallEvent δ ρ ν → Option (Call δ ν)
  | .fetched .returned => none
  | .fetched .raised => none
  | e => D.move requests requester c e

theorem Dedup.aloneStep_of_next [LinearOrder ν] {D : Dedup δ ρ ν} {requests : List ρ}
    {requester : ν} (c : Call δ ν) (e : CallEvent δ ρ ν) (c' : Call δ ν)
    (h : D.aloneNext requests requester c e = some c') :
    (D.alone requests requester).step c e c' := by
  cases e with
  | other e => exact ⟨h, fun _ he => nomatch he⟩
  | asked => exact ⟨h, fun _ he => nomatch he⟩
  | settled => exact ⟨h, fun _ he => nomatch he⟩
  | fetched outcome =>
      cases outcome with
      | returned => cases h
      | raised => cases h
      | keyError => exact ⟨h, fun _ he _ => (CallEvent.fetched.inj he).symm⟩
  | stored outcome => exact ⟨h, fun _ he => nomatch he⟩

theorem keyController_offers (ν : Type*) [DecidableEq ν] : (keyController ν).Offers where
  put _ _ v d q hq := by
    rw [keyController, List.mem_dedup, ← List.append_assoc, List.mem_append,
      List.mem_singleton] at hq
    exact hq.imp_left List.mem_dedup.mpr
  delete _ n d q hq := by
    rw [keyController, List.mem_dedup, List.mem_append, List.mem_filter] at hq
    exact List.mem_dedup.mpr (List.mem_append.mpr (hq.imp_right And.left))

/-- Nothing decided yet, over a directory whose key nobody holds. -/
def atNobody : State (KeyDirectory ℕ) ℕ :=
  ⟨⟨⟨[], [], 0⟩, Dict.empty⟩, FanoutSensor.new 1, Dispatcher.new, []⟩

theorem atNobody_fresh : (oneKey 1).Fresh atNobody :=
  ⟨(fun _ hp => List.not_mem_nil hp), rfl, rfl, rfl, rfl⟩

/-- Twice asked, and still not over. -/
theorem unheld_asked_again :
    ∃ c : Call (KeyDirectory ℕ) ℕ, c.handed = [⟨1, 1⟩, ⟨2, 1⟩] ∧ ¬ c.phase.Ended := by
  have hrun : (Machine.replay ((oneKey 1).aloneNext [()] 1) (.start [()] atNobody)
      [.asked, .settled, .fetched .keyError, .asked]).map
        (fun c => decide (c.handed = [⟨1, 1⟩, ⟨2, 1⟩])) = some true := by decide +kernel
  obtain ⟨c, hc, hval⟩ := Option.map_eq_some_iff.mp hrun
  have htrace := Machine.Trace.of_replay (M := (oneKey 1).alone [()] 1)
    Dedup.aloneStep_of_next _ .nil hc
  have hunheld : ∃ r ∈ [()], ∀ q ∈ (oneKey 1).controller.servingUnion [r]
      atNobody.sensor.directory, q.pub ≠ 0 ∧ q.volume = 1 := ⟨(), by decide, by decide⟩
  exact ⟨c, of_decide_eq_true hval, (unheld_never_ends (keyController_documented ℕ)
    (keyController_offers ℕ) (.init atNobody_fresh) hunheld htrace).1⟩

/-- Nobody holds the key and nothing offers it: reader `1` has not ended after any
number of moves, can always take another, and asks in every third. -/
theorem nobody_never_ends :
    (oneKey 1).machine.Reachable atNobody ∧
      (oneKey 1).controller.servingUnion [()] atNobody.sensor.directory = [] ∧
      ∀ events c, ((oneKey 1).alone [()] 1).Trace (.start [()] atNobody) events c →
        ¬ c.phase.Ended ∧ events.length ≤ 3 * questions events ∧
          ∃ e c', ((oneKey 1).alone [()] 1).step c e c' := by
  have hreach : (oneKey 1).machine.Reachable atNobody := .init atNobody_fresh
  refine ⟨hreach, rfl, fun events c hrun => ?_⟩
  have hretries := retries_of_alone (keyController_documented ℕ) (keyController_offers ℕ) hreach
    ⟨(), List.mem_singleton_self _, fun q hq => (nomatch hq)⟩ hrun
  have hcounted := hretries.counted
  refine ⟨hretries.turning.1, by omega, hretries.goes_on.resolve_right ?_⟩
  rintro ⟨_, _, _, q, hq, _⟩
  cases hq

end Toso.DedupSim
