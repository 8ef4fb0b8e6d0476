/-
  Toso.DedupSim.FanoutCap — how many readers wait behind one volume.

  The ranking skips a pending source whose volume has `fanout_cap` readers
  counted on it.  The count is of assignments: a decision assigns its requester
  to the volume it reads first, in place of whatever the requester was assigned
  to before.  So the count falls short of the readers that wait in two ways: a
  gate publication of another volume than the first is not counted, and a
  requester routed again leaves the count while its earlier publication waits.

  Main results:
    * `waiting_le_named` — where every wait is charged, the readers waiting
      behind a volume are at most the readers counted on it.
    * `charged_run_capped` — the cap holds in every run whose decisions avoid
      both.
    * `cap_overrun` — it fails in a run that routes one requester twice.
-/
import Toso.DedupSim.Routing

namespace Toso.DedupSim

open Lib Toso.Proposed

variable {δ ρ ν : Type*}

/-! ## §1. Readers waiting behind a volume. -/

variable [LinearOrder ν]

/-- The completion of a pending publication of volume `v`. -/
def State.landsOn (s : State δ ν) (v : ν) : Action ν → Bool
  | .published q => q.volume = v && s.sensor.isInFlight q
  | .asked _ => false
  | .routed .. => false

/-- The distinct unpublished publications whose gate still waits on a pending
publication of `v`. -/
def State.waitingOn (s : State δ ν) (v : ν) : List (Publication ν) :=
  ((s.plans.filter fun plan => s.sensor.isInFlight plan.publication &&
    (s.missing plan).any (s.landsOn v)).map ReadPlan.publication).dedup

theorem State.mem_waitingOn {s : State δ ν} {v : ν} {p : Publication ν} :
    p ∈ s.waitingOn v ↔ s.Unpublished p ∧ ∃ plan ∈ s.plans, plan.publication = p ∧
      ∃ q, .published q ∈ s.missing plan ∧ q.volume = v ∧ s.Unpublished q := by
  unfold State.waitingOn
  rw [List.mem_dedup, List.mem_map]
  constructor
  · intro h
    obtain ⟨plan, hplan, rfl⟩ := h
    rw [List.mem_filter, Bool.and_eq_true, List.any_eq_true] at hplan
    obtain ⟨hmem, hin, a, ha, hlands⟩ := hplan
    cases a with
    | published q =>
        simp only [State.landsOn, Bool.and_eq_true, decide_eq_true_eq] at hlands
        exact ⟨hin, plan, hmem, rfl, q, ha, hlands.1, hlands.2⟩
    | asked _ => cases hlands
    | routed _ _ _ _ => cases hlands
  · intro h
    obtain ⟨hin, plan, hplan, rfl, q, hq, hv, hqin⟩ := h
    refine ⟨plan, ?_, rfl⟩
    rw [List.mem_filter, Bool.and_eq_true, List.any_eq_true]
    refine ⟨hplan, hin, .published q, hq, ?_⟩
    simp only [State.landsOn, Bool.and_eq_true, decide_eq_true_eq]
    exact ⟨hv, hqin⟩

/-! ## §2. Waits that are charged. -/

/-- **Every wait is charged**: what the gate of an unpublished publication still
misses stands in its gate entry, under its volume. -/
def Charged (s : State δ ν) : Prop :=
  ∀ plan ∈ s.plans, s.Unpublished plan.publication →
    ∀ q, .published q ∈ s.missing plan → q ∈ s.fanout.gatePubs plan.publication q.volume

/-- **The count covers the readers that wait.** -/
theorem waiting_le_named {D : Dedup δ ρ ν} {s : State δ ν} (h : Coherent D s)
    (hc : Charged s) (v : ν) : ((s.waitingOn v).length : ℤ) ≤ s.fanout.named v := by
  apply h.fanout.waiting_le v _ (List.nodup_dedup _)
  intro p hp
  obtain ⟨hin, plan, hplan, rfl, q, hq, rfl, _⟩ := State.mem_waitingOn.mp hp
  exact ⟨q, hc plan hplan hin q hq⟩

/-- A decision whose waits are counted: every pending source of its cover lies in
the volume it reads first, and no earlier publication of its requester waits. -/
def Dedup.Counted (D : Dedup δ ρ ν) (s : State δ ν) : Event δ ρ ν → Prop
  | .sources requests requester =>
      (∀ q ∈ Dedup.gatePublications (D.chosen requests requester s),
        ((D.chosen requests requester s).map Publication.volume).head? = some q.volume) ∧
      (∀ plan ∈ s.plans, plan.publication.volume = requester →
        s.Unpublished plan.publication → s.missing plan = [])
  | .published _ => True
  | .written _ => True

theorem head_mem_take_eraseDups (vs : List ν) (v : ν) (h : vs.head? = some v) :
    v ∈ vs.eraseDups.take 1 := by
  cases vs with
  | nil => cases h
  | cons w ws =>
      rw [List.head?_cons, Option.some.injEq] at h
      rw [List.eraseDups_cons, h]
      exact List.mem_cons_self

/-- What waits after a decision waited before it, unless it is the new plan. -/
theorem Dedup.Decision.waits_before {D : Dedup δ ρ ν} (hC : D.controller.Documented)
    {s s' : State δ ν} (h : Coherent D s) {requests : List ρ} {requester : ν}
    {plan : ReadPlan ν} {arrival : ℚ} (hd : D.Decision requests requester s s' plan arrival)
    {old : ReadPlan ν} (hold : old ∈ s.plans) (hin : s'.Unpublished old.publication) :
    s.Unpublished old.publication ∧ ∀ a ∈ s'.missing old, a ∈ s.missing old := by
  obtain ⟨_, hfresh, _, hflight⟩ := h.tracks.declared hC requester requests
  refine ⟨?_, ?_⟩
  · have hcases : s.Unpublished old.publication ∨
        old.publication = (s.sensor.declare D.controller requester requests).1 := by
      apply (hflight old.publication).mp
      have hsensor : s'.sensor = (D.declared requests requester s).2.sensor := hd.sensor
      unfold State.Unpublished at hin
      rw [hsensor] at hin
      exact hin
    rcases hcases with hb | heq
    · exact hb
    · -- the new id is above every issued one
      have hle := (h.issued old hold).1
      rw [heq] at hle
      omega
  · intro a ha
    cases hready : old.ready with
    | none =>
        rw [State.missing_of_none hready] at ha
        cases ha
    | some n =>
        obtain ⟨hlen, hreg⟩ := h.parked old hold n hready
        rw [State.missing_of_ready hready] at ha ⊢
        exact (hd.old_gate hlen hreg).2.2 a ha

/-- **A counted decision charges its waits.** -/
theorem Charged.decided {D : Dedup δ ρ ν} (hC : D.controller.Documented) {s s' : State δ ν}
    (h : Coherent D s) (hc : Charged s) {requests : List ρ} {requester : ν}
    {plan : ReadPlan ν} {arrival : ℚ} (hd : D.Decision requests requester s s' plan arrival)
    (hok : D.Counted s (.sources requests requester)) : Charged s' := by
  obtain ⟨hfirst, hidle⟩ := hok
  obtain ⟨fanout, hrouted, _, _, _, _, hgates⟩ := FanoutSensor.routed_sound h.fanout
    plan.publication plan.sources
    (Dedup.gatePublications (D.chosen requests requester s)) arrival
  have hfan : s'.fanout = fanout := Option.some.inj (hd.routed.symm.trans hrouted)
  have hvol : plan.publication.volume = requester := by
    rw [hd.publication]
    exact (h.tracks.declared hC requester requests).1
  intro old hold hin q hq
  rw [hd.plans] at hold
  rw [hfan]
  rcases List.mem_append.mp hold with hold | hold
  · obtain ⟨hbefore, hsub⟩ := hd.waits_before hC h hold hin
    have hmiss := hsub _ hq
    -- an earlier wait of the same requester would be dropped: there is none
    have hne : old.publication.volume ≠ plan.publication.volume := by
      intro heq
      have hnone := hidle old hold (heq.trans hvol) hbefore
      rw [hnone] at hmiss
      cases hmiss
    rw [FanoutSensor.gatePubs_routed_other hgates hne]
    exact hc old hold hbefore q hmiss
  · rw [List.mem_singleton] at hold
    subst hold
    cases hready : old.ready with
    | none =>
        rw [State.missing_of_none hready] at hq
        cases hq
    | some n =>
        rw [State.missing_of_ready hready] at hq
        obtain ⟨x, hx, heq⟩ := ((hd.new_gate hready).2.2 _).mp hq
        cases heq
        apply FanoutSensor.gatePubs_routed_self hgates hx
        rw [hd.sources]
        exact head_mem_take_eraseDups _ _ (hfirst q hx)

/-- A completion takes what landed off gate and entry alike. -/
theorem Charged.landed {D : Dedup δ ρ ν} (hC : D.controller.Documented) {s s' : State δ ν}
    (h : Coherent D s) (hc : Charged s) {p : Publication ν}
    (hd : D.dispatch (.published p) s = some s') :
    Charged s' ∧ ∀ v, ∀ x ∈ s'.waitingOn v, x ∈ s.waitingOn v := by
  obtain ⟨hfan, hsensor, hdisp, hplans⟩ := published_cases hd
  obtain ⟨fanout, hpub, _, _, _, hkeep⟩ := FanoutSensor.published_sound h.fanout p
  have heq : s'.fanout = fanout := Option.some.inj (hfan.symm.trans hpub)
  have hunp : ∀ q, s'.Unpublished q → s.Unpublished q := by
    intro q hq
    unfold State.Unpublished at hq
    rw [hsensor] at hq
    exact (((h.tracks.retired hC p).2 q).mp hq).1
  have hmiss : ∀ plan ∈ s.plans, ∀ a, a ∈ s'.missing plan →
      a ∈ s.missing plan ∧ a ≠ .published p := by
    intro plan hplan a ha
    cases hready : plan.ready with
    | none =>
        rw [State.missing_of_none hready] at ha
        cases ha
    | some n =>
        rw [State.missing_of_ready hready] at ha ⊢
        rw [hdisp, Dispatcher.missing_commit (h.parked plan hplan n hready).2,
          List.mem_filter, decide_eq_true_iff] at ha
        exact ha
  refine ⟨?_, ?_⟩
  · intro plan hplan hin q hq
    rw [hplans] at hplan
    obtain ⟨hq', hne⟩ := hmiss plan hplan _ hq
    rw [heq]
    apply hkeep
    · intro hqp
      exact hne (by rw [hqp])
    · exact hc plan hplan (hunp _ hin) q hq'
  · intro v x hx
    obtain ⟨hin, plan, hplan, hown, q, hq, hv, hqin⟩ := State.mem_waitingOn.mp hx
    rw [hplans] at hplan
    exact State.mem_waitingOn.mpr
      ⟨hunp x hin, plan, hplan, hown, q, (hmiss plan hplan _ hq).1, hv, hunp q hqin⟩

/-! ## §3. The cap. -/

/-- The invariant of a run whose waits are all counted. -/
structure Capped (D : Dedup δ ρ ν) (s : State δ ν) : Prop where
  coherent : Coherent D s
  charged : Charged s
  capped : ∀ v, ((s.waitingOn v).length : ℤ) ≤ D.fanoutCap

/-- A counted decision keeps the readers waiting behind a volume under the cap:
it adds one where the count left room, and none elsewhere. -/
theorem Capped.decided {D : Dedup δ ρ ν} (hC : D.controller.Documented) {s s' : State δ ν}
    (h : Capped D s) {requests : List ρ} {requester : ν} {plan : ReadPlan ν} {arrival : ℚ}
    (hd : D.Decision requests requester s s' plan arrival)
    (hok : D.Counted s (.sources requests requester)) : Capped D s' := by
  have hcoh := h.coherent.decided hC hd
  refine ⟨hcoh, h.charged.decided hC h.coherent hd hok, ?_⟩
  intro v
  -- everything that waits on `v` now waited before, or is the new publication
  have hsplit : ∀ x ∈ s'.waitingOn v, x ∈ s.waitingOn v ∨ (x = plan.publication ∧
      s.fanout.named v < D.fanoutCap) := by
    intro x hx
    obtain ⟨hin, own, hown, rfl, q, hq, hv, hqin⟩ := State.mem_waitingOn.mp hx
    rw [hd.plans] at hown
    rcases List.mem_append.mp hown with hold | hnew
    · obtain ⟨hbefore, hsub⟩ := hd.waits_before hC h.coherent hold hin
      have hmiss := hsub _ hq
      obtain ⟨y, hy, _, hyin⟩ := h.coherent.earlier own hold _ hmiss
      cases hy
      exact .inl (State.mem_waitingOn.mpr ⟨hbefore, own, hold, rfl, q, hmiss, hv, hyin⟩)
    · rw [List.mem_singleton] at hnew
      subst hnew
      refine .inr ⟨rfl, ?_⟩
      cases hready : own.ready with
      | none =>
          rw [State.missing_of_none hready] at hq
          cases hq
      | some n =>
          rw [State.missing_of_ready hready] at hq
          obtain ⟨y, hy, heq⟩ := ((hd.new_gate hready).2.2 _).mp hq
          cases heq
          have hroom := (Dedup.chosen_room hC hy).1
          rw [hv, h.coherent.cap] at hroom
          exact hroom
  have hnd : (s'.waitingOn v).Nodup := List.nodup_dedup _
  by_cases hroom : s.fanout.named v < D.fanoutCap
  · -- one more at most, and the count left room for it
    have hsub : s'.waitingOn v ⊆ plan.publication :: s.waitingOn v := by
      intro x hx
      rcases hsplit x hx with hb | ⟨rfl, _⟩
      · exact List.mem_cons_of_mem _ hb
      · exact List.mem_cons_self
    have hlen := (List.subperm_of_subset hnd hsub).length_le
    have hcount := waiting_le_named h.coherent h.charged v
    rw [List.length_cons] at hlen
    omega
  · have hsub : s'.waitingOn v ⊆ s.waitingOn v := by
      intro x hx
      rcases hsplit x hx with hb | ⟨_, hlt⟩
      · exact hb
      · exact absurd hlt hroom
    have hlen := (List.subperm_of_subset hnd hsub).length_le
    have hcap := h.capped v
    omega

/-- **Every counted step keeps the cap.** -/
theorem Capped.step {D : Dedup δ ρ ν} (hC : D.controller.Documented) {s s' : State δ ν}
    {e : Event δ ρ ν} (h : Capped D s) (hok : D.Counted s e) (hs : D.Step s e s') :
    Capped D s' := by
  have hcoh := h.coherent.step hC hs
  cases e with
  | sources requests requester =>
      obtain ⟨plan, hplan⟩ := hs
      obtain ⟨arrival, hd⟩ := Dedup.decide_cases hC hplan
      exact h.decided hC hd hok
  | published p =>
      obtain ⟨_, hd⟩ := hs
      obtain ⟨hcharged, hsub⟩ := h.charged.landed hC h.coherent hd
      refine ⟨hcoh, hcharged, ?_⟩
      intro v
      have hnd : (s'.waitingOn v).Nodup := List.nodup_dedup _
      have hlen := (List.subperm_of_subset hnd (hsub v)).length_le
      have hcap := h.capped v
      omega
  | written directory =>
      obtain ⟨_, rfl⟩ := hs
      exact ⟨hcoh, h.charged, h.capped⟩

theorem Capped.init {D : Dedup δ ρ ν} (hcap : 1 ≤ D.fanoutCap) {s : State δ ν}
    (h : D.Fresh s) : Capped D s := by
  refine ⟨.init h, ?_, ?_⟩
  · intro plan hplan
    rw [h.plans] at hplan
    cases hplan
  · intro v
    have hnil : s.waitingOn v = [] := by
      unfold State.waitingOn
      rw [h.plans]
      rfl
    rw [hnil]
    show (0 : ℤ) ≤ _
    omega

/-- **The fan-out cap**, in every run whose decisions are all counted: at most
`fanout_cap` unpublished publications wait behind any volume. -/
theorem charged_run_capped {D : Dedup δ ρ ν} (hC : D.controller.Documented)
    (hcap : 1 ≤ D.fanoutCap) {s : State δ ν}
    (h : (D.machine.guarded D.Counted).Reachable s) (v : ν) :
    ((s.waitingOn v).length : ℤ) ≤ D.fanoutCap := by
  have hcapped : Capped D s :=
    h.guarded_invariant (fun _ hfresh => .init hcap hfresh)
      fun _ _ _ hinv hok hst => hinv.step hC hok hst
  exact hcapped.capped v

instance (D : Dedup δ ρ ν) (s : State δ ν) :
    ∀ e, Decidable (D.Counted s e)
  | .sources requests requester => inferInstanceAs (Decidable
      ((∀ q ∈ Dedup.gatePublications (D.chosen requests requester s), _ = _) ∧
        ∀ plan ∈ s.plans, _ = _ → s.sensor.isInFlight plan.publication = true → _ = _))
  | .published _ => .isTrue trivial
  | .written _ => .isTrue trivial

/-- Readers `2` and `3` both wait behind reader `1`, whose volume takes two. -/
theorem charged_run_full :
    ∃ s : State (KeyDirectory ℕ) ℕ, (s.waitingOn 1).length = 2 ∧
      ∀ v, ((s.waitingOn v).length : ℤ) ≤ 2 := by
  have hrun : (Machine.replay (Machine.guardedNext (oneKey 2).Counted (oneKey 2).next)
      (atOrigin 2) [.sources [()] 1, .sources [()] 2, .sources [()] 3]).map
        (fun t => (t.waitingOn 1).length) = some 2 := by decide +kernel
  obtain ⟨t, ht, hval⟩ := Option.map_eq_some_iff.mp hrun
  exact ⟨t, hval, charged_run_capped (D := oneKey 2) (keyController_documented ℕ) (by decide)
    (Machine.Reachable.of_guarded_replay Dedup.step_of_next _ (.init (atOrigin_fresh 2)) ht)⟩

/-- **The overrun**: reader `2` waits behind reader `1` and is routed again, to
the origin, which takes it off the count of reader `1`; reader `3` then waits
behind reader `1` too, under a cap of one. -/
theorem cap_overrun :
    ¬ ∀ D : Dedup (KeyDirectory ℕ) Unit ℕ, D.controller.Documented → 1 ≤ D.fanoutCap →
        ∀ s, D.machine.Reachable s → ∀ v, ((s.waitingOn v).length : ℤ) ≤ D.fanoutCap := by
  intro hall
  have hrun : (Machine.replay (oneKey 1).next (atOrigin 1)
      [.sources [()] 1, .sources [()] 2, .sources [()] 2, .sources [()] 3]).map
        (fun t => (t.waitingOn 1).length) = some 2 := by decide +kernel
  obtain ⟨t, ht, hval⟩ := Option.map_eq_some_iff.mp hrun
  have hreach : (oneKey 1).machine.Reachable t :=
    Machine.Reachable.of_replay Dedup.step_of_next _ (.init (atOrigin_fresh 1)) ht
  have hle := hall (oneKey 1) (keyController_documented ℕ) (le_refl 1) t hreach 1
  have hcap : (oneKey 1).fanoutCap = 1 := rfl
  omega

end Toso.DedupSim
