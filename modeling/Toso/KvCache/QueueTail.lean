/-
  Toso.KvCache.QueueTail — what was promised of an instance, and the tail control sees.

  Control prices a prefill behind the predicted tail of its instance and commits
  to the completion it predicts.  The tail is moved by four folds: a commitment
  and a decode step of a coupled host assign it, a completion only raises it, and
  a batch report ignores it.  The hosts are modelled as far as they report: the
  occupancy of each instance's device, and the end of a booked step on its way to
  the sensor.

  Main results:
    * `priced_behind` — a commitment starts where the tail ends, or later.
    * `bookedAt_next` — the one report that can un-book a promise.
    * `tail_covers` — while no such report is folded, the tail covers every
      promise; where no host is coupled it always does.
    * `promise_unbooked` — a step booked in front of a queued prefill un-books it.
-/
import Toso.KvCache.Prefill
import Toso.Lib.Machine

namespace Toso.KvCache

open Lib Proposed SimCommon Domain

variable {ν ι κ : Type*}

/-! ## §1. A commitment, priced behind the tail. -/

theorem prefillTime_nonneg (tokens : ℕ) (profile : MachineProfile) (model : Model) :
    0 ≤ prefillTime tokens profile model := by
  unfold prefillTime
  split
  · exact le_rfl
  · exact le_max_right _ _

theorem readTime_nonneg {profile : MachineProfile} (hp : profile.Sound) (src dst : Endpoint)
    (nbytes : ℕ) : 0 ≤ readTime src dst nbytes profile := by
  unfold readTime
  split
  · exact le_rfl
  · exact add_nonneg (add_nonneg (storageTime_nonneg hp nbytes _) (memCopyTime_nonneg hp nbytes))
      (networkTime_nonneg hp src dst nbytes)

/-- A candidate waits for the tail, then pulls and prefills. -/
theorem candidate_behind [DecidableEq ι] {p : Pricing ι} (hp : p.profile.Sound)
    (cluster : ClusterSensor ι) (request : Request ν κ) (inst : ι) (now : ℚ) (reused : ℕ)
    (source : Option ι) (pullKeys : List κ) :
    let plan := candidate p cluster request inst now reused source pullKeys
    now + plan.queueWait = max now (cluster.busyUntil inst) ∧
      max now (cluster.busyUntil inst) ≤ plan.doneTime := by
  have hdone : ∀ transferT : ℚ, 0 ≤ transferT → ∀ tokens : ℕ,
      max now (cluster.busyUntil inst) ≤ max now (cluster.busyUntil inst) + transferT
        + prefillTime tokens p.profile p.model := by
    intro transferT htransfer tokens
    have hprefill := prefillTime_nonneg tokens p.profile p.model
    rw [add_assoc]
    exact le_add_of_nonneg_right (add_nonneg htransfer hprefill)
  cases source with
  | none => exact ⟨add_sub_cancel _ _, hdone 0 le_rfl _⟩
  | some src =>
      by_cases hk : pullKeys = []
      · simp only [candidate, hk, if_true]
        exact ⟨add_sub_cancel _ _, hdone 0 le_rfl _⟩
      · simp only [candidate, hk, if_false]
        exact ⟨add_sub_cancel _ _, hdone _ (readTime_nonneg hp _ _ _) _⟩

section Decide

variable [LinearOrder ι] [DecidableEq κ] [DecidableEq ν]

/-- **A commitment** starts where the tail of its instance ends, or later. -/
theorem priced_behind {cfg : Settings ι} (hcfg : cfg.profile.Sound) {s : Scheduler ν ι κ}
    {located : κ → List ι} {now : ℚ} {request : Request ν κ} {requester : ι}
    {d : Scheduler.Decided ν ι κ} (h : s.decide cfg located now request requester = .ok d) :
    (d.dispatched = [] ∧ d.plane.cluster = s.cluster) ∨
      ∃ response, d.dispatched = [.committed response request.outputTokens] ∧
        d.plane.cluster = s.cluster.fold (.committed response request.outputTokens : Action ι κ) ∧
        now + response.plan.queueWait = max now (s.cluster.busyUntil response.prefill) ∧
        max now (s.cluster.busyUntil response.prefill) ≤ response.plan.doneTime := by
  rcases Scheduler.decide_cases h with ⟨placed, _, rfl⟩ | ⟨_, rfl⟩ | ⟨hplaced, response, rfl⟩
  · exact .inl ⟨rfl, rfl⟩
  · exact .inl ⟨rfl, rfl⟩
  · refine .inr ⟨response, rfl, Scheduler.book_cluster s request requester response, ?_⟩
    have hprice : s.price cfg located now request requester
        = .ok (s.book request requester response) := by
      unfold Scheduler.decide at h
      rw [hplaced] at h
      exact h
    obtain ⟨plan, ⟨peer, _, hplan⟩, heq⟩ := price_plan hprice rfl
    have hon := hplan response.prefill
    unfold planOn at hon
    cases hpeer : peer.require (worthPulling (prefixLengthsOf located request.blockKeys)
        response.prefill cfg.pricing.threshold) with
    | error e =>
        rw [hpeer] at hon
        cases hon
    | ok named =>
        rw [hpeer] at hon
        rw [heq, ← Except.ok.inj hon]
        exact candidate_behind hcfg s.cluster request response.prefill now _ _ _

/-! ## §2. The hosts, as far as they report. -/

/-- A run: the control plane, and of each instance the occupancy of the device it prefills
on, the end of a step whose announcement its loop is waiting for, and what was promised of
it since it last reported a completion. -/
structure Hosts (ν ι κ : Type*) where
  clock : ℚ
  plane : Scheduler ν ι κ
  device : ι → ℚ
  announced : ι → Option ℚ
  promised : ι → List ℚ

namespace Hosts

/-- What can happen next. -/
inductive Event (ν ι κ : Type*)
  /-- `decide` is asked. -/
  | decide (request : Request ν κ) (requester : ι) (located : κ → List ι)
  /-- `sources` is asked. -/
  | fetch (keys : List κ) (requester : ι) (located : κ → List ι)
  /-- A forward pass has its turn: `claim_prefill`. -/
  | prefill (inst : ι) (cost : ℚ)
  /-- `PrefillFinished` is folded. -/
  | finished (inst : ι) (seen : ℚ)
  /-- `claim_step`; a coupled host goes on to announce it. -/
  | step (inst : ι) (cost : ℚ)
  /-- `ComputeBusy` is folded. -/
  | busy (inst : ι)
  /-- `DecodeState` is folded. -/
  | decodeState (inst : ι) (finishes : List ℚ)
  | tick (now : ℚ)

/-- What an action adds to, or takes off, what is promised. -/
def promise (promised : ι → List ℚ) : Action ι κ → ι → List ℚ
  | .committed response _ => Function.update promised response.prefill
      (promised response.prefill ++ [response.plan.doneTime])
  | .prefillFinished inst _ => Function.update promised inst []
  | _ => promised

/-- One step, where it is enabled.  `coupled` tells whose decode steps are booked on the
device it prefills on; a step loop announces one step at a time. -/
def next (cfg : Settings ι) (coupled : ι → Bool) (s : Hosts ν ι κ) :
    Event ν ι κ → Option (Hosts ν ι κ)
  | .decide request requester located =>
      match s.plane.decide cfg located s.clock request requester with
      | .error _ => some s
      | .ok d => some { s with
          plane := d.plane
          promised := d.dispatched.foldl promise s.promised }
  | .fetch keys requester located =>
      match s.plane.sources cfg located keys requester with
      | .error _ => some s
      | .ok (_, plane) => some { s with plane := plane }
  | .prefill inst cost =>
      if 0 ≤ cost then
        some { s with
          device := Function.update s.device inst (max s.clock (s.device inst) + cost) }
      else none
  | .finished inst seen =>
      if seen ≤ s.clock then
        some { s with
          plane := s.plane.dispatch (.prefillFinished inst seen)
          promised := promise s.promised (.prefillFinished inst seen : Action ι κ) }
      else none
  | .step inst cost =>
      if 0 ≤ cost ∧ s.announced inst = none then
        if coupled inst then
          some { s with
            device := Function.update s.device inst (max s.clock (s.device inst) + cost)
            announced := Function.update s.announced inst
              (some (max s.clock (s.device inst) + cost)) }
        else some s
      else none
  | .busy inst =>
      (s.announced inst).map fun busyUntil => { s with
        plane := s.plane.dispatch (.computeBusy inst busyUntil)
        announced := Function.update s.announced inst none }
  | .decodeState inst finishes =>
      some { s with plane := s.plane.dispatch (.decodeState inst finishes) }
  | .tick now => if s.clock ≤ now then some { s with clock := now } else none

/-- The runs of a fresh cluster. -/
def machine (cfg : Settings ι) (coupled : ι → Bool) :
    Machine (Hosts ν ι κ) (Event ν ι κ) :=
  .ofPartial (fun s => ∃ now device,
    s = ⟨now, Scheduler.attach cfg, device, fun _ => none, fun _ => []⟩) (next cfg coupled)

/-- The tail of an instance covers what was promised of it. -/
def BookedAt (s : Hosts ν ι κ) (inst : ι) : Prop :=
  ∀ done ∈ s.promised inst, done ≤ s.plane.cluster.busyUntil inst

/-- No promise was un-booked. -/
def Booked (s : Hosts ν ι κ) : Prop := ∀ inst, s.BookedAt inst

/-- A step announced while the device's own timeline has not yet reached what was promised
of its instance is not folded. -/
def CaughtUp (s : Hosts ν ι κ) : Event ν ι κ → Prop
  | .busy inst => ∀ busyUntil ∈ s.announced inst, ∀ done ∈ s.promised inst, done ≤ busyUntil
  | _ => True

instance (s : Hosts ν ι κ) : DecidablePred s.CaughtUp := fun e => by
  cases e <;> unfold CaughtUp <;> infer_instance

/-! ## §3. Which reports un-book. -/

omit [DecidableEq κ] in
/-- The tail of an instance a report does not name stands. -/
theorem fold_computeBusy_ne (c : ClusterSensor ι) {inst inst' : ι} (h : inst ≠ inst')
    (busyUntil : ℚ) :
    (c.fold (.computeBusy inst' busyUntil : Action ι κ)).busyUntil inst = c.busyUntil inst :=
  Function.update_of_ne h _ _

omit [DecidableEq κ] in
theorem fold_prefillFinished_ne (c : ClusterSensor ι) {inst inst' : ι} (h : inst ≠ inst')
    (seen : ℚ) :
    (c.fold (.prefillFinished inst' seen : Action ι κ)).busyUntil inst = c.busyUntil inst := by
  unfold ClusterSensor.fold
  simp only
  split
  · exact Function.update_of_ne h _ _
  · rfl

/-- **The one report that can un-book a promise** is the instance's own decode step, and it
does exactly when it ends before something promised. -/
theorem bookedAt_next {cfg : Settings ι} (hcfg : cfg.profile.Sound) {coupled : ι → Bool}
    {s t : Hosts ν ι κ} {e : Event ν ι κ} (hs : next cfg coupled s e = some t) {inst : ι}
    (h : s.BookedAt inst) :
    t.BookedAt inst ∨ ∃ busyUntil, e = .busy inst ∧ s.announced inst = some busyUntil ∧
      (t.BookedAt inst ↔ ∀ done ∈ s.promised inst, done ≤ busyUntil) := by
  cases e with
  | decide request requester located =>
      refine .inl ?_
      unfold next at hs
      cases hd : s.plane.decide cfg located s.clock request requester with
      | error e =>
          simp only [hd, Option.some.injEq] at hs
          exact hs ▸ h
      | ok d =>
          simp only [hd, Option.some.injEq] at hs
          subst hs
          -- nothing was booked, or a pass was booked behind the tail
          rcases priced_behind hcfg hd with ⟨hnone, hcluster⟩ | ⟨r, hdisp, hcluster, _, hdone⟩
          · intro done hdone
            rw [hnone] at hdone
            rw [show _ = s.plane.cluster from hcluster]
            exact h done hdone
          · intro done hin
            rw [hdisp] at hin
            rw [show _ = s.plane.cluster.fold _ from hcluster]
            have hin' : done ∈ Function.update s.promised r.prefill
                (s.promised r.prefill ++ [r.plan.doneTime]) inst := hin
            show done ≤ Function.update s.plane.cluster.busyUntil r.prefill r.plan.doneTime inst
            by_cases heq : inst = r.prefill
            · -- a promise made earlier is within the tail the new one starts behind
              subst heq
              rw [Function.update_self] at hin' ⊢
              rcases List.mem_append.mp hin' with hold | hnew
              · exact (h done hold).trans ((le_max_right _ _).trans hdone)
              · exact (List.mem_singleton.mp hnew).le
            · rw [Function.update_of_ne heq] at hin' ⊢
              exact h done hin'
  | fetch keys requester located =>
      refine .inl ?_
      unfold next at hs
      obtain ⟨answer, hsources, _⟩ := Scheduler.sources_eq cfg s.plane located keys requester
      simp only [hsources, Option.some.injEq] at hs
      subst hs
      exact h
  | prefill inst' cost =>
      obtain ⟨_, hs⟩ := Option.ite_none_right_eq_some.mp hs
      cases hs
      exact .inl h
  | finished inst' seen =>
      refine .inl ?_
      obtain ⟨_, hs⟩ := Option.ite_none_right_eq_some.mp hs
      cases hs
      intro done hin
      have hin' : done ∈ Function.update s.promised inst' [] inst := hin
      by_cases heq : inst = inst'
      · subst heq
        rw [Function.update_self] at hin'
        cases hin'
      · rw [Function.update_of_ne heq] at hin'
        exact (h done hin').trans (fold_prefillFinished_ne (κ := κ) s.plane.cluster heq seen).ge
  | step inst' cost =>
      refine .inl ?_
      obtain ⟨_, hs⟩ := Option.ite_none_right_eq_some.mp hs
      -- a step moves the device, and only a report moves the tail
      by_cases hc : coupled inst' = true
      · rw [if_pos hc] at hs
        cases hs
        exact h
      · rw [if_neg hc] at hs
        cases hs
        exact h
  | busy inst' =>
      obtain ⟨busyUntil, hann, rfl⟩ := Option.map_eq_some_iff.mp hs
      by_cases heq : inst = inst'
      · subst heq
        refine .inr ⟨busyUntil, rfl, hann, ?_⟩
        show (∀ done ∈ s.promised inst, done ≤ Function.update s.plane.cluster.busyUntil inst
          busyUntil inst) ↔ _
        rw [Function.update_self]
      · refine .inl fun done hin => ?_
        exact (h done hin).trans (fold_computeBusy_ne (κ := κ) s.plane.cluster heq busyUntil).ge
  | decodeState inst' finishes =>
      cases hs
      exact .inl h
  | tick now =>
      obtain ⟨_, hs⟩ := Option.ite_none_right_eq_some.mp hs
      cases hs
      exact .inl h

/-- Every promise stands after a step exactly when the step is not such a report. -/
theorem booked_next_iff {cfg : Settings ι} (hcfg : cfg.profile.Sound) {coupled : ι → Bool}
    {s t : Hosts ν ι κ} {e : Event ν ι κ} (hs : next cfg coupled s e = some t) (h : s.Booked) :
    t.Booked ↔ s.CaughtUp e := by
  constructor
  · intro ht
    cases e with
    | busy inst =>
        intro busyUntil hann
        rcases bookedAt_next hcfg hs (h inst) with _ | ⟨_, _, hann', hiff⟩
        · obtain ⟨u, hu, rfl⟩ := Option.map_eq_some_iff.mp hs
          rw [Option.mem_def.mp hann] at hu
          cases hu
          intro done hin
          have hle : done ≤ Function.update s.plane.cluster.busyUntil inst busyUntil inst :=
            ht inst done hin
          rw [Function.update_self] at hle
          exact hle
        · rw [hann'] at hann
          cases hann
          exact hiff.mp (ht inst)
    | _ => trivial
  · intro hok inst
    rcases bookedAt_next hcfg hs (h inst) with ht | ⟨busyUntil, rfl, hann, hiff⟩
    · exact ht
    · exact hiff.mpr (hok busyUntil hann)

/-- Only a coupled host announces its steps. -/
theorem announced_of_run {cfg : Settings ι} {coupled : ι → Bool} {s : Hosts ν ι κ}
    (h : (machine cfg coupled).Reachable s) {inst : ι} (hinst : coupled inst = false) :
    s.announced inst = none := by
  refine h.invariant (P := fun s => s.announced inst = none) ?_ fun s e t hnone hs => ?_
  · rintro _ ⟨now, device, rfl⟩
    rfl
  · cases e with
    | decide request requester located =>
        have hs' : next cfg coupled s (.decide request requester located) = some t := hs
        unfold next at hs'
        simp only at hs'
        split at hs'
        · cases hs'
          exact hnone
        · cases hs'
          exact hnone
    | fetch keys requester located =>
        have hs' : next cfg coupled s (.fetch keys requester located) = some t := hs
        unfold next at hs'
        simp only at hs'
        split at hs'
        · cases hs'
          exact hnone
        · cases hs'
          exact hnone
    | prefill inst' cost =>
        obtain ⟨_, hs⟩ := Option.ite_none_right_eq_some.mp hs
        cases hs
        exact hnone
    | finished inst' seen =>
        obtain ⟨_, hs⟩ := Option.ite_none_right_eq_some.mp hs
        cases hs
        exact hnone
    | step inst' cost =>
        obtain ⟨_, hs⟩ := Option.ite_none_right_eq_some.mp hs
        -- a step of a coupled host is announced, so it is another host's
        by_cases hc : coupled inst' = true
        · rw [if_pos hc] at hs
          cases hs
          have hne : inst ≠ inst' := by
            rintro rfl
            rw [hinst] at hc
            cases hc
          exact (Function.update_of_ne hne _ _).trans hnone
        · rw [if_neg hc] at hs
          cases hs
          exact hnone
    | busy inst' =>
        obtain ⟨busyUntil, _, rfl⟩ := Option.map_eq_some_iff.mp hs
        show Function.update s.announced inst' none inst = none
        by_cases heq : inst = inst'
        · rw [heq, Function.update_self]
        · rw [Function.update_of_ne heq]
          exact hnone
    | decodeState inst' finishes =>
        cases hs
        exact hnone
    | tick now =>
        obtain ⟨_, hs⟩ := Option.ite_none_right_eq_some.mp hs
        cases hs
        exact hnone

/-- **The tail covers every promise**, and a commitment starts behind all of them, in every
run that folds no decode step ending before something promised of its instance; of an
instance that is not coupled, in every run. -/
theorem tail_covers {cfg : Settings ι} (hcfg : cfg.profile.Sound) (coupled : ι → Bool) :
    (∀ s : Hosts ν ι κ, ((machine cfg coupled).guarded CaughtUp).Reachable s → s.Booked ∧
      ∀ located request requester d, s.plane.decide cfg located s.clock request requester = .ok d →
        ∀ response outputTokens, Action.committed response outputTokens ∈ d.dispatched →
          ∀ done ∈ s.promised response.prefill, done ≤ s.clock + response.plan.queueWait) ∧
    (∀ (s t : Hosts ν ι κ) (e : Event ν ι κ), s.Booked → next cfg coupled s e = some t →
      (t.Booked ↔ s.CaughtUp e)) ∧
    ∀ inst, coupled inst = false → ∀ s : Hosts ν ι κ, (machine cfg coupled).Reachable s →
      s.BookedAt inst := by
  refine ⟨fun s hs => ?_, fun s t e h hst => booked_next_iff hcfg hst h, fun inst hinst s hs => ?_⟩
  · have hbooked : s.Booked := by
      refine hs.guarded_invariant (P := Booked) ?_ fun s e t h hok hst =>
        (booked_next_iff hcfg hst h).mpr hok
      rintro _ ⟨now, device, rfl⟩ inst done hin
      cases hin
    refine ⟨hbooked, fun located request requester d hd response outputTokens hin done hdone => ?_⟩
    rcases priced_behind hcfg hd with ⟨hnone, _⟩ | ⟨r, hdisp, _, hwait, _⟩
    · rw [hnone] at hin
      cases hin
    · rw [hdisp, List.mem_singleton] at hin
      cases hin
      rw [hwait]
      exact (hbooked _ done hdone).trans (le_max_right _ _)
  · -- nothing is ever announced there, so nothing un-books
    induction hs with
    | init hinit =>
        obtain ⟨now, device, rfl⟩ := hinit
        intro done hin
        cases hin
    | step hreach hst ih =>
        rcases bookedAt_next hcfg hst ih with ht | ⟨busyUntil, _, hann, _⟩
        · exact ht
        · rw [announced_of_run hreach hinst] at hann
          cases hann

end Hosts

end Decide

/-! ## §4. A step in front of a queued prefill. -/

namespace Hosts

/-- One instance that prefills and decodes, on one device. -/
def coupledConfig : Settings ℕ :=
  { baselineConfig with
    prefillPool := [0]
    decodePool := [0]
    sloTtft := none
    simulateDecode := true }

/-- A prompt of two blocks nobody holds. -/
def coldRequest (tokens id : ℕ) : Request ℕ ℕ := ⟨id, 0, [10, 11], tokens, 4, tokens, "", rfl⟩

/-- What its pass costs, and a step of one request. -/
def passCost : ℚ := prefillTime 1024 defaultProfile defaultModel

def stepCost : ℚ := decodeStepTime 1 defaultProfile defaultModel

/-- Request 0 is prefilled and decodes; `ids` are decided on the same host, the first of
them has the device, and a decode step is booked behind it. -/
def behind (ids : List ℕ) : List (Event ℕ ℕ ℕ) :=
  [.decide (coldRequest 1024 0) 0 fun _ => [], .prefill 0 passCost, .tick passCost,
      .finished 0 passCost] ++ ids.map (fun id => .decide (coldRequest 1024 id) 0 fun _ => [])
    ++ [.prefill 0 passCost, .step 0 stepCost, .busy 0]

/-- The cluster the runs start from. -/
def idleHosts : Hosts ℕ ℕ ℕ :=
  ⟨0, Scheduler.attach coupledConfig, fun _ => 0, fun _ => none, fun _ => []⟩

/-- **The promise un-booked**: with two prefills committed, the step books behind the first
and its report takes the tail back to before the second. -/
theorem promise_unbooked :
    ¬ ∀ s : Hosts ℕ ℕ ℕ, (machine coupledConfig fun _ => true).Reachable s → s.Booked := by
  intro hall
  have hrun : (Machine.replay (next coupledConfig fun _ => true) idleHosts (behind [1, 2])).any
      (fun s : Hosts ℕ ℕ ℕ => decide (s.promised 0 = [2 * passCost, 3 * passCost] ∧
        s.plane.cluster.busyUntil 0 = 2 * passCost + stepCost)) = true := by
    decide +kernel
  obtain ⟨s, hs, hends⟩ := (Option.any_eq_true _ _).mp hrun
  obtain ⟨hpromised, htail⟩ := of_decide_eq_true hends
  have hbooked := hall s (Machine.Reachable.of_replay (fun _ _ _ hst => hst) _
    (.init ⟨0, fun _ => 0, rfl⟩) hs) 0 (3 * passCost) (by rw [hpromised]; simp)
  rw [htail] at hbooked
  exact absurd hbooked (by decide +kernel)

/-- One prefill committed: the step behind its pass ends after it. -/
theorem promise_covered : ∃ s : Hosts ℕ ℕ ℕ,
    s.promised 0 = [2 * passCost] ∧ s.plane.cluster.busyUntil 0 = 2 * passCost + stepCost ∧
      s.Booked := by
  have hrun : (Machine.replay (Machine.guardedNext CaughtUp (next coupledConfig fun _ => true))
      idleHosts (behind [1])).any (fun s : Hosts ℕ ℕ ℕ =>
        decide (s.promised 0 = [2 * passCost] ∧
          s.plane.cluster.busyUntil 0 = 2 * passCost + stepCost)) = true := by
    decide +kernel
  obtain ⟨s, hs, hends⟩ := (Option.any_eq_true _ _).mp hrun
  obtain ⟨hpromised, htail⟩ := of_decide_eq_true hends
  have hsound : coupledConfig.profile.Sound := defaultProfile_sound
  refine ⟨s, hpromised, htail, ((tail_covers (ν := ℕ) (κ := ℕ) hsound fun _ => true).1 s ?_).1⟩
  exact Machine.Reachable.of_guarded_replay (fun _ _ _ hst => hst) _
    (.init ⟨0, fun _ => 0, rfl⟩) hs

end Hosts

end Toso.KvCache
