/-
  Toso.KvCache.PullCost — what a pull is priced at is what it is charged.

  The control plane prices a pull by counting blocks and multiplying by the
  bytes the model says a block has.  The data plane moves tensors the
  accelerator made, and its transport charges their elements.  The two counts
  agree because the accelerator refuses a block that is not a whole number of
  elements, and the two times because the price and the charge are one formula.

  Main results:
    * `nbytes_kvBlocks` — the blocks of a pull have the bytes it was priced at.
    * `planOn_transfer` — the transfer time a plan is priced with.
    * `charge_eq_prediction` — gets, puts and pulls take what was predicted.
-/
import Toso.KvCache.Prefill
import Toso.Realsim.Transport

namespace Toso.KvCache

open Lib Proposed SimCommon Domain Store Realsim

variable {ν ι κ β : Type*}

/-! ## §1. The blocks an accelerator makes. -/

/-- What building an accelerator raises: `ValueError`, for a dtype torch does not know,
and for a block that would have to round. -/
inductive AcceleratorError
  | dtype (computeDtype : String)
  | block (text : String)
  deriving DecidableEq

/-- The text of the second. -/
def blockText (blockTokens nbytes : ℕ) (computeDtype : String) : String :=
  "a " ++ toString blockTokens ++ "-token KV block is " ++ toString nbytes ++ "B, which is not a "
    ++ "whole number of " ++ computeDtype ++ " elements: a block that has "
    ++ "to round would be charged a different size than the scheduler "
    ++ "predicted for it"

/-- The KV of a `SimulatedAccelerator`: a block is `blockNumel` elements, and they are
exactly the bytes the model says a block has. -/
structure SimulatedAccelerator (model : Model) (blockTokens : ℕ) where
  blockNumel : ℕ
  elementSize : ℕ
  whole : blockNumel * elementSize = model.blockBytes 1 blockTokens

/-- `SimulatedAccelerator`, as it is built.  `dtypes` is torch's table of element
sizes. -/
def simulatedAccelerator (dtypes : String → Option ℕ) (model : Model) (blockTokens : ℕ) :
    Except AcceleratorError (SimulatedAccelerator model blockTokens) :=
  match dtypes model.computeDtype with
  | none => .error (.dtype model.computeDtype)
  | some elementSize =>
      let nbytes := model.blockBytes 1 blockTokens
      if h : nbytes % elementSize = 0 then
        .ok ⟨nbytes / elementSize, elementSize, Nat.div_mul_cancel (Nat.dvd_of_mod_eq_zero h)⟩
      else .error (.block (blockText blockTokens nbytes model.computeDtype))

namespace SimulatedAccelerator

variable {model : Model} {blockTokens : ℕ}

/-- Whole blocks are never refused: what is built is told by the element size. -/
theorem build_eq (acc : SimulatedAccelerator model blockTokens) (dtypes : String → Option ℕ)
    (hdtype : dtypes model.computeDtype = some acc.elementSize) (hpos : 0 < acc.elementSize) :
    simulatedAccelerator dtypes model blockTokens = .ok acc := by
  obtain ⟨blockNumel, elementSize, whole⟩ := acc
  simp only at hdtype hpos
  unfold simulatedAccelerator
  simp only [hdtype, ← whole, Nat.mul_mod_left, Nat.mul_div_cancel blockNumel hpos, dif_pos]

/-- One block of `kv_blocks`. -/
def kvBlock (acc : SimulatedAccelerator model blockTokens) (contents : β) : Carrier β :=
  .tensor contents acc.blockNumel acc.elementSize

/-- **The blocks of a pull have the bytes it was priced at.** -/
theorem nbytes_kvBlocks (acc : SimulatedAccelerator model blockTokens) (contents : κ → β)
    (keys : List κ) :
    ((keys.map fun key => acc.kvBlock (contents key)).map Carrier.nbytes).sum
      = model.blockBytes keys.length blockTokens := by
  have hblock : ∀ key : κ, (acc.kvBlock (contents key)).nbytes = blockTokens * model.kvBytesPerToken := by
    intro key
    show acc.blockNumel * acc.elementSize = _
    rw [acc.whole]
    unfold Model.blockBytes
    rw [one_mul]
  induction keys with
  | nil => simp [Model.blockBytes]
  | cons key rest ih =>
      rw [List.map_cons, List.map_cons, List.sum_cons, ih, hblock]
      unfold Model.blockBytes
      rw [List.length_cons]
      ring

end SimulatedAccelerator

/-! ## §2. What a plan prices, and what the pull is charged. -/

/-- A candidate with a source is priced at one read of its pull. -/
theorem candidate_transfer {p : Pricing ι} {cluster : ClusterSensor ι} {request : Request ν κ}
    {inst src : ι} {now : ℚ} {reused : ℕ} {source : Option ι} {pullKeys : List κ} :
    let plan := candidate p cluster request inst now reused source pullKeys
    plan.reuseSource = some src →
      plan.transferBytes = p.model.blockBytes plan.pullKeys.length p.blockTokens ∧
      plan.ttft = plan.queueWait
        + readTime (p.endpoint src) (p.endpoint inst) plan.transferBytes p.profile
        + plan.prefillT := by
  intro plan hsrc
  cases source with
  | none => cases hsrc
  | some source =>
      cases pullKeys with
      | nil => cases hsrc
      | cons key rest =>
          cases hsrc
          refine ⟨rfl, ?_⟩
          simp only [plan, candidate, predict, if_neg (List.cons_ne_nil key rest)]
          ring

section Pull

variable [DecidableEq ι]

/-- **The transfer time a plan is priced with.** -/
theorem planOn_transfer {p : Pricing ι} {cluster : ClusterSensor ι} {ask : PrefillAsk ν ι κ}
    {inst src : ι} {plan : Plan ι κ} (h : planOn p cluster ask inst = .ok plan)
    (hsrc : plan.reuseSource = some src) :
    plan.transferBytes = p.model.blockBytes plan.pullKeys.length p.blockTokens ∧
      plan.ttft = plan.queueWait
        + readTime (p.endpoint src) (p.endpoint inst) plan.transferBytes p.profile
        + plan.prefillT := by
  unfold planOn at h
  cases hpeer : ask.peer.require (worthPulling ask.counts inst p.threshold) with
  | error e =>
      rw [hpeer] at h
      cases h
  | ok peer =>
      rw [hpeer] at h
      have hplan := Except.ok.inj h
      subst hplan
      exact candidate_transfer hsrc

/-- The transport of the one get that serves a pull: from the source's volume to the
host that prefills. -/
def pullTransport (p : Pricing ι) (registry : Option Contention) (collapse : Bool)
    (inst src : ι) : Transport where
  src := p.endpoint inst
  dst := p.endpoint src
  profile := p.profile
  registry := registry
  collapseCharges := collapse

/-- What fetching a plan's pull keys charges: one block of KV for each. -/
def pullCharges (p : Pricing ι) (acc : SimulatedAccelerator p.model p.blockTokens)
    (registry : Option Contention) (collapse : Bool) (contents : κ → β) (inst src : ι)
    (plan : Plan ι κ) : List (Charge ResourceKey) :=
  (pullTransport p registry collapse inst src).getCharges
    (plan.pullKeys.map fun key => acc.kvBlock (contents key))

/-- **A pull takes the transfer time its plan was priced with.** -/
theorem pull_costs {p : Pricing ι} (hp : p.profile.Sound) {cluster : ClusterSensor ι}
    {ask : PrefillAsk ν ι κ} {inst src : ι} {plan : Plan ι κ}
    (h : planOn p cluster ask inst = .ok plan) (hsrc : plan.reuseSource = some src)
    (acc : SimulatedAccelerator p.model p.blockTokens) (registry : Option Contention)
    (collapse : Bool) (contents : κ → β) (mode : Contention) :
    Costs mode (pullCharges p acc registry collapse contents inst src plan)
      (plan.ttft - plan.queueWait - plan.prefillT) := by
  obtain ⟨hbytes, hprice⟩ := planOn_transfer h hsrc
  have hpriced : plan.ttft - plan.queueWait - plan.prefillT =
      readTime (p.endpoint src) (p.endpoint inst) plan.transferBytes p.profile := by
    rw [hprice]
    ring
  rw [hpriced, hbytes, ← acc.nbytes_kvBlocks contents plan.pullKeys]
  exact Transport.get_costs (t := pullTransport p registry collapse inst src) hp mode _

/-- **Charge equals prediction.**  On any sound profile, between any two endpoints, a get
takes the profile's read time and a put the fabric's time and the write's, for payloads
of any size; so does the get that serves a plan's pull, which takes the transfer time
the plan was priced with. -/
theorem charge_eq_prediction (mode : Contention) (profile : MachineProfile)
    (hprofile : profile.Sound) :
    (∀ t : Transport, t.profile = profile → ∀ results : List (Carrier β),
      Costs mode (t.getCharges results)
        (readTime t.dst t.src (results.map Carrier.nbytes).sum profile)) ∧
    (∀ t : Transport, t.profile = profile → ∀ requests : List (Realsim.Request β),
      Costs mode (t.putCharges requests)
        (networkTime t.src t.dst (requests.map Realsim.Request.nbytes).sum profile
          + storageTime (requests.map Realsim.Request.nbytes).sum .write profile)) ∧
    ∀ (p : Pricing ι) (cluster : ClusterSensor ι) (ask : PrefillAsk ν ι κ) (inst src : ι)
      (plan : Plan ι κ), p.profile = profile → planOn p cluster ask inst = .ok plan →
      plan.reuseSource = some src →
      ∀ (acc : SimulatedAccelerator p.model p.blockTokens) (registry : Option Contention)
        (collapse : Bool) (contents : κ → β),
        Costs mode (pullCharges p acc registry collapse contents inst src plan)
          (plan.ttft - plan.queueWait - plan.prefillT) := by
  refine ⟨?_, ?_, ?_⟩
  · intro t ht results
    subst ht
    exact Transport.get_costs hprofile mode results
  · intro t ht requests
    subst ht
    exact Transport.put_costs hprofile mode requests
  · intro p cluster ask inst src plan ht hplan hsrc acc registry collapse contents
    subst ht
    exact pull_costs hprofile hplan hsrc acc registry collapse contents mode

/-- Instance 0 holds one block and instance 1 the first three: the two between are pulled,
a kilobyte in all, under progressive contention. -/
theorem charge_eq_prediction_pull :
    let p : Pricing ℕ := baselineConfig.pricing
    let ask : PrefillAsk ℕ ℕ ℕ := ⟨⟨8, 0, [10, 11, 12, 13], 2048, 1, 2048, "", rfl⟩, 0,
      [10, 11, 12, 13], (Dict.empty.set 0 1).set 1 3, ⟨some [1], none, none, none⟩⟩
    let cluster : ClusterSensor ℕ := (Scheduler.attach baselineConfig : Scheduler ℕ ℕ ℕ).cluster
    ∃ plan acc s task, planOn p cluster ask 0 = .ok plan ∧ plan.pullKeys = [11, 12] ∧
      plan.ttft - plan.queueWait - plan.prefillT = 22391 / 300000 ∧
      simulatedAccelerator (fun _ => some 2) p.model p.blockTokens = .ok acc ∧
      ((Loop.machine ResourceKey .progressive).guarded (Loop.Undisturbed 0)).Reachable s ∧
      s.tasks.get? 0 = some task ∧
      task.charges =
        pullCharges p acc (some .progressive) false (fun _ : ℕ => ()) 0 1 plan ∧
      task.phase = .finished (task.started + 22391 / 300000) := by
  intro p ask cluster
  have hplan : (planOn p cluster ask 0).toOption.map (fun plan =>
      (plan.reuseSource, plan.pullKeys, plan.ttft - plan.queueWait - plan.prefillT))
        = some (some 1, [11, 12], 22391 / 300000) := by
    decide +kernel
  cases hok : planOn p cluster ask 0 with
  | error e =>
      rw [hok] at hplan
      cases hplan
  | ok plan =>
      rw [hok] at hplan
      have hfields := Option.some.inj hplan
      rw [Prod.mk.injEq, Prod.mk.injEq] at hfields
      obtain ⟨hsrc, hkeys, hprice⟩ := hfields
      let acc : SimulatedAccelerator p.model p.blockTokens := ⟨256, 2, rfl⟩
      have hacc := acc.build_eq (fun _ => some 2) rfl (by decide)
      have hcosts := (charge_eq_prediction (ι := ℕ) (ν := ℕ) (κ := ℕ) (β := Unit) .progressive
        defaultProfile defaultProfile_sound).2.2 p cluster ask 0 1 plan rfl hok hsrc acc
        (some .progressive) false fun _ => ()
      rw [hprice] at hcosts
      obtain ⟨s, task, hs, htask, hcharges, hdone⟩ := hcosts.finishes _
        (Transport.getCharges_carry _)
      exact ⟨plan, acc, s, task, rfl, hkeys, hprice, hacc, hs, htask, hcharges, hdone⟩

end Pull

end Toso.KvCache
