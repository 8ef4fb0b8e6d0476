/-
  Toso.Realsim.Transport — what a transport charges for a put and a get.

  A put charges the fabric and then the volume's store; a get the store, host
  memory and then the fabric, from the volume to the client.  Each charge is a
  sleep, or under a contention model a transfer on a shared channel: the source's
  egress, or one direction of a volume's store.  Without contention the charges
  of one operation may be collapsed into one sleep.

  Main results:
    * `getCharges_total`, `putCharges_total` — the charges of an operation sum to
      its predicted time, collapsed or not.
    * `get_costs`, `put_costs` — so does the time it takes.
    * `get_finishes`, `put_finishes` — one that is called finishes.
-/
import Toso.SimCommon.CostModel
import Toso.SimCommon.Resources
import Toso.Store.VolumeService

namespace Toso.Realsim

open Lib SimCommon Store

/-! ## §1. What is transferred, and where it is charged. -/

/-- One request of a put, as the transport reads it: a tensor, or an object. -/
structure Request (β : Type*) where
  tensorVal : Option (Carrier β)
  objects : Option (Carrier β)

/-- `_request_nbytes`. -/
def Request.nbytes {β : Type*} (request : Request β) : ℕ :=
  match request.tensorVal with
  | some value => value.nbytes
  | none => (request.objects.map Carrier.nbytes).getD 0

/-- The keys of the shared resources. -/
inductive ResourceKey
  /-- The egress of an endpoint. -/
  | net (id : String)
  /-- One direction of a volume's store. -/
  | store (id : String) (kind : StorageKind)
  deriving DecidableEq

/-- `InMemoryTransport`, as it is constructed: the client's endpoint and the volume's. -/
structure Transport where
  src : Endpoint
  dst : Endpoint
  profile : MachineProfile
  /-- The mode of the registry it is handed, if it is handed one. -/
  registry : Option Contention
  collapseCharges : Bool

namespace Transport

/-- A contention model is active. -/
def contends (t : Transport) : Bool :=
  match t.registry with
  | some .serialize => true
  | some .progressive => true
  | _ => false

/-- `_collapse`: inert under a contention model. -/
def collapses (t : Transport) : Bool := t.collapseCharges && !t.contends

/-- `_contended`: a free charge never occupies a resource. -/
def contended (t : Transport) (dt : ℚ) : Bool := t.contends && decide (0 < dt)

/-- `_charge_network`. -/
def chargeNetwork (t : Transport) (src dst : Endpoint) (nbytes : ℕ) : Charge ResourceKey :=
  let dt := networkTime src dst nbytes t.profile
  if t.contended dt then
    let (latency, bandwidth) := networkRate src dst t.profile
    .transfer (.net src.id) bandwidth latency nbytes
  else .sleep dt

/-- `_charge_storage`. -/
def chargeStorage (t : Transport) (nbytes : ℕ) (kind : StorageKind) : Charge ResourceKey :=
  let dt := storageTime nbytes kind t.profile
  if t.contended dt then
    let (latency, bandwidth) := storageRate kind t.profile
    .transfer (.store t.dst.id kind) bandwidth latency nbytes
  else .sleep dt

/-- `_charge_mem`: host memory is no shared resource. -/
def chargeMem (t : Transport) (nbytes : ℕ) : Charge ResourceKey :=
  .sleep (memCopyTime nbytes t.profile)

/-- The charges of `put_to_storage_volume`, once the payload has landed. -/
def putCharges {β : Type*} (t : Transport) (requests : List (Request β)) :
    List (Charge ResourceKey) :=
  let nbytes := (requests.map Request.nbytes).sum
  if t.collapses then
    [.sleep (networkTime t.src t.dst nbytes t.profile + storageTime nbytes .write t.profile)]
  else [t.chargeNetwork t.src t.dst nbytes, t.chargeStorage nbytes .write]

/-- The charges of `get_from_storage_volume`, once the volume has answered. -/
def getCharges {β : Type*} (t : Transport) (results : List (Carrier β)) :
    List (Charge ResourceKey) :=
  let nbytes := (results.map Carrier.nbytes).sum
  if t.collapses then
    [.sleep (storageTime nbytes .read t.profile + memCopyTime nbytes t.profile
      + networkTime t.dst t.src nbytes t.profile)]
  else [t.chargeStorage nbytes .read, t.chargeMem nbytes, t.chargeNetwork t.dst t.src nbytes]

/-! ## §2. Each charge is its predicted time. -/

section Charges

variable {t : Transport} (hp : t.profile.Sound)

include hp

theorem chargeNetwork_solo (src dst : Endpoint) (nbytes : ℕ) :
    (t.chargeNetwork src dst nbytes).solo = networkTime src dst nbytes t.profile := by
  unfold chargeNetwork
  by_cases h : t.contended (networkTime src dst nbytes t.profile) = true
  · rw [if_pos h]
    unfold contended at h
    rw [Bool.and_eq_true, decide_eq_true_eq] at h
    exact (networkTime_rate h.2.ne').symm
  · rw [if_neg h]
    exact max_eq_right (networkTime_nonneg hp src dst nbytes)

theorem chargeStorage_solo (nbytes : ℕ) (kind : StorageKind) :
    (t.chargeStorage nbytes kind).solo = storageTime nbytes kind t.profile := by
  unfold chargeStorage
  by_cases h : t.contended (storageTime nbytes kind t.profile) = true
  · rw [if_pos h]
    unfold contended at h
    rw [Bool.and_eq_true, decide_eq_true_eq] at h
    exact (storageTime_rate h.2.ne').symm
  · rw [if_neg h]
    exact max_eq_right (storageTime_nonneg hp nbytes kind)

theorem chargeMem_solo (nbytes : ℕ) :
    (t.chargeMem nbytes).solo = memCopyTime nbytes t.profile :=
  max_eq_right (memCopyTime_nonneg hp nbytes)

theorem chargeNetwork_rated (src dst : Endpoint) (nbytes : ℕ) :
    (t.chargeNetwork src dst nbytes).WellRated := by
  unfold chargeNetwork
  by_cases h : t.contended (networkTime src dst nbytes t.profile) = true
  · rw [if_pos h]
    exact hp.tiers (locality src dst)
  · rw [if_neg h]
    trivial

theorem chargeStorage_rated (nbytes : ℕ) (kind : StorageKind) :
    (t.chargeStorage nbytes kind).WellRated := by
  unfold chargeStorage
  by_cases h : t.contended (storageTime nbytes kind t.profile) = true
  · rw [if_pos h]
    exact hp.storage kind
  · rw [if_neg h]
    trivial

/-! ## §3. So is each operation. -/

variable {β : Type*}

/-- **A get's charges sum to its read time**, collapsed or not. -/
theorem getCharges_total (results : List (Carrier β)) :
    total (t.getCharges results) =
      readTime t.dst t.src (results.map Carrier.nbytes).sum t.profile := by
  unfold getCharges
  rw [readTime_eq]
  by_cases h : t.collapses = true
  · rw [if_pos h, total_cons, total_nil, add_zero]
    refine max_eq_right ?_
    exact add_nonneg (add_nonneg (storageTime_nonneg hp _ _) (memCopyTime_nonneg hp _))
      (networkTime_nonneg hp _ _ _)
  · rw [if_neg h, total_cons, total_cons, total_cons, total_nil, chargeStorage_solo hp,
      chargeMem_solo hp, chargeNetwork_solo hp, add_zero, add_assoc]

/-- **A put's charges sum to the fabric and the write.** -/
theorem putCharges_total (requests : List (Request β)) :
    total (t.putCharges requests) =
      networkTime t.src t.dst (requests.map Request.nbytes).sum t.profile
        + storageTime (requests.map Request.nbytes).sum .write t.profile := by
  unfold putCharges
  by_cases h : t.collapses = true
  · rw [if_pos h, total_cons, total_nil, add_zero]
    exact max_eq_right (add_nonneg (networkTime_nonneg hp _ _ _) (storageTime_nonneg hp _ _))
  · rw [if_neg h, total_cons, total_cons, total_nil, chargeNetwork_solo hp,
      chargeStorage_solo hp, add_zero]

theorem getCharges_rated (results : List (Carrier β)) :
    ∀ charge ∈ t.getCharges results, charge.WellRated := by
  intro charge hc
  unfold getCharges at hc
  by_cases h : t.collapses = true
  · rw [if_pos h, List.mem_singleton] at hc
    subst hc
    trivial
  · rw [if_neg h] at hc
    simp only [List.mem_cons, List.not_mem_nil, or_false] at hc
    rcases hc with rfl | rfl | rfl
    · exact chargeStorage_rated hp _ _
    · trivial
    · exact chargeNetwork_rated hp _ _ _

theorem putCharges_rated (requests : List (Request β)) :
    ∀ charge ∈ t.putCharges requests, charge.WellRated := by
  intro charge hc
  unfold putCharges at hc
  by_cases h : t.collapses = true
  · rw [if_pos h, List.mem_singleton] at hc
    subst hc
    trivial
  · rw [if_neg h] at hc
    simp only [List.mem_cons, List.not_mem_nil, or_false] at hc
    rcases hc with rfl | rfl
    · exact chargeNetwork_rated hp _ _ _
    · exact chargeStorage_rated hp _ _

/-- **A get takes exactly its read time.** -/
theorem get_costs (mode : Contention) (results : List (Carrier β)) :
    Costs mode (t.getCharges results)
      (readTime t.dst t.src (results.map Carrier.nbytes).sum t.profile) := by
  rw [← getCharges_total hp]
  exact costs_total mode (getCharges_rated hp results)

/-- **A put takes exactly the fabric and the write.** -/
theorem put_costs (mode : Contention) (requests : List (Request β)) :
    Costs mode (t.putCharges requests)
      (networkTime t.src t.dst (requests.map Request.nbytes).sum t.profile
        + storageTime (requests.map Request.nbytes).sum .write t.profile) := by
  rw [← putCharges_total hp]
  exact costs_total mode (putCharges_rated hp requests)

end Charges

/-! ## §4. There is a run in which it finishes. -/

section Finishes

variable {t : Transport} {β : Type*}

/-- The capacity of each resource's transfers. -/
def capacities (t : Transport) : ResourceKey → ℚ
  | .net _ => (networkRate t.dst t.src t.profile).2
  | .store _ kind => (storageRate kind t.profile).2

theorem chargeNetwork_carries {src dst : Endpoint}
    (h : networkRate src dst t.profile = networkRate t.dst t.src t.profile) (nbytes : ℕ) :
    (t.chargeNetwork src dst nbytes).Carries t.capacities := by
  unfold chargeNetwork
  by_cases hc : t.contended (networkTime src dst nbytes t.profile) = true
  · rw [if_pos hc, h]
    exact rfl
  · rw [if_neg hc]
    trivial

theorem chargeStorage_carries (nbytes : ℕ) (kind : StorageKind) :
    (t.chargeStorage nbytes kind).Carries t.capacities := by
  unfold chargeStorage
  by_cases hc : t.contended (storageTime nbytes kind t.profile) = true
  · rw [if_pos hc]
    exact rfl
  · rw [if_neg hc]
    trivial

theorem getCharges_carry (results : List (Carrier β)) :
    ∀ charge ∈ t.getCharges results, charge.Carries t.capacities := by
  intro charge hc
  unfold getCharges at hc
  by_cases h : t.collapses = true
  · rw [if_pos h, List.mem_singleton] at hc
    subst hc
    trivial
  · rw [if_neg h] at hc
    simp only [List.mem_cons, List.not_mem_nil, or_false] at hc
    rcases hc with rfl | rfl | rfl
    · exact chargeStorage_carries _ _
    · trivial
    · exact chargeNetwork_carries rfl _

theorem putCharges_carry (requests : List (Request β)) :
    ∀ charge ∈ t.putCharges requests, charge.Carries t.capacities := by
  intro charge hc
  have hrate : networkRate t.src t.dst t.profile = networkRate t.dst t.src t.profile := by
    unfold networkRate
    rw [locality_comm]
  unfold putCharges at hc
  by_cases h : t.collapses = true
  · rw [if_pos h, List.mem_singleton] at hc
    subst hc
    trivial
  · rw [if_neg h] at hc
    simp only [List.mem_cons, List.not_mem_nil, or_false] at hc
    rcases hc with rfl | rfl
    · exact chargeNetwork_carries hrate _
    · exact chargeStorage_carries _ _

/-- **A get that is called finishes**, in its read time. -/
theorem get_finishes (hp : t.profile.Sound) (mode : Contention) (results : List (Carrier β)) :
    ∃ s task, ((Loop.machine ResourceKey mode).guarded (Loop.Undisturbed 0)).Reachable s ∧
      s.tasks.get? 0 = some task ∧ task.charges = t.getCharges results ∧
      task.phase = .finished (task.started
        + readTime t.dst t.src (results.map Carrier.nbytes).sum t.profile) :=
  (get_costs hp mode results).finishes t.capacities (getCharges_carry results)

/-- **A put that is called finishes**, in the fabric's time and the write's. -/
theorem put_finishes (hp : t.profile.Sound) (mode : Contention)
    (requests : List (Request β)) :
    ∃ s task, ((Loop.machine ResourceKey mode).guarded (Loop.Undisturbed 0)).Reachable s ∧
      s.tasks.get? 0 = some task ∧ task.charges = t.putCharges requests ∧
      task.phase = .finished (task.started
        + (networkTime t.src t.dst (requests.map Request.nbytes).sum t.profile
          + storageTime (requests.map Request.nbytes).sum .write t.profile)) :=
  (put_costs hp mode requests).finishes t.capacities (putCharges_carry requests)

end Finishes

end Transport

end Toso.Realsim
