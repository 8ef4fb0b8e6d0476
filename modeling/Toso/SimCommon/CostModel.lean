/-
  Toso.SimCommon.CostModel — what a read costs on a machine profile.

  Every cost is a function of a byte count and a profile of hardware constants;
  a locality tier fixes the latency and bandwidth of a transfer.  Times are
  exact rationals.  A rate of zero, at which the source raises, costs nothing here:
  `Domain.FloatCosts` rounds and raises as the source does.

  Main results:
    * `networkTime_rate`, `storageTime_rate` — a cost that is not free is a rate.
    * `readTime_eq` — a read is its three terms.
    * `readTime_far`, `readTime_near` — one byte across nodes, and between hosts
      of one node, on the default profile.
-/
import Toso.Lib.Dict
import Mathlib.Data.Rat.Defs
import Mathlib.Algebra.Order.Ring.Rat
import Mathlib.Algebra.Order.Field.Basic
import Mathlib.Tactic.NormNum

namespace Toso.SimCommon

/-! ## §1. Where a volume is. -/

/-- A transfer endpoint: its identity, shared-memory domain and node. -/
structure Endpoint where
  id : String
  host : String
  node : String
  deriving DecidableEq

/-- Locality tiers, cheapest first. -/
inductive Tier
  | shm
  | nvlink
  | rdma
  deriving DecidableEq

/-- `locality`. -/
def locality (src dst : Endpoint) : Tier :=
  if src.host = dst.host then .shm
  else if src.node = dst.node then .nvlink
  else .rdma

/-! ## §2. The profile and its costs. -/

/-- The constants a read and a kernel are priced with: `(latency, bandwidth)` of
a tier, those of host memory and storage, and the flop rates by dtype. -/
structure MachineProfile where
  tiers : Tier → ℚ × ℚ
  ramBandwidth : ℚ
  ramLatency : ℚ
  storageReadBw : ℚ
  storageWriteBw : ℚ
  storageLatency : ℚ
  gpuFlops : Lib.Dict String ℚ
  gpuFlopsDefault : ℚ
  cpuFlops : ℚ

/-- `DEFAULT_PROFILE`. -/
def defaultProfile : MachineProfile where
  tiers
    | .shm => (1 / 10000, 150000)
    | .nvlink => (2 / 10000, 60000)
    | .rdma => (1 / 1000, 10000)
  ramBandwidth := 200000
  ramLatency := 5 / 100000
  storageReadBw := 20000
  storageWriteBw := 10000
  storageLatency := 1 / 1000
  gpuFlops := ((Lib.Dict.empty.set "float32" 1000000000).set "float16" 2000000000).set
    "bfloat16" 2000000000
  gpuFlopsDefault := 1000000000
  cpuFlops := 50000000

/-- `transfer_time`: free from an endpoint to itself, and for no bytes. -/
def transferTime (src dst : Endpoint) (nbytes : ℕ) (tiers : Tier → ℚ × ℚ) : ℚ :=
  if src.id = dst.id ∨ nbytes = 0 then 0
  else (tiers (locality src dst)).1 + nbytes / (tiers (locality src dst)).2

/-- `network_time`. -/
def networkTime (src dst : Endpoint) (nbytes : ℕ) (profile : MachineProfile) : ℚ :=
  transferTime src dst nbytes profile.tiers

/-- `mem_copy_time`. -/
def memCopyTime (nbytes : ℕ) (profile : MachineProfile) : ℚ :=
  if nbytes = 0 then 0 else profile.ramLatency + nbytes / profile.ramBandwidth

/-- The two kinds of storage access. -/
inductive StorageKind
  | read
  | write
  deriving DecidableEq

/-- `storage_time`. -/
def storageTime (nbytes : ℕ) (kind : StorageKind) (profile : MachineProfile) : ℚ :=
  if nbytes = 0 then 0
  else match kind with
    | .read => profile.storageLatency + nbytes / profile.storageReadBw
    | .write => profile.storageLatency + nbytes / profile.storageWriteBw

/-- `network_rate`: latency and bandwidth of the tier between two endpoints. -/
def networkRate (src dst : Endpoint) (profile : MachineProfile) : ℚ × ℚ :=
  profile.tiers (locality src dst)

/-- `storage_rate`. -/
def storageRate (kind : StorageKind) (profile : MachineProfile) : ℚ × ℚ :=
  match kind with
  | .read => (profile.storageLatency, profile.storageReadBw)
  | .write => (profile.storageLatency, profile.storageWriteBw)

/-- `_read_time`: storage, then host memory, then the fabric. -/
def readTime (src dst : Endpoint) (nbytes : ℕ) (profile : MachineProfile) : ℚ :=
  if nbytes = 0 then 0
  else storageTime nbytes .read profile + memCopyTime nbytes profile
    + networkTime src dst nbytes profile

/-- `_is_gpu`. -/
def isGpu (device : String) : Bool := device.toLower ∈ ["cuda", "gpu", "hip", "xpu"]

/-- `_effective_flops`: the peak flop rate for a dtype on a device. -/
def effectiveFlops (dtype device : String) (profile : MachineProfile) : ℚ :=
  if isGpu device then profile.gpuFlops.getD dtype profile.gpuFlopsDefault
  else profile.cpuFlops

/-- `compute_time` of a kernel that streams no bytes: its memory term is zero. -/
def computeTime (flops : ℚ) (dtype device : String) (profile : MachineProfile) : ℚ :=
  max (if 0 < flops then flops / effectiveFlops dtype device profile else 0) 0

/-- **More arithmetic never takes less time**, whatever the rate. -/
theorem computeTime_mono {x y : ℚ} (h : x ≤ y) (dtype device : String)
    (profile : MachineProfile) :
    computeTime x dtype device profile ≤ computeTime y dtype device profile := by
  unfold computeTime
  by_cases hx : 0 < x
  · have hy : 0 < y := lt_of_lt_of_le hx h
    rw [if_pos hx, if_pos hy]
    by_cases hrate : 0 ≤ effectiveFlops dtype device profile
    · exact max_le_max (div_le_div_of_nonneg_right h hrate) le_rfl
    · have hneg : x / effectiveFlops dtype device profile ≤ 0 :=
        div_nonpos_of_nonneg_of_nonpos hx.le (le_of_not_ge hrate)
      rw [max_eq_right hneg]
      exact le_max_right _ _
  · rw [if_neg hx, max_self]
    exact le_max_right _ _

/-! ## §3. What reads cost. -/

/-- Positive bandwidths, and no negative latency. -/
structure MachineProfile.Sound (profile : MachineProfile) : Prop where
  tiers : ∀ tier, 0 ≤ (profile.tiers tier).1 ∧ 0 < (profile.tiers tier).2
  ram : 0 ≤ profile.ramLatency ∧ 0 < profile.ramBandwidth
  storage : ∀ kind, 0 ≤ (storageRate kind profile).1 ∧ 0 < (storageRate kind profile).2

/-- The default profile is sound. -/
theorem defaultProfile_sound : defaultProfile.Sound where
  tiers := by
    intro tier
    cases tier <;> norm_num [defaultProfile]
  ram := by norm_num [defaultProfile]
  storage := by
    intro kind
    cases kind <;> norm_num [defaultProfile, storageRate]

/-- A fixed latency and bytes over a bandwidth take no negative time. -/
theorem rate_nonneg (rate : ℚ × ℚ) (h : 0 ≤ rate.1 ∧ 0 < rate.2) (nbytes : ℕ) :
    0 ≤ rate.1 + nbytes / rate.2 :=
  add_nonneg h.1 (div_nonneg (Nat.cast_nonneg nbytes) h.2.le)

/-- **A network transfer that costs something costs its tier's rate.** -/
theorem networkTime_rate {src dst : Endpoint} {nbytes : ℕ} {profile : MachineProfile}
    (h : networkTime src dst nbytes profile ≠ 0) :
    networkTime src dst nbytes profile =
      (networkRate src dst profile).1 + nbytes / (networkRate src dst profile).2 := by
  unfold networkTime transferTime at h ⊢
  by_cases hfree : src.id = dst.id ∨ nbytes = 0
  · rw [if_pos hfree] at h
    exact absurd rfl h
  · rw [if_neg hfree]
    rfl

/-- **A storage access that costs something costs its channel's rate.** -/
theorem storageTime_rate {nbytes : ℕ} {kind : StorageKind} {profile : MachineProfile}
    (h : storageTime nbytes kind profile ≠ 0) :
    storageTime nbytes kind profile =
      (storageRate kind profile).1 + nbytes / (storageRate kind profile).2 := by
  unfold storageTime at h ⊢
  by_cases hfree : nbytes = 0
  · rw [if_pos hfree] at h
    exact absurd rfl h
  · rw [if_neg hfree]
    cases kind <;> rfl

theorem networkTime_nonneg {profile : MachineProfile} (hp : profile.Sound) (src dst : Endpoint)
    (nbytes : ℕ) : 0 ≤ networkTime src dst nbytes profile := by
  by_cases h : networkTime src dst nbytes profile = 0
  · exact h.ge
  · rw [networkTime_rate h]
    exact rate_nonneg _ (hp.tiers _) nbytes

theorem storageTime_nonneg {profile : MachineProfile} (hp : profile.Sound) (nbytes : ℕ)
    (kind : StorageKind) : 0 ≤ storageTime nbytes kind profile := by
  by_cases h : storageTime nbytes kind profile = 0
  · exact h.ge
  · rw [storageTime_rate h]
    exact rate_nonneg _ (hp.storage kind) nbytes

theorem memCopyTime_nonneg {profile : MachineProfile} (hp : profile.Sound) (nbytes : ℕ) :
    0 ≤ memCopyTime nbytes profile := by
  unfold memCopyTime
  by_cases h : nbytes = 0
  · rw [if_pos h]
  · rw [if_neg h]
    exact rate_nonneg (profile.ramLatency, profile.ramBandwidth) hp.ram nbytes

/-- **A read is its three terms**: none of them costs anything for no bytes. -/
theorem readTime_eq (src dst : Endpoint) (nbytes : ℕ) (profile : MachineProfile) :
    readTime src dst nbytes profile = storageTime nbytes .read profile
      + memCopyTime nbytes profile + networkTime src dst nbytes profile := by
  unfold readTime
  by_cases h : nbytes = 0
  · subst h
    simp [storageTime, memCopyTime, networkTime, transferTime]
  · rw [if_neg h]

theorem locality_comm (a b : Endpoint) : locality a b = locality b a := by
  unfold locality
  by_cases hh : a.host = b.host
  · rw [if_pos hh, if_pos hh.symm]
  · rw [if_neg hh, if_neg (Ne.symm hh)]
    by_cases hn : a.node = b.node
    · rw [if_pos hn, if_pos hn.symm]
    · rw [if_neg hn, if_neg (Ne.symm hn)]

/-- One byte across nodes. -/
def farHop : ℚ := 2205 / 1000000

/-- One byte between two hosts of a node. -/
def nearHop : ℚ := 793 / 600000

/-- **A read of one byte from another node** on the default profile. -/
theorem readTime_far {a b : Endpoint} (hid : a.id ≠ b.id) (hhost : a.host ≠ b.host)
    (hnode : a.node ≠ b.node) : readTime a b 1 defaultProfile = farHop := by
  have hloc : locality a b = .rdma := by
    unfold locality
    rw [if_neg hhost, if_neg hnode]
  unfold readTime storageTime memCopyTime networkTime transferTime
  rw [hloc]
  simp only [hid, defaultProfile, farHop, Nat.one_ne_zero, or_self, if_false]
  norm_num

/-- **A read of one byte from another host of the node** on the default profile. -/
theorem readTime_near {a b : Endpoint} (hid : a.id ≠ b.id) (hhost : a.host ≠ b.host)
    (hnode : a.node = b.node) : readTime a b 1 defaultProfile = nearHop := by
  have hloc : locality a b = .nvlink := by
    unfold locality
    rw [if_neg hhost, if_pos hnode]
  unfold readTime storageTime memCopyTime networkTime transferTime
  rw [hloc]
  simp only [hid, defaultProfile, nearHop, Nat.one_ne_zero, or_self, if_false]
  norm_num

end Toso.SimCommon
