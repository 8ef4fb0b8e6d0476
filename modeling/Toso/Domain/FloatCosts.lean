/-
  Toso.Domain.FloatCosts — the costs as they are computed.

  `CostModel` prices over the rationals, where what is divided by zero is zero.
  The source divides floats, and raises.  Each cost is stated here once more with a
  hook every result goes through, the rounding of a float, and with the raise.

  Main results:
    * `readTimeIn_exact`, `prefillTimeIn_exact`, `decodeStepTimeIn_exact` — nothing
      rounded, and at rates that are not zero, they are the costs of `CostModel`.
-/
import Toso.Domain.Llm

namespace Toso.Domain

open SimCommon

/-- `ZeroDivisionError`. -/
inductive ArithmeticError
  | zeroDivision
  deriving DecidableEq

/-- The rates that pricing a plan divides by, none of them zero. -/
structure RatesNonzero (profile : MachineProfile) (model : Model) : Prop where
  compute : effectiveFlops model.computeDtype model.computeDevice profile ≠ 0
  storage : profile.storageReadBw ≠ 0
  ram : profile.ramBandwidth ≠ 0
  tiers : ∀ tier, (profile.tiers tier).2 ≠ 0

/-- The default profile and model have rates. -/
theorem defaultProfile_ratesNonzero : RatesNonzero defaultProfile defaultModel where
  compute := by decide +kernel
  storage := by norm_num [defaultProfile]
  ram := by norm_num [defaultProfile]
  tiers tier := (defaultProfile_sound.tiers tier).2.ne'

/-- A device that names no rate for a dtype and has none to fall back on. -/
def unratedProfile : MachineProfile :=
  { defaultProfile with gpuFlops := Lib.Dict.empty, gpuFlopsDefault := 0 }

/-! ## §1. Rounded, and raising. -/

section Costs

variable (rnd : ℚ → ℚ)

/-- `x / y`. -/
def divide (x y : ℚ) : Except ArithmeticError ℚ :=
  if y = 0 then .error .zeroDivision else .ok (rnd (x / y))

/-- `latency + nbytes / bandwidth`. -/
def rateIn (rate : ℚ × ℚ) (nbytes : ℕ) : Except ArithmeticError ℚ :=
  (divide rnd (rnd nbytes) rate.2).map fun t => rnd (rate.1 + t)

/-- `transfer_time`. -/
def transferTimeIn (src dst : Endpoint) (nbytes : ℕ) (tiers : Tier → ℚ × ℚ) :
    Except ArithmeticError ℚ :=
  if src.id = dst.id ∨ nbytes = 0 then .ok 0 else rateIn rnd (tiers (locality src dst)) nbytes

/-- `mem_copy_time`. -/
def memCopyTimeIn (nbytes : ℕ) (profile : MachineProfile) : Except ArithmeticError ℚ :=
  if nbytes = 0 then .ok 0 else rateIn rnd (profile.ramLatency, profile.ramBandwidth) nbytes

/-- `storage_time`, of a read. -/
def storageReadIn (nbytes : ℕ) (profile : MachineProfile) : Except ArithmeticError ℚ :=
  if nbytes = 0 then .ok 0
  else rateIn rnd (profile.storageLatency, profile.storageReadBw) nbytes

/-- `_read_time`, its terms added from the left. -/
def readTimeIn (src dst : Endpoint) (nbytes : ℕ) (profile : MachineProfile) :
    Except ArithmeticError ℚ :=
  if nbytes = 0 then .ok 0
  else (storageReadIn rnd nbytes profile).bind fun storage =>
    (memCopyTimeIn rnd nbytes profile).bind fun ram =>
      (transferTimeIn rnd src dst nbytes profile.tiers).map fun net =>
        rnd (rnd (storage + ram) + net)

/-- `compute_time` of a kernel that streams no bytes. -/
def computeTimeIn (flops : ℚ) (dtype device : String) (profile : MachineProfile) :
    Except ArithmeticError ℚ :=
  (if 0 < flops then divide rnd flops (effectiveFlops dtype device profile) else .ok 0).map
    fun t => max t 0

/-- `prefill_time`. -/
def prefillTimeIn (uncachedTokens : ℕ) (profile : MachineProfile) (model : Model) :
    Except ArithmeticError ℚ :=
  if uncachedTokens = 0 then .ok 0
  else computeTimeIn rnd (rnd (model.prefillFlopsPerToken * rnd uncachedTokens))
    model.computeDtype model.computeDevice profile

/-- `decode_step_time`. -/
def decodeStepTimeIn (batchSize : ℤ) (profile : MachineProfile) (model : Model) :
    Except ArithmeticError ℚ :=
  computeTimeIn rnd (rnd (model.decodeStepFlopsPerRequest * rnd (max 1 batchSize : ℤ)))
    model.computeDtype model.computeDevice profile

end Costs

/-! ## §2. Nothing rounded. -/

theorem divide_exact (x : ℚ) {y : ℚ} (h : y ≠ 0) : divide id x y = .ok (x / y) := if_neg h

theorem rateIn_exact {rate : ℚ × ℚ} (h : rate.2 ≠ 0) (nbytes : ℕ) :
    rateIn id rate nbytes = .ok (rate.1 + nbytes / rate.2) := by
  unfold rateIn
  rw [divide_exact _ h]
  rfl

/-- **A read**, at rates that are not zero. -/
theorem readTimeIn_exact {profile : MachineProfile} {model : Model}
    (h : RatesNonzero profile model) (src dst : Endpoint) (nbytes : ℕ) :
    readTimeIn id src dst nbytes profile = .ok (readTime src dst nbytes profile) := by
  unfold readTimeIn readTime storageReadIn memCopyTimeIn transferTimeIn
  by_cases hnone : nbytes = 0
  · rw [if_pos hnone, if_pos hnone]
  · rw [if_neg hnone, if_neg hnone, if_neg hnone, if_neg hnone, rateIn_exact h.storage,
      rateIn_exact h.ram]
    unfold storageTime memCopyTime networkTime transferTime
    rw [if_neg hnone, if_neg hnone]
    by_cases hfree : src.id = dst.id ∨ nbytes = 0
    · rw [if_pos hfree, if_pos hfree]
      rfl
    · rw [if_neg hfree, if_neg hfree, rateIn_exact (h.tiers _)]
      rfl

theorem computeTimeIn_exact {profile : MachineProfile} {dtype device : String}
    (h : effectiveFlops dtype device profile ≠ 0) (flops : ℚ) :
    computeTimeIn id flops dtype device profile
      = .ok (computeTime flops dtype device profile) := by
  unfold computeTimeIn computeTime
  by_cases hflops : 0 < flops
  · rw [if_pos hflops, if_pos hflops, divide_exact _ h]
    rfl
  · rw [if_neg hflops, if_neg hflops]
    rfl

/-- **A forward pass**, at rates that are not zero. -/
theorem prefillTimeIn_exact {profile : MachineProfile} {model : Model}
    (h : RatesNonzero profile model) (tokens : ℕ) :
    prefillTimeIn id tokens profile model = .ok (prefillTime tokens profile model) := by
  unfold prefillTimeIn prefillTime
  by_cases hnone : tokens = 0
  · rw [if_pos hnone, if_pos hnone]
  · rw [if_neg hnone, if_neg hnone]
    exact computeTimeIn_exact h.compute _

/-- **A decode step**, at rates that are not zero. -/
theorem decodeStepTimeIn_exact {profile : MachineProfile} {model : Model}
    (h : RatesNonzero profile model) (batchSize : ℤ) :
    decodeStepTimeIn id batchSize profile model
      = .ok (decodeStepTime batchSize profile model) :=
  computeTimeIn_exact h.compute _

end Toso.Domain
