/-
  Toso.Domain.Llm — the served model, and its tokens as time.

  A model is what one token costs to prefill, what one request costs in a decode
  step, and the bytes of KV a token occupies.  The control plane prices with the
  same functions the data plane charges.
-/
import Toso.SimCommon.CostModel
import Mathlib.Algebra.Order.Field.Rat

namespace Toso.Domain

open SimCommon

/-- The LLM being served. -/
structure Model where
  prefillFlopsPerToken : ℚ
  decodeStepFlopsPerRequest : ℚ
  kvBytesPerToken : ℕ
  computeDtype : String
  computeDevice : String

/-- `block_bytes`. -/
def Model.blockBytes (m : Model) (numBlocks blockTokens : ℕ) : ℕ :=
  numBlocks * blockTokens * m.kvBytesPerToken

/-- `DEFAULT_MODEL`. -/
def defaultModel : Model where
  prefillFlopsPerToken := 1600000
  decodeStepFlopsPerRequest := 40000000
  kvBytesPerToken := 1
  computeDtype := "float16"
  computeDevice := "cuda"

/-- `prefill_time`: the forward pass over the uncached suffix. -/
def prefillTime (uncachedTokens : ℕ) (profile : MachineProfile) (model : Model) : ℚ :=
  if uncachedTokens = 0 then 0
  else computeTime (model.prefillFlopsPerToken * uncachedTokens) model.computeDtype
    model.computeDevice profile

/-- `decode_step_time`: one token for every request in a batch, clamped to one. -/
def decodeStepTime (batchSize : ℤ) (profile : MachineProfile) (model : Model) : ℚ :=
  computeTime (model.decodeStepFlopsPerRequest * (max 1 batchSize : ℤ)) model.computeDtype
    model.computeDevice profile

/-- **A fuller batch never steps faster.** -/
theorem decodeStepTime_mono {a b : ℤ} (h : a ≤ b) (profile : MachineProfile) (model : Model) :
    decodeStepTime a profile model ≤ decodeStepTime b profile model := by
  unfold decodeStepTime
  have hmax : ((max 1 a : ℤ) : ℚ) ≤ ((max 1 b : ℤ) : ℚ) := by
    exact_mod_cast max_le_max le_rfl h
  by_cases hflops : 0 ≤ model.decodeStepFlopsPerRequest
  · exact computeTime_mono (mul_le_mul_of_nonneg_left hmax hflops) _ _ _
  · -- a model that costs nothing per request steps in no time
    have hfree : ∀ n : ℤ, ¬ 0 < model.decodeStepFlopsPerRequest * ((max 1 n : ℤ) : ℚ) := by
      intro n
      have hone : (0 : ℚ) ≤ ((max 1 n : ℤ) : ℚ) := by
        exact_mod_cast le_trans zero_le_one (le_max_left 1 n)
      exact not_lt.mpr (mul_nonpos_of_nonpos_of_nonneg (le_of_not_ge hflops) hone)
    unfold computeTime
    rw [if_neg (hfree a), if_neg (hfree b)]

end Toso.Domain
