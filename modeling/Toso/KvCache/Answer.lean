/-
  Toso.KvCache.Answer — what the scheduler answers with.
-/
import Mathlib.Algebra.Order.Field.Rat

namespace Toso.KvCache

/-- `Plan`: what prefilling one request on one instance was priced at. -/
structure Plan (ι κ : Type*) where
  matchBlocks : ℕ
  cachedTokens : ℕ
  uncachedTokens : ℕ
  /-- The remote instance a prefix gap is pulled from. -/
  reuseSource : Option ι
  transferBytes : ℕ
  queueWait : ℚ
  ttft : ℚ
  /-- The absolute time the prefill is predicted to complete at. -/
  doneTime : ℚ
  prefillT : ℚ
  /-- The gap blocks to fetch. -/
  pullKeys : List κ
  deriving DecidableEq

/-- `local_blocks`: the match, minus what it pulls. -/
def Plan.localBlocks {ι κ : Type*} (plan : Plan ι κ) : ℕ :=
  plan.matchBlocks - plan.pullKeys.length

/-- `Response`: the winner of each selection, and the price of one. -/
structure Response (ι κ : Type*) where
  prefill : ι
  decode : ι
  plan : Plan ι κ
  predTbt : ℚ
  deriving DecidableEq

end Toso.KvCache
