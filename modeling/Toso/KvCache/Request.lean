/-
  Toso.KvCache.Request — the inference request every plane passes around.
-/
import Mathlib.Algebra.Order.Field.Rat

namespace Toso.KvCache

/-- One inference request.  `prompt` is the number of tokens in the prompt
tensor; a request whose tensor disagrees with the length everything prices is
refused when it is built, so `prompt_len` holds of every request there is. -/
structure Request (ν κ : Type*) where
  id : ν
  arrival : ℚ
  /-- The prefix-hash chain, one directory key per block. -/
  blockKeys : List κ
  promptTokens : ℕ
  outputTokens : ℤ
  prompt : ℕ
  conversation : String
  prompt_len : prompt = promptTokens
  deriving DecidableEq

/-- `max(0, output_tokens - 1)`: the tokens decode generates. -/
def Request.decodeTokens {ν κ : Type*} (r : Request ν κ) : ℤ := max 0 (r.outputTokens - 1)

end Toso.KvCache
