/-
  Toso.Lib.Lossy — a store that may lose what was written, but nothing else.

  A partial map is below another when all it answers is what the other one
  answers.  Writing the same to both, dropping from both and losing from the
  lower one keep it so.

  Main results:
    * `Below.write`, `Below.drop`, `Below.lose` — what keeps a map below another.
-/
import Mathlib.Logic.Basic

namespace Lib

variable {κ ν : Type*}

/-- All that `c` answers, `m` answers. -/
def Below (c m : κ → Option ν) : Prop := ∀ k v, c k = some v → m k = some v

namespace Below

variable {c c' m m' : κ → Option ν}

/-- Some keys are written alike, and the others are left alone. -/
theorem write (h : Below c m) {P : κ → Prop} (hwritten : ∀ k, P k → c' k = m' k)
    (hc : ∀ k, ¬ P k → c' k = c k) (hm : ∀ k, ¬ P k → m' k = m k) : Below c' m' := by
  intro k v hv
  by_cases hk : P k
  · rw [← hwritten k hk]
    exact hv
  · rw [hc k hk] at hv
    rw [hm k hk]
    exact h k v hv

/-- Some keys are dropped from both. -/
theorem drop (h : Below c m) {P : κ → Prop} (hdropped : ∀ k, P k → c' k = none)
    (hc : ∀ k, ¬ P k → c' k = c k) (hm : ∀ k, ¬ P k → m' k = m k) : Below c' m' := by
  intro k v hv
  by_cases hk : P k
  · rw [hdropped k hk] at hv
    cases hv
  · rw [hc k hk] at hv
    rw [hm k hk]
    exact h k v hv

/-- The lower one loses something. -/
theorem lose (h : Below c m) (hlost : Below c' c) : Below c' m := fun k v hv =>
  h k v (hlost k v hv)

end Below

end Lib
