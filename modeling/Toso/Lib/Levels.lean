/-
  Toso.Lib.Levels — how many nodes a tree of bounded fan-out holds by depth.

  `n d` counts the nodes at depth `d` of a tree with one root in which no node
  has more than `c` children, so `n (d + 1) ≤ c * n d`.  The levels then hold at
  most `c ^ d` nodes each, and a tree that holds as many in all is full at every
  level.

  Main results:
    * `level_le` — a level holds at most `c ^ d` nodes.
    * `total_le` — the first levels hold at most the geometric sum.
    * `level_full` — where the sum is reached, no level has room.
-/
import Mathlib.Algebra.BigOperators.Group.Finset.Basic
import Mathlib.Algebra.Order.BigOperators.Group.Finset
import Mathlib.Algebra.Order.Ring.Nat

namespace Lib.Levels

variable {n : ℕ → ℕ} {c : ℕ}

/-- A level holds at most `c ^ d` nodes. -/
theorem level_le (hroot : n 0 ≤ 1) (hstep : ∀ d, n (d + 1) ≤ c * n d) (d : ℕ) :
    n d ≤ c ^ d := by
  induction d with
  | zero => simpa using hroot
  | succ d ih =>
      calc n (d + 1) ≤ c * n d := hstep d
        _ ≤ c * c ^ d := Nat.mul_le_mul_left c ih
        _ = c ^ (d + 1) := by rw [pow_succ, mul_comm]

/-- **The first levels hold at most the geometric sum.** -/
theorem total_le (hroot : n 0 ≤ 1) (hstep : ∀ d, n (d + 1) ≤ c * n d) (k : ℕ) :
    ∑ d ∈ Finset.range k, n d ≤ ∑ d ∈ Finset.range k, c ^ d :=
  Finset.sum_le_sum fun d _ => level_le hroot hstep d

/-- Levels that are all full reach the geometric sum. -/
theorem total_eq (hroot : n 0 = 1) {k : ℕ} (hstep : ∀ d, d + 1 < k → n (d + 1) = c * n d) :
    ∑ d ∈ Finset.range k, n d = ∑ d ∈ Finset.range k, c ^ d := by
  have hlevel : ∀ d, d < k → n d = c ^ d := by
    intro d
    induction d with
    | zero => intro _; simpa using hroot
    | succ d ih =>
        intro hd
        rw [hstep d hd, ih (Nat.lt_of_succ_lt hd), pow_succ, mul_comm]
  exact Finset.sum_congr rfl fun d hd => hlevel d (Finset.mem_range.mp hd)

/-- **Where the sum is reached, every level is full.** -/
theorem level_full (hroot : n 0 ≤ 1) (hstep : ∀ d, n (d + 1) ≤ c * n d) {k : ℕ}
    (htotal : ∑ d ∈ Finset.range k, c ^ d ≤ ∑ d ∈ Finset.range k, n d) {d : ℕ}
    (hd : d + 1 < k) : n (d + 1) = c * n d := by
  have heq : ∑ d ∈ Finset.range k, n d = ∑ d ∈ Finset.range k, c ^ d :=
    Nat.le_antisymm (total_le hroot hstep k) htotal
  have hlevel : ∀ e ∈ Finset.range k, n e = c ^ e :=
    (Finset.sum_eq_sum_iff_of_le fun e _ => level_le hroot hstep e).mp heq
  rw [hlevel (d + 1) (Finset.mem_range.mpr hd),
    hlevel d (Finset.mem_range.mpr (Nat.lt_of_succ_lt hd)), pow_succ, mul_comm]

end Lib.Levels
