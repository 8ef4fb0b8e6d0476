/-
  Toso.Lib.Feed — a value, and somebody who is told of it by whole copies.

  Every change of the value posts a copy of it.  Copies are delivered one at a
  time and in any order, and each replaces what the other side has seen.  The
  other side ends with the value itself as long as the newest copy on its way is
  never delivered before an older one.

  Main results:
    * `Caught.post`, `Caught.deliver` — what keeps the newest copy the last.
    * `Caught.seen_eq` — with nothing on the way, what was seen is the value.
-/
import Mathlib.Data.List.Basic

namespace Lib

/-- A value, the copies of it on their way in the order posted, and the last one
delivered. -/
structure Feed (α : Type*) where
  current : α
  inFlight : List α
  seen : α

namespace Feed

variable {α : Type*}

/-- **The newest copy is the value**: the last on its way, or the one seen. -/
def Caught (f : Feed α) : Prop := f.inFlight.getLast?.getD f.seen = f.current

/-- The newest copy on its way is not the `k`-th, or it is alone. -/
def InTurn (f : Feed α) (k : ℕ) : Prop := k + 1 = f.inFlight.length → k = 0

theorem Caught.seen_eq {f : Feed α} (h : f.Caught) (hnone : f.inFlight = []) :
    f.seen = f.current := by
  unfold Caught at h
  rw [hnone] at h
  exact h

/-- A copy of the new value is posted. -/
theorem Caught.post (f : Feed α) (a : α) : Caught ⟨a, f.inFlight ++ [a], f.seen⟩ := by
  simp [Caught]

/-- A copy is delivered in its turn. -/
theorem Caught.deliver {f : Feed α} (h : f.Caught) {k : ℕ} {a : α}
    (ha : f.inFlight[k]? = some a) (hk : f.InTurn k) :
    Caught ⟨f.current, f.inFlight.eraseIdx k, a⟩ := by
  obtain ⟨hlt, hget⟩ := List.getElem?_eq_some_iff.mp ha
  unfold Caught at h ⊢
  by_cases hlast : k + 1 = f.inFlight.length
  · -- the newest, and then the only one
    have hzero : k = 0 := hk hlast
    subst hzero
    obtain ⟨x, hx⟩ := List.length_eq_one_iff.mp hlast.symm
    rw [hx] at h ha
    rw [hx]
    cases ha
    exact h
  · have hne : f.inFlight ≠ [] := List.ne_nil_of_length_pos (by omega)
    have hlen : (f.inFlight.eraseIdx k).length = f.inFlight.length - 1 :=
      List.length_eraseIdx_of_lt hlt
    have hsame : (f.inFlight.eraseIdx k).getLast? = f.inFlight.getLast? := by
      rw [List.getLast?_eq_getElem?, List.getLast?_eq_getElem?, hlen,
        List.getElem?_eraseIdx_of_ge (by omega)]
      congr 1
      omega
    show (f.inFlight.eraseIdx k).getLast?.getD a = f.current
    rw [hsame, List.getLast?_eq_some_getLast hne]
    rw [List.getLast?_eq_some_getLast hne] at h
    exact h

end Feed

end Lib
