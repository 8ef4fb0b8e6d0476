/-
  Toso.Lib.Covering — the shortest prefix that covers a need.

  Elements weigh something and are taken from the front of a list until what
  was taken weighs as much as is needed.

  Main results:
    * `takeCovering_short` — no shorter prefix covers the need.
    * `takeCovering_covers` — it covers a need the whole list covers.
    * `takeCovering_isPrefix_of_le`, `isPrefix_takeCovering_of_lt` — a prefix that
      covers the need holds what is taken, and one that does not is held by it.
-/
import Mathlib.Algebra.Order.BigOperators.Group.List
import Mathlib.Algebra.Order.Ring.Int
import Mathlib.Data.List.Infix

namespace Lib

variable {α : Type*} (weight : α → ℤ)

/-- What some elements weigh together. -/
def weighed (l : List α) : ℤ := (l.map weight).sum

@[simp] theorem weighed_nil : weighed weight [] = 0 := rfl

@[simp] theorem weighed_cons (x : α) (l : List α) :
    weighed weight (x :: l) = weight x + weighed weight l := by
  simp [weighed]

/-- Take from the front until the need is covered. -/
def takeCovering : ℤ → List α → List α
  | _, [] => []
  | need, x :: rest => if need ≤ 0 then [] else x :: takeCovering (need - weight x) rest

variable {weight}

theorem takeCovering_nonpos {need : ℤ} (h : need ≤ 0) (l : List α) :
    takeCovering weight need l = [] := by
  cases l with
  | nil => rfl
  | cons x rest => exact if_pos h

theorem takeCovering_cons {need : ℤ} (h : ¬ need ≤ 0) (x : α) (rest : List α) :
    takeCovering weight need (x :: rest) = x :: takeCovering weight (need - weight x) rest :=
  if_neg h

/-- What is taken is a prefix. -/
theorem takeCovering_isPrefix (l : List α) :
    ∀ need, takeCovering weight need l <+: l := by
  induction l with
  | nil => intro need; exact List.prefix_refl _
  | cons x rest ih =>
      intro need
      by_cases h : need ≤ 0
      · rw [takeCovering_nonpos h]
        exact List.nil_prefix
      · rw [takeCovering_cons h]
        exact (List.prefix_cons_inj x).mpr (ih _)

/-- **Nothing shorter covers the need.** -/
theorem takeCovering_short (l : List α) :
    ∀ need pre, pre <+: takeCovering weight need l → pre ≠ takeCovering weight need l →
      weighed weight pre < need := by
  induction l with
  | nil =>
      intro need pre hpre hne
      exact absurd (List.prefix_nil.mp hpre) hne
  | cons x rest ih =>
      intro need pre hpre hne
      by_cases h : need ≤ 0
      · rw [takeCovering_nonpos h] at hpre hne
        exact absurd (List.prefix_nil.mp hpre) hne
      · rw [takeCovering_cons h] at hpre hne
        cases pre with
        | nil =>
            rw [weighed_nil]
            omega
        | cons y pre =>
            obtain ⟨rfl, hpre⟩ := List.cons_prefix_cons.mp hpre
            have hrest := ih _ pre hpre fun heq => hne (by rw [heq])
            rw [weighed_cons]
            omega

/-- **It covers the need** when all of the list does. -/
theorem takeCovering_covers (l : List α) :
    ∀ need, need ≤ weighed weight l → need ≤ weighed weight (takeCovering weight need l) := by
  induction l with
  | nil => intro need h; exact h
  | cons x rest ih =>
      intro need h
      rw [weighed_cons] at h
      by_cases hneed : need ≤ 0
      · rw [takeCovering_nonpos hneed]
        exact hneed
      · have hrest := ih (need - weight x) (by omega)
        rw [takeCovering_cons hneed, weighed_cons]
        omega

/-- Part of the list weighs no more than all of it. -/
theorem weighed_le_of_isPrefix (hw : ∀ x, 0 ≤ weight x) {pre l : List α} (h : pre <+: l) :
    weighed weight pre ≤ weighed weight l :=
  List.Sublist.sum_le_sum (h.sublist.map weight) (by simpa using fun x _ => hw x)

/-- A need the list does not cover takes all of it. -/
theorem takeCovering_eq_self (hw : ∀ x, 0 ≤ weight x) (l : List α) :
    ∀ need, weighed weight l < need → takeCovering weight need l = l := by
  induction l with
  | nil => intro need _; rfl
  | cons x rest ih =>
      intro need h
      have hpos : 0 ≤ weighed weight (x :: rest) :=
        weighed_le_of_isPrefix hw (List.nil_prefix)
      have hrest : weighed weight rest < need - weight x := by
        rw [weighed_cons] at h
        omega
      rw [takeCovering_cons (by omega), ih _ hrest]

/-- What is taken covers the need, or is everything. -/
theorem weighed_takeCovering_of_ne (hw : ∀ x, 0 ≤ weight x) {need : ℤ} {l : List α}
    (hne : takeCovering weight need l ≠ l) :
    need ≤ weighed weight (takeCovering weight need l) := by
  refine takeCovering_covers l need ?_
  by_contra hlt
  exact hne (takeCovering_eq_self hw l need (not_le.mp hlt))

/-- **A prefix that covers the need** holds what is taken. -/
theorem takeCovering_isPrefix_of_le {need : ℤ} {pre l : List α} (hpre : pre <+: l)
    (hneed : need ≤ weighed weight pre) : takeCovering weight need l <+: pre := by
  rcases List.prefix_or_prefix_of_prefix hpre (takeCovering_isPrefix l need) with h | h
  · -- a covering prefix is no proper prefix of what is taken
    by_cases heq : pre = takeCovering weight need l
    · rw [heq]
    · have hshort := takeCovering_short l need pre h heq
      omega
  · exact h

/-- **A prefix that does not cover the need** is held by what is taken. -/
theorem isPrefix_takeCovering_of_lt (hw : ∀ x, 0 ≤ weight x) {need : ℤ} {pre l : List α}
    (hpre : pre <+: l) (hlt : weighed weight pre < need) :
    pre <+: takeCovering weight need l := by
  rcases List.prefix_or_prefix_of_prefix hpre (takeCovering_isPrefix l need) with h | h
  · exact h
  · by_cases heq : takeCovering weight need l = l
    · rw [heq]
      exact hpre
    · have hcov := weighed_takeCovering_of_ne hw heq
      have hle := weighed_le_of_isPrefix hw h
      omega

end Lib
