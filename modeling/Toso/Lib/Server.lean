/-
  Toso.Lib.Server — one server, and a line of jobs taken one after another.

  A job starts when it has arrived and the one before it is through.  `slots` says
  when each job of a line starts and stops, `clears` when the last one does.

  Main results:
    * `slots_concat`, `clears_concat` — one job more, at the end of the line.
    * `getElem?_slots` — when each job of a line is through.
    * `clears_le_of_isPrefix` — a longer line is never through sooner.
-/
import Mathlib.Algebra.Order.Group.Defs
import Mathlib.Data.List.Infix
import Mathlib.Data.List.Induction

namespace Lib

namespace Server

variable {α K : Type*} [AddCommGroup K] [LinearOrder K]
variable (arrival duration : α → K)

/-- When a server that is free from `free` on is through with a line. -/
def clears : K → List α → K
  | free, [] => free
  | free, x :: rest => clears (max (arrival x) free + duration x) rest

/-- When each job of the line starts and stops. -/
def slots : K → List α → List (α × K × K)
  | _, [] => []
  | free, x :: rest =>
      let stop := max (arrival x) free + duration x
      (x, max (arrival x) free, stop) :: slots stop rest

variable {arrival duration}

theorem clears_append (l l' : List α) : ∀ free : K,
    clears arrival duration free (l ++ l')
      = clears arrival duration (clears arrival duration free l) l' := by
  induction l with
  | nil =>
      intro free
      rfl
  | cons x rest ih =>
      intro free
      exact ih _

/-- The last job of a line is through where the line is. -/
theorem clears_concat (free : K) (l : List α) (x : α) :
    clears arrival duration free (l ++ [x])
      = max (arrival x) (clears arrival duration free l) + duration x :=
  clears_append l [x] free

theorem slots_append (l l' : List α) : ∀ free : K, slots arrival duration free (l ++ l') =
    slots arrival duration free l ++ slots arrival duration (clears arrival duration free l) l' := by
  induction l with
  | nil =>
      intro free
      rfl
  | cons x rest ih =>
      intro free
      show _ :: slots arrival duration _ (rest ++ l') = _ :: (_ ++ _)
      rw [ih]
      rfl

/-- The last job of a line starts when it has arrived and the others are through. -/
theorem slots_concat (l : List α) (x : α) (free : K) :
    slots arrival duration free (l ++ [x]) = slots arrival duration free l ++
      [(x, max (arrival x) (clears arrival duration free l),
        clears arrival duration free (l ++ [x]))] := by
  rw [slots_append, clears_concat]
  rfl

@[simp] theorem length_slots (l : List α) : ∀ free : K,
    (slots arrival duration free l).length = l.length := by
  induction l with
  | nil =>
      intro free
      rfl
  | cons x rest ih =>
      intro free
      show (slots arrival duration _ rest).length + 1 = rest.length + 1
      rw [ih]

theorem map_fst_slots (l : List α) : ∀ free : K,
    (slots arrival duration free l).map Prod.fst = l := by
  induction l with
  | nil =>
      intro free
      rfl
  | cons x rest ih =>
      intro free
      show x :: (slots arrival duration _ rest).map Prod.fst = x :: rest
      rw [ih]

theorem take_slots (l : List α) (n : ℕ) (free : K) :
    (slots arrival duration free l).take n = slots arrival duration free (l.take n) := by
  induction l generalizing n free with
  | nil => simp [slots]
  | cons x rest ih =>
      cases n with
      | zero => rfl
      | succ n =>
          show _ :: (slots arrival duration _ rest).take n = _
          rw [ih]
          rfl

/-- **When a job of a line is through**: its duration after it has arrived and the ones
before it are through. -/
theorem getElem?_slots (l : List α) (free : K) (i : ℕ) : (slots arrival duration free l)[i]? =
    l[i]?.map fun x => (x, max (arrival x) (clears arrival duration free (l.take i)),
      max (arrival x) (clears arrival duration free (l.take i)) + duration x) := by
  induction l generalizing free i with
  | nil => rfl
  | cons x rest ih =>
      cases i with
      | zero => rfl
      | succ i => exact ih _ i

/-- The last of a line is through when the line is. -/
theorem getLast?_slots (free : K) {l : List α} (h : l ≠ []) :
    (slots arrival duration free l).getLast?.map (fun e => e.2.2) =
      some (clears arrival duration free l) := by
  cases l using List.reverseRecOn with
  | nil => exact absurd rfl h
  | append_singleton rest x =>
      rw [slots_concat, List.getLast?_concat]
      rfl

variable [IsOrderedAddMonoid K]

theorem le_clears (l : List α) : ∀ free : K, (∀ x ∈ l, 0 ≤ duration x) →
    free ≤ clears arrival duration free l := by
  induction l with
  | nil =>
      intro free _
      exact le_rfl
  | cons x rest ih =>
      intro free hpos
      have hx : free ≤ max (arrival x) free + duration x :=
        le_trans (le_max_right _ _) (le_add_of_nonneg_right (hpos x List.mem_cons_self))
      exact le_trans hx (ih _ fun y hy => hpos y (List.mem_cons_of_mem _ hy))

/-- None of a line is through before the server is free. -/
theorem le_of_mem_slots {free : K} {l : List α} (hpos : ∀ x ∈ l, 0 ≤ duration x)
    {e : α × K × K} (he : e ∈ slots arrival duration free l) : free ≤ e.2.2 := by
  induction l generalizing free with
  | nil => cases he
  | cons x rest ih =>
      have hx : free ≤ max (arrival x) free + duration x :=
        le_trans (le_max_right _ _) (le_add_of_nonneg_right (hpos x List.mem_cons_self))
      rcases List.mem_cons.mp he with rfl | he
      · exact hx
      · exact le_trans hx (ih (fun y hy => hpos y (List.mem_cons_of_mem _ hy)) he)

/-- **A longer line is never through sooner.** -/
theorem clears_le_of_isPrefix {pre l : List α} (h : pre <+: l) (free : K)
    (hpos : ∀ x ∈ l, 0 ≤ duration x) :
    clears arrival duration free pre ≤ clears arrival duration free l := by
  obtain ⟨rest, rfl⟩ := h
  rw [clears_append]
  exact le_clears rest _ fun x hx => hpos x (List.mem_append_right _ hx)

end Server

/-- Where nothing of the rest is kept, nothing of the rest is taken. -/
theorem takeWhile_append_of_head {α : Type*} {p : α → Bool} {l l' : List α}
    (h : ∀ x, l'.head? = some x → p x = false) :
    (l ++ l').takeWhile p <+: l := by
  induction l with
  | nil =>
      cases l' with
      | nil => exact List.prefix_rfl
      | cons x rest =>
          rw [List.nil_append, List.takeWhile_cons_of_neg (by simp [h x rfl])]
  | cons y rest ih =>
      rw [List.cons_append]
      cases hy : p y with
      | true =>
          rw [List.takeWhile_cons_of_pos hy]
          exact (List.prefix_cons_inj y).mpr ih
      | false =>
          rw [List.takeWhile_cons_of_neg (by simp [hy])]
          exact List.nil_prefix

end Lib
