/-
  Toso.Lib.Heap — a priority queue by what it pops.

  A heap whose order is total on what it holds is, to its user, the list of
  what it would pop, in order: popping is the head and pushing is an ordered
  insertion.

  Main results:
    * `heappush_perm`, `heappush_sorted` — what a push holds, and in which order.
    * `heappush_append` — a push passes over what is not after it.
    * `heappush_map` — a push commutes with an order embedding.
    * `heappush_filterMap`, `heappush_filterMap_last` — what a push is to a user who
      looks at some of the elements only.
-/
import Mathlib.Data.List.Perm.Basic

namespace Lib

variable {α β : Type*} (lt : α → α → Prop) [DecidableRel lt]

/-- Push `x`: before the first element it is less than. -/
def heappush (x : α) : List α → List α
  | [] => [x]
  | y :: rest => if lt x y then x :: y :: rest else y :: heappush x rest

theorem heappush_perm (x : α) (l : List α) : (heappush lt x l).Perm (x :: l) := by
  induction l with
  | nil => exact List.Perm.refl _
  | cons y rest ih =>
      unfold heappush
      split
      · exact List.Perm.refl _
      · exact (ih.cons y).trans (List.Perm.swap x y rest)

@[simp] theorem mem_heappush {x y : α} {l : List α} : y ∈ heappush lt x l ↔ y = x ∨ y ∈ l := by
  rw [(heappush_perm lt x l).mem_iff, List.mem_cons]

/-- A push keeps the order, of an element comparable to all. -/
theorem heappush_sorted [IsTrans α lt] {x : α} {l : List α} (hl : l.Pairwise lt)
    (hx : ∀ y ∈ l, ¬ lt x y → lt y x) : (heappush lt x l).Pairwise lt := by
  induction l with
  | nil => exact List.pairwise_singleton _ _
  | cons y rest ih =>
      rw [List.pairwise_cons] at hl
      unfold heappush
      split
      · rename_i hxy
        refine List.Pairwise.cons ?_ (List.Pairwise.cons hl.1 hl.2)
        intro z hz
        rcases List.mem_cons.mp hz with rfl | hz
        · exact hxy
        · exact IsTrans.trans _ _ _ hxy (hl.1 z hz)
      · rename_i hxy
        refine List.Pairwise.cons ?_ (ih hl.2 fun z hz => hx z (List.mem_cons_of_mem _ hz))
        intro z hz
        rcases (mem_heappush lt).mp hz with rfl | hz
        · exact hx y List.mem_cons_self hxy
        · exact hl.1 z hz

/-- What is not after the new element stays in front of it. -/
theorem heappush_append {x : α} {pre l : List α} (hpre : ∀ y ∈ pre, ¬ lt x y) :
    heappush lt x (pre ++ l) = pre ++ heappush lt x l := by
  induction pre with
  | nil => rfl
  | cons y pre ih =>
      show (if lt x y then _ else y :: heappush lt x (pre ++ l)) = _
      rw [if_neg (hpre y List.mem_cons_self), ih fun z hz => hpre z (List.mem_cons_of_mem _ hz)]
      rfl

/-- A push commutes with a map that keeps the order. -/
theorem heappush_map {lt' : β → β → Prop} [DecidableRel lt'] {f : α → β}
    (hf : ∀ a b, lt' (f a) (f b) ↔ lt a b) (x : α) (l : List α) :
    (heappush lt x l).map f = heappush lt' (f x) (l.map f) := by
  induction l with
  | nil => rfl
  | cons y l ih =>
      show (if lt x y then x :: y :: l else y :: heappush lt x l).map f
        = if lt' (f x) (f y) then f x :: f y :: l.map f else f y :: heappush lt' (f x) (l.map f)
      by_cases h : lt x y
      · rw [if_pos h, if_pos ((hf x y).mpr h)]
        rfl
      · rw [if_neg h, if_neg fun h' => h ((hf x y).mp h'), ← ih]
        rfl

/-- To a user who does not look at it, nothing was pushed. -/
theorem heappush_filterMap {f : α → Option β} {x : α} (hx : f x = none) (l : List α) :
    (heappush lt x l).filterMap f = l.filterMap f := by
  induction l with
  | nil =>
      show [x].filterMap f = [].filterMap f
      rw [List.filterMap_cons_none hx]
  | cons y l ih =>
      unfold heappush
      split
      · rw [List.filterMap_cons_none hx]
      · rw [List.filterMap_cons, List.filterMap_cons, ih]

/-- To a user who looks only at what it is not before, it was pushed at the end. -/
theorem heappush_filterMap_last [IsTrans α lt] {f : α → Option β} {x : α} {b : β}
    (hb : f x = some b) {l : List α} (hl : l.Pairwise lt)
    (hx : ∀ y ∈ l, f y ≠ none → ¬ lt x y) :
    (heappush lt x l).filterMap f = l.filterMap f ++ [b] := by
  induction l with
  | nil =>
      show [x].filterMap f = _
      rw [List.filterMap_cons_some hb]
      rfl
  | cons y l ih =>
      rw [List.pairwise_cons] at hl
      unfold heappush
      split
      · rename_i hxy
        -- it is before all of the rest, which the user then does not look at
        have hnone : ∀ z ∈ y :: l, f z = none := by
          intro z hz
          by_contra hf
          refine hx z hz hf ?_
          rcases List.mem_cons.mp hz with rfl | hz
          · exact hxy
          · exact IsTrans.trans _ _ _ hxy (hl.1 z hz)
        rw [List.filterMap_cons_some hb, List.filterMap_eq_nil_iff.mpr hnone]
        rfl
      · rename_i hxy
        have hrest := ih hl.2 fun z hz => hx z (List.mem_cons_of_mem _ hz)
        cases hfy : f y with
        | none => rw [List.filterMap_cons_none hfy, List.filterMap_cons_none hfy, hrest]
        | some c =>
            rw [List.filterMap_cons_some hfy, List.filterMap_cons_some hfy, hrest]
            rfl

end Lib
