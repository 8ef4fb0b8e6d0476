/-
  Toso.Lib.Reach — following a relation to its end.

  A walk along a relation over finitely many things ends unless it can enter a cycle, and
  a set that is closed under the relation holds whatever can be reached from it.

  Main results:
    * `acyclic_of_acc`, `acc_of_acyclic` — a walk from a point ends exactly when it reaches
      no cycle.
    * `mem_of_reaches` — a closed set holds what its members reach.
-/
import Mathlib.Data.Finset.Card
import Mathlib.Logic.Relation
import Mathlib.Data.Finset.Filter

namespace Lib

open Relation

variable {α : Type*} {r : α → α → Prop}

/-- A closed set holds what its members reach. -/
theorem mem_of_reaches {p : α → Prop} (hclosed : ∀ x y, p x → r x y → p y) {a b : α} (ha : p a)
    (h : ReflTransGen r a b) : p b := by
  induction h with
  | refl => exact ha
  | tail _ hstep ih => exact hclosed _ _ ih hstep

/-- Where every walk ends, none comes back. -/
theorem acyclic_of_acc {a : α} (h : Acc (fun y x => r x y) a) :
    ∀ x, ReflTransGen r a x → ¬ TransGen r x x := by
  induction h with
  | intro a _ ih =>
      intro x hx hcycle
      rcases ReflTransGen.cases_head hx with rfl | ⟨k, hk, hrest⟩
      · -- the first step of the cycle leads to a point that comes back to it
        obtain ⟨k, hk, hback⟩ := TransGen.head'_iff.mp hcycle
        exact ih k hk a hback hcycle
      · exact ih k hk x hrest hcycle

open Classical in
/-- Off every cycle, a step leaves fewer points ahead. -/
theorem ahead_lt (S : Finset α) {a k : α} (hk : k ∈ S) (hstep : r a k)
    (hcycle : ¬ TransGen r k k) :
    (S.filter (TransGen r k)).card < (S.filter (TransGen r a)).card := by
  refine Finset.card_lt_card ⟨fun x hx => ?_, fun hsub => ?_⟩
  · obtain ⟨hmem, hreach⟩ := Finset.mem_filter.mp hx
    exact Finset.mem_filter.mpr ⟨hmem, .head hstep hreach⟩
  -- the point stepped to is ahead of the first, and not of itself
  · have hself := hsub (Finset.mem_filter.mpr ⟨hk, .single hstep⟩)
    exact hcycle (Finset.mem_filter.mp hself).2

open Classical in
/-- **Over finitely many points a walk ends** unless it reaches a cycle. -/
theorem acc_of_acyclic (S : Finset α) (hS : ∀ x y, r x y → y ∈ S) {a : α}
    (h : ∀ x, ReflTransGen r a x → ¬ TransGen r x x) : Acc (fun y x => r x y) a := by
  induction hn : (S.filter (TransGen r a)).card using Nat.strong_induction_on generalizing a with
  | _ n ih =>
      subst hn
      refine Acc.intro a fun k hk => ?_
      exact ih _ (ahead_lt S (hS a k hk) hk (h k (.single hk)))
        (fun x hx => h x (.head hk hx)) rfl

end Lib
