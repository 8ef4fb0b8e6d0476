/-
  Toso.Lib.Join — two tables over the same keys.

  Two lists whose keys are pairwise distinct and the same, in whatever order.  A
  column that agrees key by key is the same column up to order, so its total is
  the same; a column no larger key by key is no larger in total.

  Main results:
    * `perm_of_keys` — the columns agree up to order.
    * `sum_of_keys`, `sum_le_of_keys` — and so do what they add up to.
-/
import Mathlib.Algebra.BigOperators.Group.List.Basic
import Mathlib.Algebra.Order.BigOperators.Group.List
import Mathlib.Data.List.Nodup
import Mathlib.Data.List.Perm.Basic

namespace Lib.Join

variable {α β γ κ : Type*} {l : List α} {l' : List β} {k : α → κ} {j : β → κ}

/-- The keys agree up to order. -/
theorem perm_keys (hl : (l.map k).Nodup) (hl' : (l'.map j).Nodup)
    (hkeys : ∀ x, x ∈ l.map k ↔ x ∈ l'.map j) : (l.map k).Perm (l'.map j) :=
  (List.perm_ext_iff_of_nodup hl hl').mpr hkeys

/-- As many rows on one side as on the other. -/
theorem length_of_keys (hl : (l.map k).Nodup) (hl' : (l'.map j).Nodup)
    (hkeys : ∀ x, x ∈ l.map k ↔ x ∈ l'.map j) : l.length = l'.length := by
  have hlen := (perm_keys hl hl' hkeys).length_eq
  rwa [List.length_map, List.length_map] at hlen

/-- **A column that agrees key by key** agrees up to order. -/
theorem perm_of_keys (hl : (l.map k).Nodup) (hl' : (l'.map j).Nodup)
    (hkeys : ∀ x, x ∈ l.map k ↔ x ∈ l'.map j) {f : α → γ} {g : β → γ}
    (hfg : ∀ a ∈ l, ∀ b ∈ l', k a = j b → f a = g b) : (l.map f).Perm (l'.map g) := by
  have hpairs : (l.map fun a => (k a, f a)).Perm (l'.map fun b => (j b, g b)) := by
    refine (List.perm_ext_iff_of_nodup ?_ ?_).mpr ?_
    · refine List.Nodup.of_map Prod.fst ?_
      rwa [List.map_map]
    · refine List.Nodup.of_map Prod.fst ?_
      rwa [List.map_map]
    · rintro ⟨x, y⟩
      simp only [List.mem_map, Prod.mk.injEq]
      constructor
      · rintro ⟨a, ha, rfl, rfl⟩
        obtain ⟨b, hb, hkey⟩ := List.mem_map.mp ((hkeys (k a)).mp (List.mem_map_of_mem ha))
        exact ⟨b, hb, hkey, (hfg a ha b hb hkey.symm).symm⟩
      · rintro ⟨b, hb, rfl, rfl⟩
        obtain ⟨a, ha, hkey⟩ := List.mem_map.mp ((hkeys (j b)).mpr (List.mem_map_of_mem hb))
        exact ⟨a, ha, hkey, hfg a ha b hb hkey⟩
  have hsnd := hpairs.map Prod.snd
  rwa [List.map_map, List.map_map] at hsnd

/-- Its total is the same. -/
theorem sum_of_keys [AddCommMonoid γ] (hl : (l.map k).Nodup) (hl' : (l'.map j).Nodup)
    (hkeys : ∀ x, x ∈ l.map k ↔ x ∈ l'.map j) {f : α → γ} {g : β → γ}
    (hfg : ∀ a ∈ l, ∀ b ∈ l', k a = j b → f a = g b) : (l.map f).sum = (l'.map g).sum :=
  (perm_of_keys hl hl' hkeys hfg).sum_eq

/-- **A column no larger key by key** is no larger in total. -/
theorem sum_le_of_keys [DecidableEq κ] [AddCommMonoid γ] [Preorder γ] [AddLeftMono γ]
    (hl : (l.map k).Nodup) (hl' : (l'.map j).Nodup)
    (hkeys : ∀ x, x ∈ l.map k ↔ x ∈ l'.map j) {f : α → γ} {g : β → γ}
    (hfg : ∀ a ∈ l, ∀ b ∈ l', k a = j b → f a ≤ g b) : (l.map f).sum ≤ (l'.map g).sum := by
  -- each row of one side, with what its key holds on the other
  let other := fun a => ((l'.find? fun b => decide (j b = k a)).map g).getD 0
  have hother : ∀ a ∈ l, ∀ b ∈ l', k a = j b → other a = g b := by
    intro a _ b hb hkey
    have hfind : (l'.find? fun c => decide (j c = k a)) = some b := by
      cases hc : l'.find? fun c => decide (j c = k a) with
      | none =>
          have hnone := List.find?_eq_none.mp hc b hb
          simp [hkey] at hnone
      | some c =>
          have hck : j c = k a := by simpa using List.find?_some hc
          exact congrArg some (List.inj_on_of_nodup_map hl' (List.mem_of_find?_eq_some hc) hb
            (hck.trans hkey))
    show ((l'.find? fun c => decide (j c = k a)).map g).getD 0 = g b
    rw [hfind]
    rfl
  rw [← sum_of_keys hl hl' hkeys hother]
  apply List.sum_le_sum
  intro a ha
  obtain ⟨b, hb, hkey⟩ := List.mem_map.mp ((hkeys (k a)).mp (List.mem_map_of_mem ha))
  rw [hother a ha b hb hkey.symm]
  exact hfg a ha b hb hkey.symm

end Lib.Join
