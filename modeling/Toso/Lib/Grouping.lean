/-
  Toso.Lib.Grouping — a list grouped under keys, in its order.

  Each element joins the group of its key, behind those before it; a key gets a
  group with its first element.

  Main results:
    * `groupBy_get?` — what a group holds.
    * `groupBy_perm` — the groups, put together in any order, hold the list.
    * `sum_groupBy`, `sum_getD_groupBy` — a sum, group by group: over all of them, and
      over those of some keys.
-/
import Toso.Lib.Dict
import Mathlib.Algebra.Order.Group.Multiset

namespace Lib

variable {α κ : Type*} [DecidableEq κ] (f : α → κ)

/-- One element joins its group. -/
def joinGroup (d : Dict κ (List α)) (a : α) : Dict κ (List α) :=
  d.set (f a) (d.getD (f a) [] ++ [a])

/-- The groups of a list. -/
def groupBy (l : List α) : Dict κ (List α) := l.foldl (joinGroup f) Dict.empty

theorem getD_joinGroup (d : Dict κ (List α)) (a : α) (k : κ) :
    (joinGroup f d a).getD k [] = d.getD k [] ++ if f a = k then [a] else [] := by
  unfold joinGroup Dict.getD
  rw [Dict.get?_set]
  by_cases h : f a = k
  · subst h
    simp
  · simp [h]

theorem getD_foldl_joinGroup (l : List α) (k : κ) : ∀ d : Dict κ (List α),
    (l.foldl (joinGroup f) d).getD k [] = d.getD k [] ++ l.filter (f · = k) := by
  induction l with
  | nil => intro d; simp
  | cons a l ih =>
      intro d
      rw [List.foldl_cons, ih, getD_joinGroup, List.append_assoc, List.filter_cons]
      by_cases h : f a = k
      · simp [h]
      · simp [h]

theorem mem_foldl_joinGroup (l : List α) (k : κ) : ∀ d : Dict κ (List α),
    k ∈ l.foldl (joinGroup f) d ↔ k ∈ d ∨ k ∈ l.map f := by
  induction l with
  | nil => intro d; simp
  | cons a l ih =>
      intro d
      rw [List.foldl_cons, ih, joinGroup, Dict.mem_set, List.map_cons, List.mem_cons]
      tauto

theorem mem_groupBy (l : List α) (k : κ) : k ∈ groupBy f l ↔ k ∈ l.map f := by
  rw [groupBy, mem_foldl_joinGroup]
  simp

/-- **What a group holds.** -/
theorem groupBy_get? (l : List α) {k : κ} {group : List α} :
    (groupBy f l).get? k = some group ↔ k ∈ l.map f ∧ group = l.filter (f · = k) := by
  have hgetD : (groupBy f l).getD k [] = l.filter (f · = k) := by
    rw [groupBy, getD_foldl_joinGroup]
    simp [Dict.getD]
  have hread : (groupBy f l).getD k [] = ((groupBy f l).get? k).getD [] := rfl
  constructor
  · intro h
    rw [← mem_groupBy, Dict.mem_iff]
    rw [hread, h] at hgetD
    exact ⟨⟨group, h⟩, hgetD⟩
  · rintro ⟨hk, hgroup⟩
    obtain ⟨held, hheld⟩ := (Dict.mem_iff _ k).mp ((mem_groupBy f l k).mpr hk)
    rw [hread, hheld] at hgetD
    rw [hheld, hgroup]
    exact congrArg some hgetD

/-- The elements of all groups, as a multiset. -/
theorem sumBy_foldl_joinGroup (l : List α) : ∀ d : Dict κ (List α),
    (l.foldl (joinGroup f) d).sumBy (fun _ group => (group : Multiset α))
      = d.sumBy (fun _ group => (group : Multiset α)) + l := by
  induction l with
  | nil => intro d; simp
  | cons a l ih =>
      intro d
      rw [List.foldl_cons, ih]
      have hset := d.sumBy_set (fun _ group => (group : Multiset α)) (f a)
        (d.getD (f a) [] ++ [a])
      have hterm : d.termAt (fun _ group => (group : Multiset α)) (f a)
          = (d.getD (f a) [] : Multiset α) := by
        unfold Dict.termAt Dict.getD
        cases d.get? (f a) <;> rfl
      rw [hterm, ← Multiset.coe_add, add_left_comm, add_comm] at hset
      have hjoined := add_left_cancel hset
      rw [joinGroup, hjoined, add_assoc]
      rfl

/-- **The groups put together**, in any order, are the list. -/
theorem groupBy_perm (l : List α) {groups : List (κ × List α)}
    (h : groups.Perm (groupBy f l).entries) : (groups.map Prod.snd).flatten.Perm l := by
  have hsum := sumBy_foldl_joinGroup f l Dict.empty
  have hflat : ∀ gs : List (κ × List α),
      ((gs.map Prod.snd).flatten : Multiset α) = (gs.map fun g => (g.2 : Multiset α)).sum := by
    intro gs
    induction gs with
    | nil => rfl
    | cons g gs ih =>
        rw [List.map_cons, List.map_cons, List.flatten_cons, List.sum_cons, ← ih]
        rfl
  rw [← Multiset.coe_eq_coe, hflat, (h.map _).sum_eq]
  rw [Dict.sumBy_empty, zero_add] at hsum
  exact hsum

section Sums

variable {M : Type*} [AddCommMonoid M] (w : α → M)

/-- **A sum, group by group**, over all groups in any order. -/
theorem sum_groupBy (l : List α) {groups : List (κ × List α)}
    (h : groups.Perm (groupBy f l).entries) :
    (groups.map fun g => (g.2.map w).sum).sum = (l.map w).sum := by
  rw [← ((groupBy_perm f l h).map w).sum_eq, List.map_flatten, List.sum_flatten, List.map_map,
    List.map_map]
  rfl

/-- A sum over what falls in one of two kinds, and never in both. -/
theorem sum_filter_or (p q : α → Bool) (l : List α) (hpq : ∀ a ∈ l, p a = true → q a = false) :
    ((l.filter fun a => p a || q a).map w).sum
      = ((l.filter p).map w).sum + ((l.filter q).map w).sum := by
  induction l with
  | nil => simp
  | cons a l ih =>
      rw [List.forall_mem_cons] at hpq
      have ih := ih hpq.2
      cases hp : p a with
      | false =>
          cases hq : q a with
          | false => simp [hp, hq, ih]
          | true => simp [hp, hq, ih, add_left_comm]
      | true =>
          have hq := hpq.1 hp
          simp [hp, hq, ih, add_assoc]

/-- **A sum over the groups of some keys** is one over what has such a key. -/
theorem sum_getD_groupBy (l : List α) {ks : List κ} (hks : ks.Nodup) :
    (ks.map fun k => (((groupBy f l).getD k []).map w).sum).sum
      = ((l.filter fun a => decide (f a ∈ ks)).map w).sum := by
  induction ks with
  | nil => simp
  | cons k ks ih =>
      obtain ⟨hk, hks⟩ := List.nodup_cons.mp hks
      have hgroup : (groupBy f l).getD k [] = l.filter (f · = k) := by
        rw [groupBy, getD_foldl_joinGroup]
        simp [Dict.getD]
      have hapart : ∀ a ∈ l, decide (f a = k) = true → decide (f a ∈ ks) = false := by
        intro a _ ha
        rw [of_decide_eq_true ha]
        exact decide_eq_false hk
      rw [List.map_cons, List.sum_cons, ih hks, hgroup, ← sum_filter_or w _ _ l hapart]
      simp only [List.mem_cons, Bool.decide_or]

end Sums

end Lib
