/-
  Toso.Lib.Dict — insertion-ordered dictionaries with unique keys.

  A `Dict α β` is an association list whose keys are pairwise distinct, the
  distinctness carried as a field.  Reading, writing and removing follow a
  scripting-language dictionary: writing a present key keeps its place,
  writing an absent one appends, removing an absent one does nothing.

  Main results:
    * `get?_set`, `get?_erase`, `get?_update` — what a read sees after a write.
    * `mem_iff` — membership is a successful read.
    * `sumBy_set`, `sumBy_erase`, `sumBy_update` — how a sum over the entries
      moves, in any commutative monoid; totals and counts are instances.
-/
import Mathlib.Algebra.BigOperators.Group.Finset.Basic
import Mathlib.Algebra.BigOperators.Group.List.Basic
import Mathlib.Algebra.Order.BigOperators.Group.List
import Mathlib.Algebra.Order.Ring.Int
import Mathlib.Data.List.Nodup
import Mathlib.Tactic.Abel

namespace Lib

/-! ## §1. Raw association lists. -/

namespace Assoc

variable {α β : Type*} [DecidableEq α]

/-- The value under `k`, if any. -/
def find (k : α) : List (α × β) → Option β
  | [] => none
  | (a, b) :: l => if a = k then some b else find k l

/-- Write `v` under `k`: in place when present, appended otherwise. -/
def put (k : α) (v : β) : List (α × β) → List (α × β)
  | [] => [(k, v)]
  | (a, b) :: l => if a = k then (a, v) :: l else (a, b) :: put k v l

/-- Remove the entry under `k`. -/
def drop (k : α) : List (α × β) → List (α × β)
  | [] => []
  | (a, b) :: l => if a = k then l else (a, b) :: drop k l

theorem mem_keys_put (k x : α) (v : β) (l : List (α × β)) :
    x ∈ (put k v l).map Prod.fst ↔ x = k ∨ x ∈ l.map Prod.fst := by
  induction l with
  | nil => simp [put]
  | cons hd l ih =>
      obtain ⟨a, b⟩ := hd
      by_cases h : a = k
      · subst h
        simp [put]
      · simp only [put, h, if_false, List.map_cons, List.mem_cons, ih]
        tauto

theorem nodup_put (k : α) (v : β) (l : List (α × β))
    (h : (l.map Prod.fst).Nodup) : ((put k v l).map Prod.fst).Nodup := by
  induction l with
  | nil => simp [put]
  | cons hd l ih =>
      obtain ⟨a, b⟩ := hd
      simp only [List.map_cons, List.nodup_cons] at h
      by_cases hak : a = k
      · simpa [put, hak] using h
      · simp only [put, hak, if_false, List.map_cons, List.nodup_cons]
        refine ⟨fun hmem => ?_, ih h.2⟩
        rcases (mem_keys_put k a v l).mp hmem with hk | hl
        · exact hak hk
        · exact h.1 hl

theorem sublist_drop (k : α) (l : List (α × β)) : (drop k l).Sublist l := by
  induction l with
  | nil => simp [drop]
  | cons hd l ih =>
      obtain ⟨a, b⟩ := hd
      by_cases h : a = k
      · simp [drop, h]
      · simpa [drop, h] using ih

theorem nodup_drop (k : α) (l : List (α × β))
    (h : (l.map Prod.fst).Nodup) : ((drop k l).map Prod.fst).Nodup :=
  h.sublist ((sublist_drop k l).map Prod.fst)

theorem find_put (k x : α) (v : β) (l : List (α × β)) :
    find x (put k v l) = if k = x then some v else find x l := by
  induction l with
  | nil => simp [put, find]
  | cons hd l ih =>
      obtain ⟨a, b⟩ := hd
      by_cases hak : a = k
      · subst hak
        by_cases hax : a = x <;> simp [put, find, hax]
      · simp only [put, hak, if_false, find, ih]
        by_cases hax : a = x
        · subst hax
          simp [Ne.symm hak]
        · simp [hax]

theorem find_eq_none_iff (k : α) (l : List (α × β)) :
    find k l = none ↔ k ∉ l.map Prod.fst := by
  induction l with
  | nil => simp [find]
  | cons hd l ih =>
      obtain ⟨a, b⟩ := hd
      by_cases h : a = k
      · simp [find, h]
      · simp only [find, h, if_false, ih, List.map_cons, List.mem_cons, not_or]
        exact ⟨fun hl => ⟨fun hk => h hk.symm, hl⟩, fun hl => hl.2⟩

theorem find_drop (k x : α) (l : List (α × β)) (h : (l.map Prod.fst).Nodup) :
    find x (drop k l) = if k = x then none else find x l := by
  induction l with
  | nil => simp [drop, find]
  | cons hd l ih =>
      obtain ⟨a, b⟩ := hd
      simp only [List.map_cons, List.nodup_cons] at h
      by_cases hak : a = k
      · subst hak
        by_cases hax : a = x
        · subst hax
          simpa [drop, find] using (find_eq_none_iff a l).mpr h.1
        · simp [drop, find, hax]
      · simp only [drop, hak, if_false, find, ih h.2]
        by_cases hax : a = x
        · subst hax
          simp [Ne.symm hak]
        · simp [hax]

theorem mem_of_find (k : α) (v : β) (l : List (α × β)) (h : find k l = some v) :
    (k, v) ∈ l := by
  induction l with
  | nil => simp [find] at h
  | cons hd l ih =>
      obtain ⟨a, b⟩ := hd
      by_cases hak : a = k
      · simp only [find, hak, if_true, Option.some.injEq] at h
        simp [hak, h]
      · simp only [find, hak, if_false] at h
        exact List.mem_cons_of_mem _ (ih h)

theorem find_of_mem (k : α) (v : β) (l : List (α × β))
    (hnd : (l.map Prod.fst).Nodup) (h : (k, v) ∈ l) : find k l = some v := by
  induction l with
  | nil => simp at h
  | cons hd l ih =>
      obtain ⟨a, b⟩ := hd
      simp only [List.map_cons, List.nodup_cons] at hnd
      rcases List.mem_cons.mp h with heq | hl
      · cases heq
        simp [find]
      · have hak : a ≠ k := fun hk =>
          hnd.1 (hk ▸ List.mem_map_of_mem (f := Prod.fst) hl)
        simpa [find, hak] using ih hnd.2 hl

variable {M : Type*} [AddCommMonoid M]

theorem sum_put (f : α → β → M) (k : α) (v : β) (l : List (α × β)) :
    ((put k v l).map fun e => f e.1 e.2).sum + ((find k l).map (f k)).getD 0
      = (l.map fun e => f e.1 e.2).sum + f k v := by
  induction l with
  | nil => simp [put, find]
  | cons hd l ih =>
      obtain ⟨a, b⟩ := hd
      by_cases hak : a = k
      · subst hak
        simp only [put, find, if_true, List.map_cons, List.sum_cons,
          Option.map_some, Option.getD_some]
        abel
      · simp only [put, find, hak, if_false, List.map_cons, List.sum_cons]
        rw [add_assoc, ih, add_assoc]

theorem sum_drop (f : α → β → M) (k : α) (l : List (α × β)) :
    ((drop k l).map fun e => f e.1 e.2).sum + ((find k l).map (f k)).getD 0
      = (l.map fun e => f e.1 e.2).sum := by
  induction l with
  | nil => simp [drop, find]
  | cons hd l ih =>
      obtain ⟨a, b⟩ := hd
      by_cases hak : a = k
      · subst hak
        simp [drop, find, add_comm]
      · simp only [drop, find, hak, if_false, List.map_cons, List.sum_cons]
        rw [add_assoc, ih]

end Assoc

/-! ## §2. The dictionary and its reads. -/

/-- An association list with pairwise distinct keys. -/
structure Dict (α β : Type*) where
  entries : List (α × β)
  nodup : (entries.map Prod.fst).Nodup
  deriving DecidableEq

namespace Dict

variable {α β : Type*}

/-- The dictionary with no entries. -/
def empty : Dict α β := ⟨[], List.nodup_nil⟩

instance : Inhabited (Dict α β) := ⟨empty⟩

/-- The keys, in insertion order. -/
def keys (d : Dict α β) : List α := d.entries.map Prod.fst

/-- The values, in insertion order. -/
def values (d : Dict α β) : List β := d.entries.map Prod.snd

instance : Membership α (Dict α β) := ⟨fun d k => k ∈ d.keys⟩

variable [DecidableEq α]

instance (k : α) (d : Dict α β) : Decidable (k ∈ d) :=
  inferInstanceAs (Decidable (k ∈ d.keys))

/-- The value under `k`, if any. -/
def get? (d : Dict α β) (k : α) : Option β := Assoc.find k d.entries

/-- The value under `k`, or `v`. -/
def getD (d : Dict α β) (k : α) (v : β) : β := (d.get? k).getD v

/-- Write `v` under `k`. -/
def set (d : Dict α β) (k : α) (v : β) : Dict α β :=
  ⟨Assoc.put k v d.entries, Assoc.nodup_put k v d.entries d.nodup⟩

/-- Remove `k` (nothing when absent). -/
def erase (d : Dict α β) (k : α) : Dict α β :=
  ⟨Assoc.drop k d.entries, Assoc.nodup_drop k d.entries d.nodup⟩

/-- Write every entry of `e`, in order. -/
def update (d e : Dict α β) : Dict α β :=
  e.entries.foldl (fun d kv => d.set kv.1 kv.2) d

/-- Keep the entries whose key satisfies `p`. -/
def filterKeys (d : Dict α β) (p : α → Bool) : Dict α β :=
  ⟨d.entries.filter fun e => p e.1, d.nodup.sublist (List.filter_sublist.map _)⟩

/-- The dictionary tabulating `f` on distinct keys. -/
def ofKeys (ks : List α) (h : ks.Nodup) (f : α → β) : Dict α β :=
  ⟨ks.map fun k => (k, f k), by simpa [Function.comp_def] using h⟩

/-- Apply `f` to every value. -/
def mapValues {γ : Type*} (d : Dict α β) (f : β → γ) : Dict α γ :=
  ⟨d.entries.map fun e => (e.1, f e.2), by simpa [Function.comp_def] using d.nodup⟩

/-! ## §3. What a read sees. -/

omit [DecidableEq α] in
theorem mem_def (d : Dict α β) (k : α) : k ∈ d ↔ k ∈ d.keys := Iff.rfl

theorem get?_eq_none_iff (d : Dict α β) (k : α) : d.get? k = none ↔ k ∉ d :=
  Assoc.find_eq_none_iff k d.entries

/-- Membership is a successful read. -/
theorem mem_iff (d : Dict α β) (k : α) : k ∈ d ↔ ∃ v, d.get? k = some v := by
  rw [← Option.ne_none_iff_exists', ne_eq, get?_eq_none_iff, not_not]

theorem get?_eq_some_iff (d : Dict α β) (k : α) (v : β) :
    d.get? k = some v ↔ (k, v) ∈ d.entries :=
  ⟨Assoc.mem_of_find k v d.entries, Assoc.find_of_mem k v d.entries d.nodup⟩

/-- A dictionary that answers nothing holds nothing. -/
theorem eq_empty {d : Dict α β} (h : ∀ k, d.get? k = none) : d = empty := by
  obtain ⟨entries, nodup⟩ := d
  cases entries with
  | nil => rfl
  | cons e rest =>
      have hk := h e.1
      rw [get?_eq_none_iff] at hk
      exact absurd List.mem_cons_self hk

theorem mem_of_get? {d : Dict α β} {k : α} {v : β} (h : d.get? k = some v) : k ∈ d :=
  (d.mem_iff k).mpr ⟨v, h⟩

@[simp] theorem get?_empty (k : α) : (empty : Dict α β).get? k = none := rfl

omit [DecidableEq α] in
@[simp] theorem not_mem_empty (k : α) : k ∉ (empty : Dict α β) := by
  simp [mem_def, keys, empty]

theorem get?_set (d : Dict α β) (k x : α) (v : β) :
    (d.set k v).get? x = if k = x then some v else d.get? x :=
  Assoc.find_put k x v d.entries

@[simp] theorem get?_set_self (d : Dict α β) (k : α) (v : β) :
    (d.set k v).get? k = some v := by
  simp [get?_set]

theorem get?_set_ne (d : Dict α β) {k x : α} (v : β) (h : k ≠ x) :
    (d.set k v).get? x = d.get? x := by
  simp [get?_set, h]

/-- A read after a write sees what was written, or what was there. -/
theorem get?_set_cases {d : Dict α β} {k x : α} {v w : β} (h : (d.set k v).get? x = some w) :
    (k = x ∧ w = v) ∨ (k ≠ x ∧ d.get? x = some w) := by
  rw [get?_set] at h
  by_cases hk : k = x
  · rw [if_pos hk] at h
    exact .inl ⟨hk, (Option.some.inj h).symm⟩
  · rw [if_neg hk] at h
    exact .inr ⟨hk, h⟩

/-- What is there after a write is what was written, or was there. -/
theorem isSome_get?_set {d : Dict α β} {k x : α} {v : β} :
    ((d.set k v).get? x).isSome = true ↔ k = x ∨ (d.get? x).isSome = true := by
  rw [get?_set]
  by_cases hk : k = x
  · simp [hk]
  · simp [hk]

theorem get?_erase (d : Dict α β) (k x : α) :
    (d.erase k).get? x = if k = x then none else d.get? x :=
  Assoc.find_drop k x d.entries d.nodup

@[simp] theorem get?_erase_self (d : Dict α β) (k : α) :
    (d.erase k).get? k = none := by
  simp [get?_erase]

theorem get?_erase_ne (d : Dict α β) {k x : α} (h : k ≠ x) :
    (d.erase k).get? x = d.get? x := by
  simp [get?_erase, h]

@[simp] theorem mem_set (d : Dict α β) (k x : α) (v : β) :
    x ∈ d.set k v ↔ x = k ∨ x ∈ d :=
  Assoc.mem_keys_put k x v d.entries

@[simp] theorem mem_erase (d : Dict α β) (k x : α) :
    x ∈ d.erase k ↔ x ≠ k ∧ x ∈ d := by
  simp only [mem_iff, get?_erase]
  by_cases h : k = x
  · simp [h]
  · simp [h, Ne.symm h]

theorem get?_ofKeys (ks : List α) (h : ks.Nodup) (f : α → β) (k : α) :
    (ofKeys ks h f).get? k = if k ∈ ks then some (f k) else none := by
  by_cases hk : k ∈ ks
  · rw [if_pos hk, get?_eq_some_iff]
    exact List.mem_map.mpr ⟨k, hk, rfl⟩
  · rw [if_neg hk, get?_eq_none_iff]
    simpa [mem_def, keys, ofKeys, Function.comp_def] using hk

omit [DecidableEq α] in
@[simp] theorem mem_ofKeys (ks : List α) (h : ks.Nodup) (f : α → β) (k : α) :
    k ∈ ofKeys ks h f ↔ k ∈ ks := by
  simp [mem_def, keys, ofKeys, Function.comp_def]

theorem get?_filterKeys (d : Dict α β) (p : α → Bool) (k : α) :
    (d.filterKeys p).get? k = if p k then d.get? k else none := by
  have hmem : ∀ v, (d.filterKeys p).get? k = some v ↔ p k = true ∧ d.get? k = some v := by
    intro v
    rw [get?_eq_some_iff, get?_eq_some_iff]
    simp only [filterKeys, List.mem_filter]
    exact and_comm
  by_cases hp : p k = true
  · rw [if_pos hp]
    apply Option.ext
    intro v
    rw [hmem]
    exact ⟨fun h => h.2, fun h => ⟨hp, h⟩⟩
  · rw [if_neg hp, get?_eq_none_iff, mem_iff]
    intro h
    obtain ⟨v, hv⟩ := h
    exact hp ((hmem v).mp hv).1

theorem mem_values_iff (d : Dict α β) (v : β) : v ∈ d.values ↔ ∃ k, d.get? k = some v := by
  unfold values
  rw [List.mem_map]
  constructor
  · intro h
    obtain ⟨e, he, rfl⟩ := h
    exact ⟨e.1, (d.get?_eq_some_iff e.1 e.2).mpr he⟩
  · intro h
    obtain ⟨k, hk⟩ := h
    exact ⟨(k, v), (d.get?_eq_some_iff k v).mp hk, rfl⟩

/-- A value after a write is the one written, or was there. -/
theorem mem_values_set {d : Dict α β} {k : α} {v w : β} (h : w ∈ (d.set k v).values) :
    w = v ∨ w ∈ d.values := by
  obtain ⟨x, hx⟩ := (mem_values_iff _ _).mp h
  cases get?_set_cases hx with
  | inl hnew => exact .inl hnew.2
  | inr hold => exact .inr ((mem_values_iff _ _).mpr ⟨x, hold.2⟩)

/-- A value after a removal was there. -/
theorem mem_values_erase {d : Dict α β} {k : α} {w : β} (h : w ∈ (d.erase k).values) :
    w ∈ d.values := by
  obtain ⟨x, hx⟩ := (mem_values_iff _ _).mp h
  rw [get?_erase] at hx
  by_cases hk : k = x
  · rw [if_pos hk] at hx
    cases hx
  · rw [if_neg hk] at hx
    exact (mem_values_iff _ _).mpr ⟨x, hx⟩

omit [DecidableEq α] in
@[simp] theorem values_mapValues {γ : Type*} (d : Dict α β) (f : β → γ) :
    (d.mapValues f).values = d.values.map f := by
  simp [values, mapValues]

theorem get?_mapValues {γ : Type*} (d : Dict α β) (f : β → γ) (k : α) :
    (d.mapValues f).get? k = (d.get? k).map f := by
  have key : ∀ l : List (α × β),
      Assoc.find k (l.map fun e => (e.1, f e.2)) = (Assoc.find k l).map f := by
    intro l
    induction l with
    | nil => rfl
    | cons hd l ih =>
        obtain ⟨a, b⟩ := hd
        by_cases h : a = k <;> simp [Assoc.find, h, ih]
  exact key d.entries

theorem get?_foldl_set (l : List (α × β)) (hl : (l.map Prod.fst).Nodup) :
    ∀ (d : Dict α β) (k : α),
      (l.foldl (fun d kv => d.set kv.1 kv.2) d).get? k
        = (Assoc.find k l).or (d.get? k) := by
  induction l with
  | nil => intro d k; simp [Assoc.find]
  | cons hd l ih =>
      obtain ⟨a, b⟩ := hd
      intro d k
      simp only [List.map_cons, List.nodup_cons] at hl
      rw [List.foldl_cons, ih hl.2, get?_set]
      by_cases hak : a = k
      · subst hak
        have hnone : Assoc.find a l = none := (Assoc.find_eq_none_iff a l).mpr hl.1
        simp [Assoc.find, hnone]
      · simp [Assoc.find, hak]

/-- After `update`, the second dictionary wins where it speaks. -/
theorem get?_update (d e : Dict α β) (k : α) :
    (d.update e).get? k = (e.get? k).or (d.get? k) :=
  get?_foldl_set e.entries e.nodup d k

@[simp] theorem mem_update (d e : Dict α β) (k : α) :
    k ∈ d.update e ↔ k ∈ e ∨ k ∈ d := by
  simp only [mem_iff, get?_update]
  cases he : e.get? k <;> simp

theorem erase_eq_filterKeys (d : Dict α β) (k : α) :
    d.erase k = d.filterKeys fun x => decide (x ≠ k) := by
  have key : ∀ l : List (α × β), (l.map Prod.fst).Nodup →
      Assoc.drop k l = l.filter fun e => decide (e.1 ≠ k) := by
    intro l
    induction l with
    | nil => intro _; rfl
    | cons hd l ih =>
        obtain ⟨a, b⟩ := hd
        intro hl
        simp only [List.map_cons, List.nodup_cons] at hl
        by_cases hak : a = k
        · -- no later entry has the key, so the filter keeps the whole tail
          subst hak
          have hall : l.filter (fun e => decide (e.1 ≠ a)) = l := by
            apply List.filter_eq_self.mpr
            intro e he
            have hne : e.1 ≠ a := fun h => hl.1 (h ▸ List.mem_map_of_mem (f := Prod.fst) he)
            simpa using hne
          rw [List.filter_cons_of_neg (by simp), hall]
          simp [Assoc.drop]
        · simp [Assoc.drop, hak, ih hl.2]
  unfold erase filterKeys
  congr 1
  exact key d.entries d.nodup

/-- Erasing key after key depends on the set of keys only. -/
theorem foldl_erase (ks : List α) :
    ∀ d : Dict α β, ks.foldl erase d = d.filterKeys fun x => decide (x ∉ ks) := by
  induction ks with
  | nil =>
      intro d
      simp [filterKeys]
  | cons k ks ih =>
      intro d
      rw [List.foldl_cons, ih, erase_eq_filterKeys]
      unfold filterKeys
      simp only [List.filter_filter, List.mem_cons, not_or, Bool.decide_and, Bool.and_comm]

/-! ## §4. Sums over the entries. -/

variable {M : Type*} [AddCommMonoid M]

/-- The sum of `f` over the entries. -/
def sumBy (d : Dict α β) (f : α → β → M) : M :=
  (d.entries.map fun e => f e.1 e.2).sum

/-- What `k` contributes to `sumBy f`: its own term, or nothing. -/
def termAt (d : Dict α β) (f : α → β → M) (k : α) : M :=
  ((d.get? k).map (f k)).getD 0

omit [DecidableEq α] in
@[simp] theorem sumBy_empty (f : α → β → M) : (empty : Dict α β).sumBy f = 0 := rfl

/-- Writing moves the sum by the new term in place of the old one. -/
theorem sumBy_set (d : Dict α β) (f : α → β → M) (k : α) (v : β) :
    (d.set k v).sumBy f + d.termAt f k = d.sumBy f + f k v :=
  Assoc.sum_put f k v d.entries

/-- Removing moves the sum by the removed term. -/
theorem sumBy_erase (d : Dict α β) (f : α → β → M) (k : α) :
    (d.erase k).sumBy f + d.termAt f k = d.sumBy f :=
  Assoc.sum_drop f k d.entries

omit [DecidableEq α] in
theorem sumBy_nonneg (d : Dict α β) {f : α → β → ℤ} (h : ∀ k v, 0 ≤ f k v) :
    0 ≤ d.sumBy f := by
  unfold sumBy
  apply List.sum_nonneg
  intro x hx
  obtain ⟨e, _, rfl⟩ := List.mem_map.mp hx
  exact h e.1 e.2

theorem sum_foldl_set (f : α → β → M) (l : List (α × β)) :
    ∀ d : Dict α β, (l.map Prod.fst).Nodup →
      (l.foldl (fun d kv => d.set kv.1 kv.2) d).sumBy f
          + (l.map fun e => d.termAt f e.1).sum
        = d.sumBy f + (l.map fun e => f e.1 e.2).sum := by
  induction l with
  | nil => intro d _; simp
  | cons hd l ih =>
      obtain ⟨a, b⟩ := hd
      intro d hl
      simp only [List.map_cons, List.nodup_cons] at hl
      -- the tail's old terms are untouched by the write at the head
      have htail : (l.map fun e => (d.set a b).termAt f e.1)
          = l.map fun e => d.termAt f e.1 := by
        apply List.map_congr_left
        intro e he
        have hne : a ≠ e.1 := fun h =>
          hl.1 (h ▸ List.mem_map_of_mem (f := Prod.fst) he)
        simp [termAt, get?_set, hne]
      have ihd := ih (d.set a b) hl.2
      rw [htail] at ihd
      have hset := d.sumBy_set f a b
      simp only [List.foldl_cons, List.map_cons, List.sum_cons]
      rw [add_left_comm, ihd, ← add_assoc, add_comm (d.termAt f a), hset, add_assoc]

/-- A sum over the entries depends on the terms at the keys held only. -/
theorem sumBy_congr {d : Dict α β} {f g : α → β → M}
    (h : ∀ k v, d.get? k = some v → f k v = g k v) : d.sumBy f = d.sumBy g := by
  unfold sumBy
  congr 1
  apply List.map_congr_left
  intro e he
  exact h e.1 e.2 ((d.get?_eq_some_iff e.1 e.2).mpr he)

/-- The sum, without the order of the entries. -/
theorem sumBy_eq_sum (d : Dict α β) (f : α → β → M) :
    d.sumBy f = ∑ k ∈ d.keys.toFinset, d.termAt f k := by
  rw [List.sum_toFinset _ (show d.keys.Nodup from d.nodup)]
  unfold sumBy keys
  rw [List.map_map]
  congr 1
  apply List.map_congr_left
  intro e he
  have hread := (d.get?_eq_some_iff e.1 e.2).mpr he
  simp [termAt, hread]

/-- Two dictionaries that read alike have the same sums. -/
theorem sumBy_ext {d e : Dict α β} (h : ∀ k, d.get? k = e.get? k) (f : α → β → M) :
    d.sumBy f = e.sumBy f := by
  have hkeys : d.keys.toFinset = e.keys.toFinset := by
    ext k
    rw [List.mem_toFinset, List.mem_toFinset, ← mem_def, ← mem_def, mem_iff, mem_iff, h k]
  rw [sumBy_eq_sum, sumBy_eq_sum, hkeys]
  apply Finset.sum_congr rfl
  intro k _
  unfold termAt
  rw [h k]

/-- Writing a whole dictionary moves the sum by the new terms in place of the
old ones. -/
theorem sumBy_update (d e : Dict α β) (f : α → β → M) :
    (d.update e).sumBy f + e.sumBy (fun k _ => d.termAt f k)
      = d.sumBy f + e.sumBy f :=
  sum_foldl_set f e.entries d e.nodup

end Dict

end Lib
