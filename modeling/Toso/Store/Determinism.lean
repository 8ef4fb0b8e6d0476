/-
  Toso.Store.Determinism — a bounded volume, run twice.

  A put stamps its keys with the counter of the default ranking in the order
  Python iterates a set of strings, which differs from one process to the next.
  Two executions of one sequence of calls therefore differ in the stamps of the
  keys a put writes together, and in nothing else until an eviction stops in
  the middle of such a group.

  Main results:
    * `mem_victims` — a key is a victim when the bytes colder than it do not
      cover the need.
    * `Twin.call` — two executions that agreed so far and evict alike in the
      next call still agree after it.
    * `replacement_deterministic` — every execution of a sequence evicts and
      refuses alike exactly when no put's eviction divides a group.
-/
import Toso.Store.VolumeService
import Mathlib.Algebra.Order.BigOperators.Group.Finset

namespace Toso.Store

open Lib

variable {κ β τ : Type*} [LinearOrder κ]

/-! ## §1. The ranking by its stamps. -/

namespace LeastRecentlyUsed

/-- The stamp of a key's last use; zero of a key never used. -/
def stamp (r : LeastRecentlyUsed κ) (k : κ) : ℕ := r.used.getD k 0

theorem mem_note {key k : κ} {nbytes : Option ℕ} {r : LeastRecentlyUsed κ} :
    k ∈ (r.note key nbytes).used ↔ k = key ∨ k ∈ r.used := Dict.mem_set _ _ _ _

theorem stamp_note (key k : κ) (nbytes : Option ℕ) (r : LeastRecentlyUsed κ) :
    (r.note key nbytes).stamp k = if key = k then r.clock + 1 else r.stamp k := by
  unfold stamp note Dict.getD
  rw [Dict.get?_set]
  by_cases h : key = k <;> simp [h]

theorem mem_forget {key k : κ} {r : LeastRecentlyUsed κ} :
    k ∈ (r.forget key).used ↔ k ≠ key ∧ k ∈ r.used := Dict.mem_erase _ _ _

theorem stamp_forget {key k : κ} (h : k ≠ key) (r : LeastRecentlyUsed κ) :
    (r.forget key).stamp k = r.stamp k := by
  unfold stamp forget Dict.getD
  rw [Dict.get?_erase_ne _ (Ne.symm h)]

/-- A key is scanned when what the scan passes before it does not cover the
need; in a list sorted by stamp, that is what is stamped earlier. -/
theorem mem_scan_iff (r : LeastRecentlyUsed κ) (need : ℤ) (exclude : List κ) {k : κ} :
    ∀ (ks : List κ) (freed : ℤ), ks.Pairwise (fun a b => r.stamp a < r.stamp b) →
      (k ∈ scan r.bytes need exclude ks freed ↔
        k ∈ ks ∧ k ∉ exclude ∧
          freed + (ks.map fun j => if j ∉ exclude ∧ r.stamp j < r.stamp k
            then (r.bytes.getD j 0 : ℤ) else 0).sum < need)
  | [], _, _ => by simp [scan]
  | key :: rest, freed, hs => by
      rw [List.pairwise_cons] at hs
      -- what is counted after the head only adds to what is freed
      have hnonneg : ∀ j ∈ (key :: rest).map (fun j =>
          if j ∉ exclude ∧ r.stamp j < r.stamp k then (r.bytes.getD j 0 : ℤ) else 0), 0 ≤ j := by
        intro n hn
        obtain ⟨j, _, rfl⟩ := List.mem_map.mp hn
        split <;> simp
      have hsum := List.sum_nonneg hnonneg
      unfold scan
      by_cases hfull : freed ≥ need
      · -- the loop stopped: nothing further is named, nothing further is short
        rw [if_pos hfull]
        constructor
        · intro h
          cases h
        · rintro ⟨_, _, h⟩
          omega
      · rw [if_neg hfull]
        by_cases hk : k = key
        · -- everything after the key is stamped later than it
          subst hk
          have hrest : (rest.map fun j => if j ∉ exclude ∧ r.stamp j < r.stamp k
              then (r.bytes.getD j 0 : ℤ) else 0).sum = 0 := by
            apply List.sum_eq_zero
            intro n hn
            obtain ⟨j, hj, rfl⟩ := List.mem_map.mp hn
            have hlater := hs.1 j hj
            rw [if_neg]
            omega
          by_cases hex : k ∈ exclude
          · rw [if_pos hex]
            constructor
            · intro h
              exact absurd hex (mem_scan _ _ _ _ _ h).2
            · intro h
              exact absurd hex h.2.1
          · rw [if_neg hex]
            simp only [List.mem_cons, true_or, true_iff, List.map_cons, List.sum_cons, hrest]
            refine ⟨trivial, hex, ?_⟩
            rw [if_neg (by omega)]
            omega
        -- an excluded head frees nothing; any other is named and frees its bytes
        · by_cases hex : key ∈ exclude
          · rw [if_pos hex, mem_scan_iff r need exclude rest freed hs.2]
            simp [hk, hex]
          · rw [if_neg hex, List.mem_cons]
            rw [mem_scan_iff r need exclude rest _ hs.2]
            constructor
            · rintro (h | ⟨hin, hout, hlt⟩)
              · exact absurd h hk
              · refine ⟨List.mem_cons_of_mem _ hin, hout, ?_⟩
                rw [List.map_cons, List.sum_cons, if_pos ⟨hex, hs.1 k hin⟩]
                omega
            · rintro ⟨hin, hout, hlt⟩
              have hrest := (List.mem_cons.mp hin).resolve_left hk
              rw [List.map_cons, List.sum_cons, if_pos ⟨hex, hs.1 k hrest⟩] at hlt
              exact .inr ⟨hrest, hout, by omega⟩

/-- The keys coldest first are the keys ranked. -/
theorem coldest_perm (r : LeastRecentlyUsed κ) : r.coldest.Perm r.used.keys :=
  (List.perm_insertionSort Colder r.used.entries).map Prod.fst

/-- With no two stamps alike, the coldest come strictly earliest first. -/
theorem coldest_sorted {r : LeastRecentlyUsed κ}
    (hinj : ∀ j ∈ r.used, ∀ k ∈ r.used, r.stamp j = r.stamp k → j = k) :
    r.coldest.Pairwise fun a b => r.stamp a < r.stamp b := by
  have : Std.Total (Colder (κ := κ)) := ⟨fun a b => by
    unfold Colder
    rcases lt_trichotomy a.2 b.2 with h | h | h
    · exact .inl (.inl h)
    · rcases le_total a.1 b.1 with h' | h'
      · exact .inl (.inr ⟨h, h'⟩)
      · exact .inr (.inr ⟨h.symm, h'⟩)
    · exact .inr (.inl h)⟩
  have : IsTrans _ (Colder (κ := κ)) := ⟨fun a b c hab hbc => by
    unfold Colder at *
    rcases hab with h | ⟨h, h'⟩ <;> rcases hbc with g | ⟨g, g'⟩
    · exact .inl (h.trans g)
    · exact .inl (g ▸ h)
    · exact .inl (h ▸ g)
    · exact .inr ⟨h.trans g, h'.trans g'⟩⟩
  have hsorted := List.pairwise_insertionSort Colder r.used.entries
  have hperm := List.perm_insertionSort Colder r.used.entries
  have hnodup : (r.used.entries.insertionSort Colder).Pairwise fun a b => a.1 ≠ b.1 :=
    List.pairwise_map.mp ((hperm.map Prod.fst).nodup_iff.mpr r.used.nodup)
  unfold coldest
  rw [List.pairwise_map]
  refine (hsorted.and hnodup).imp_of_mem ?_
  intro a b ha hb hab
  have hread : ∀ e ∈ r.used.entries.insertionSort Colder, e.1 ∈ r.used ∧ r.stamp e.1 = e.2 := by
    intro e he
    have hget := (r.used.get?_eq_some_iff e.1 e.2).mpr (hperm.mem_iff.mp he)
    exact ⟨Dict.mem_of_get? hget, by simp [stamp, Dict.getD, hget]⟩
  obtain ⟨hain, hastamp⟩ := hread a ha
  obtain ⟨hbin, hbstamp⟩ := hread b hb
  rcases hab with ⟨hlt | heq, hne⟩
  · rw [hastamp, hbstamp]
    exact hlt
  · exact absurd (hinj a.1 hain b.1 hbin (by rw [hastamp, hbstamp, heq.1])) hne

/-- **Who is a victim**: a ranked key that may go, when what is colder and may
go does not cover the need. -/
theorem mem_victims {r : LeastRecentlyUsed κ}
    (hinj : ∀ j ∈ r.used, ∀ k ∈ r.used, r.stamp j = r.stamp k → j = k)
    (need : ℤ) (exclude : List κ) {k : κ} :
    k ∈ r.victims need exclude ↔ k ∈ r.used ∧ k ∉ exclude ∧
      (∑ j ∈ r.used.keys.toFinset with j ∉ exclude ∧ r.stamp j < r.stamp k,
        (r.bytes.getD j 0 : ℤ)) < need := by
  unfold victims
  rw [mem_scan_iff r need exclude _ _ (coldest_sorted hinj), r.coldest_perm.mem_iff,
    (r.coldest_perm.map _).sum_eq, zero_add, Finset.sum_filter,
    List.sum_toFinset _ (show r.used.keys.Nodup from r.used.nodup)]
  rfl

end LeastRecentlyUsed

/-! ## §2. Which use a key was last part of. -/

/-- The uses of a volume's keys, counted call by call: the keys one put writes
share a use, each key a read or a touch names has one of its own. -/
structure History (κ : Type*) where
  turn : ℕ
  last : κ → ℕ

namespace History

/-- A volume nobody used yet. -/
def fresh : History κ := ⟨0, fun _ => 0⟩

/-- The next use begins. -/
def next (h : History κ) : History κ := { h with turn := h.turn + 1 }

/-- `key` is part of the current use. -/
def join (h : History κ) (key : κ) : History κ :=
  { h with last := fun k => if k = key then h.turn else h.last k }

/-- The keys of one put. -/
def together (h : History κ) (keys : List κ) : History κ := keys.foldl join h.next

/-- The keys of one read. -/
def inTurn (h : History κ) (keys : List κ) : History κ :=
  keys.foldl (fun h key => h.next.join key) h

theorem foldl_join (keys : List κ) : ∀ h : History κ,
    keys.foldl join h
      = ⟨h.turn, fun k => if k ∈ keys then h.turn else h.last k⟩ := by
  induction keys with
  | nil => intro h; simp
  | cons key keys ih =>
      intro h
      rw [List.foldl_cons, ih]
      unfold join
      congr 1
      funext k
      by_cases hk : k = key <;> simp [hk]

/-- The order of the keys of a put leaves no trace. -/
theorem together_congr (h : History κ) {keys keys' : List κ}
    (hsame : ∀ k, k ∈ keys ↔ k ∈ keys') : h.together keys = h.together keys' := by
  unfold together
  rw [foldl_join, foldl_join]
  simp only [hsame]

end History

/-- What the stamps keep of the uses: no two keys share a stamp, and a key used
in an earlier use has the earlier stamp. -/
structure Ordered (r : LeastRecentlyUsed κ) (h : History κ) : Prop where
  stamped : ∀ k ∈ r.used, r.stamp k ≤ r.clock
  injective : ∀ j ∈ r.used, ∀ k ∈ r.used, r.stamp j = r.stamp k → j = k
  begun : ∀ k ∈ r.used, h.last k ≤ h.turn
  ordered : ∀ j ∈ r.used, ∀ k ∈ r.used, h.last j < h.last k → r.stamp j < r.stamp k

namespace Ordered

variable {r : LeastRecentlyUsed κ} {h : History κ}

theorem next (H : Ordered r h) : Ordered r h.next where
  stamped := H.stamped
  injective := H.injective
  begun k hk := Nat.le_succ_of_le (H.begun k hk)
  ordered := H.ordered

/-- A note gives the latest stamp of all, to a key of the latest use. -/
theorem note (H : Ordered r h) (key : κ) (nbytes : Option ℕ) :
    Ordered (r.note key nbytes) (h.join key) where
  stamped k hk := by
    rw [LeastRecentlyUsed.stamp_note]
    split
    · exact le_refl _
    · rename_i hne
      have hin := (LeastRecentlyUsed.mem_note.mp hk).resolve_left (Ne.symm hne)
      exact Nat.le_succ_of_le (H.stamped k hin)
  injective j hj k hk := by
    rw [LeastRecentlyUsed.stamp_note, LeastRecentlyUsed.stamp_note]
    have hj' := LeastRecentlyUsed.mem_note.mp hj
    have hk' := LeastRecentlyUsed.mem_note.mp hk
    split <;> split
    · rename_i hjk hkk
      exact fun _ => hjk.symm.trans hkk
    · rename_i _ hkk
      have := H.stamped k (hk'.resolve_left (Ne.symm hkk))
      omega
    · rename_i hjk _
      have := H.stamped j (hj'.resolve_left (Ne.symm hjk))
      omega
    · rename_i hjk hkk
      exact H.injective j (hj'.resolve_left (Ne.symm hjk)) k (hk'.resolve_left (Ne.symm hkk))
  begun k hk := by
    show (if k = key then h.turn else h.last k) ≤ h.turn
    split
    · exact le_refl _
    · rename_i hne
      exact H.begun k ((LeastRecentlyUsed.mem_note.mp hk).resolve_left hne)
  ordered j hj k hk := by
    rw [LeastRecentlyUsed.stamp_note, LeastRecentlyUsed.stamp_note]
    have hj' := LeastRecentlyUsed.mem_note.mp hj
    have hk' := LeastRecentlyUsed.mem_note.mp hk
    show (if j = key then h.turn else h.last j) < (if k = key then h.turn else h.last k) → _
    by_cases hjk : j = key
    · -- nothing is in a later use than the key just noted
      rw [if_pos hjk]
      by_cases hkk : k = key
      · rw [if_pos hkk]
        omega
      · have := H.begun k (hk'.resolve_left hkk)
        rw [if_neg hkk]
        omega
    · rw [if_neg hjk, if_neg (Ne.symm hjk)]
      have hjin := hj'.resolve_left hjk
      by_cases hkk : k = key
      · have := H.stamped j hjin
        rw [if_pos hkk.symm]
        omega
      · rw [if_neg hkk, if_neg (Ne.symm hkk)]
        exact H.ordered j hjin k (hk'.resolve_left hkk)

theorem forget (H : Ordered r h) (key : κ) : Ordered (r.forget key) h where
  stamped k hk := by
    obtain ⟨hne, hin⟩ := LeastRecentlyUsed.mem_forget.mp hk
    rw [LeastRecentlyUsed.stamp_forget hne]
    exact H.stamped k hin
  injective j hj k hk := by
    obtain ⟨hjne, hjin⟩ := LeastRecentlyUsed.mem_forget.mp hj
    obtain ⟨hkne, hkin⟩ := LeastRecentlyUsed.mem_forget.mp hk
    rw [LeastRecentlyUsed.stamp_forget hjne, LeastRecentlyUsed.stamp_forget hkne]
    exact H.injective j hjin k hkin
  begun k hk := H.begun k (LeastRecentlyUsed.mem_forget.mp hk).2
  ordered j hj k hk := by
    obtain ⟨hjne, hjin⟩ := LeastRecentlyUsed.mem_forget.mp hj
    obtain ⟨hkne, hkin⟩ := LeastRecentlyUsed.mem_forget.mp hk
    rw [LeastRecentlyUsed.stamp_forget hjne, LeastRecentlyUsed.stamp_forget hkne]
    exact H.ordered j hjin k hkin

/-- A run of forgets keeps it. -/
theorem forgets (keys : List κ) : ∀ {r : LeastRecentlyUsed κ}, Ordered r h →
    Ordered (keys.foldl (fun r key => r.forget key) r) h := by
  induction keys with
  | nil => intro r H; exact H
  | cons key keys ih => intro r H; exact ih (H.forget key)

/-- The notes of one use keep it. -/
theorem notes (size : κ → Option ℕ) (keys : List κ) :
    ∀ {r : LeastRecentlyUsed κ} {h : History κ}, Ordered r h →
      Ordered (keys.foldl (fun r key => r.note key (size key)) r)
        (keys.foldl History.join h) := by
  induction keys with
  | nil => intro r h H; exact H
  | cons key keys ih => intro r h H; exact ih (H.note key (size key))

/-- The notes of a read keep it. -/
theorem notesInTurn (size : κ → Option ℕ) (keys : List κ) :
    ∀ {r : LeastRecentlyUsed κ} {h : History κ}, Ordered r h →
      Ordered (keys.foldl (fun r key => r.note key (size key)) r) (h.inTurn keys) := by
  induction keys with
  | nil => intro r h H; exact H
  | cons key keys ih => intro r h H; exact ih (H.next.note key (size key))

end Ordered

/-! ## §3. The calls of a volume. -/

/-- A call on a volume.  A put carries the order in which its set of keys is
iterated. -/
inductive Call (κ τ : Type*) [DecidableEq κ]
  | put (p : Put κ τ)
  | get (keys : List κ)
  | touch (keys : List κ)
  | delete (key : κ)
  | deleteBatch (keys : List κ)
  | reset

/-- The same call, but for the order in which a put's set is iterated. -/
inductive Call.Same : Call κ τ → Call κ τ → Prop
  | put {p q : Put κ τ} (h : p.requests = q.requests) : Same (.put p) (.put q)
  | refl (c : Call κ τ) : Same c c

/-- What a call shows: the keys it evicted, and whether it was refused. -/
structure Outcome (κ : Type*) where
  evicted : List κ
  refused : Bool
  deriving DecidableEq

/-- The same keys, and the same refusal. -/
def Outcome.Same (o o' : Outcome κ) : Prop :=
  (∀ k, k ∈ o.evicted ↔ k ∈ o'.evicted) ∧ o.refused = o'.refused

/-- A volume under the default ranking. -/
abbrev Volume (κ β : Type*) := VolumeService κ β (LeastRecentlyUsed κ)

/-- How a volume under the default ranking is built. -/
abbrev LruConfig (κ : Type*) := VolumeConfig κ (LeastRecentlyUsed κ)

namespace VolumeService

/-- One call. -/
def call (cfg : LruConfig κ) (store : InMemoryStore κ β τ) (v : Volume κ β) :
    Call κ τ → Volume κ β × Outcome κ
  | .put p =>
      let r := v.put cfg store p
      (r.1, ⟨r.2.1, r.2.2.isSome⟩)
  | .get keys => (v.get cfg keys, ⟨[], false⟩)
  | .touch keys => (v.touch cfg keys, ⟨[], false⟩)
  | .delete key => (v.delete cfg key, ⟨[], false⟩)
  | .deleteBatch keys => (v.deleteBatch cfg keys, ⟨[], false⟩)
  | .reset => (v.reset cfg, ⟨[], false⟩)

/-- What a sequence of calls shows. -/
def outcomes (cfg : LruConfig κ) (store : InMemoryStore κ β τ) :
    Volume κ β → List (Call κ τ) → List (Outcome κ)
  | _, [] => []
  | v, c :: cs => (v.call cfg store c).2 :: outcomes cfg store (v.call cfg store c).1 cs

/-- The uses after a call; a refused put uses nothing. -/
def uses (cfg : LruConfig κ) (store : InMemoryStore κ β τ) (v : Volume κ β)
    (h : History κ) : Call κ τ → History κ
  | .put p => if (v.put cfg store p).2.2.isSome then h else h.together p.keys
  | .get keys => h.inTurn keys
  | .touch keys => h.inTurn (keys.filter (· ∈ v.residentByKey))
  | .delete _ => h
  | .deleteBatch _ => h
  | .reset => h

/-- `P` at every put of a sequence of calls, of the volume and the uses it
meets. -/
def EveryPut (cfg : LruConfig κ) (store : InMemoryStore κ β τ)
    (P : Volume κ β → History κ → Put κ τ → Prop) :
    Volume κ β → History κ → List (Call κ τ) → Prop
  | _, _, [] => True
  | v, h, c :: cs =>
      (∀ p, c = .put p → P v h p) ∧
        EveryPut cfg store P (v.call cfg store c).1 (v.uses cfg store h c) cs

/-- The recorded keys a put does not write whose last use was before that of
`x`. -/
def colder (v : Volume κ β) (h : History κ) (incoming : List κ) (x : κ) : Finset κ :=
  v.residentByKey.keys.toFinset.filter fun j => j ∉ incoming ∧ h.last j < h.last x

/-- The others it does not write that were last used together with `x`. -/
def tied (v : Volume κ β) (h : History κ) (incoming : List κ) (x : κ) : Finset κ :=
  v.residentByKey.keys.toFinset.filter fun j => j ∉ incoming ∧ h.last j = h.last x ∧ j ≠ x

/-- The recorded bytes of some keys. -/
def bytesOf (v : Volume κ β) (ks : Finset κ) : ℤ := ∑ k ∈ ks, v.recorded k

/-- Where a put has to evict and reaches the recorded key `x` at all, everything
last used together with `x` goes before the need is met, `x` itself being
last. -/
def UndividedAt (cfg : LruConfig κ) (store : InMemoryStore κ β τ) (v : Volume κ β)
    (h : History κ) (p : Put κ τ) (x : κ) : Prop :=
  cfg.Exceeds (v.framed store p).projected → cfg.controller = true →
    x ∈ v.residentByKey → x ∉ p.keys →
      v.bytesOf (v.colder h p.keys x) < cfg.need (v.framed store p).projected →
      v.bytesOf (v.colder h p.keys x) + v.bytesOf (v.tied h p.keys x)
        < cfg.need (v.framed store p).projected

/-- **No group is divided** by the eviction of a put. -/
def Undivided (cfg : LruConfig κ) (store : InMemoryStore κ β τ) (v : Volume κ β)
    (h : History κ) (p : Put κ τ) : Prop :=
  ∀ x, v.UndividedAt cfg store h p x

/-! ## §4. What every execution keeps. -/

/-- The ranking of a volume ranks what is recorded, with its recorded bytes. -/
structure Kept (v : Volume κ β) (h : History κ) : Prop where
  ordered : Ordered v.retention h
  weighed : ∀ k, v.retention.bytes.get? k = v.residentByKey.get? k
  ranked : ∀ k ∈ v.residentByKey, k ∈ v.retention.used

section Ranking

variable {cfg : LruConfig κ} (hcfg : cfg.retention = leastRecentlyUsed κ)

/-- The notes of a put, a read or a touch. -/
def noted (size : κ → Option ℕ) (keys : List κ) (r : LeastRecentlyUsed κ) :
    LeastRecentlyUsed κ :=
  keys.foldl (fun r key => r.note key (size key)) r

/-- The forgets of a deletion. -/
def forgot (keys : List κ) (r : LeastRecentlyUsed κ) : LeastRecentlyUsed κ :=
  keys.foldl (fun r key => r.forget key) r

theorem mem_noted (size : κ → Option ℕ) (k : κ) (keys : List κ) :
    ∀ r : LeastRecentlyUsed κ, k ∈ (noted size keys r).used ↔ k ∈ keys ∨ k ∈ r.used := by
  induction keys with
  | nil => intro r; simp [noted]
  | cons key keys ih =>
      intro r
      show k ∈ (noted size keys (r.note key (size key))).used ↔ _
      rw [ih, LeastRecentlyUsed.mem_note, List.mem_cons]
      tauto

theorem bytes_noted (size : κ → Option ℕ) (k : κ) (keys : List κ) :
    ∀ r : LeastRecentlyUsed κ, (noted size keys r).bytes.get? k
      = if k ∈ keys then (size k).or (r.bytes.get? k) else r.bytes.get? k := by
  induction keys with
  | nil => intro r; simp [noted]
  | cons key keys ih =>
      intro r
      show (noted size keys (r.note key (size key))).bytes.get? k = _
      rw [ih]
      have hone : (r.note key (size key)).bytes.get? k
          = if key = k then (size k).or (r.bytes.get? k) else r.bytes.get? k := by
        unfold LeastRecentlyUsed.note
        by_cases hk : key = k
        · subst hk
          cases size key <;> simp
        · cases size key <;> simp [hk, Dict.get?_set_ne]
      rw [hone]
      by_cases hk : key = k
      · subst hk
        cases size key <;> simp
      · have hk' : k ≠ key := Ne.symm hk
        simp [hk, hk']

theorem mem_forgot (k : κ) (keys : List κ) :
    ∀ r : LeastRecentlyUsed κ, k ∈ (forgot keys r).used ↔ k ∉ keys ∧ k ∈ r.used := by
  induction keys with
  | nil => intro r; simp [forgot]
  | cons key keys ih =>
      intro r
      show k ∈ (forgot keys (r.forget key)).used ↔ _
      rw [ih, LeastRecentlyUsed.mem_forget, List.mem_cons]
      tauto

theorem bytes_forgot (k : κ) (keys : List κ) :
    ∀ r : LeastRecentlyUsed κ, (forgot keys r).bytes.get? k
      = if k ∈ keys then none else r.bytes.get? k := by
  induction keys with
  | nil => intro r; simp [forgot]
  | cons key keys ih =>
      intro r
      show (forgot keys (r.forget key)).bytes.get? k = _
      rw [ih]
      by_cases hk : key = k
      · subst hk
        simp [LeastRecentlyUsed.forget]
      · have hk' : k ≠ key := Ne.symm hk
        simp [LeastRecentlyUsed.forget, Dict.get?_erase_ne _ hk, hk']

include hcfg

theorem use_retention (v : Volume κ β) (keys : List κ) :
    (v.use cfg keys).retention = noted v.residentByKey.get? keys v.retention := by
  unfold use
  rw [hcfg]
  rfl

theorem deleteBatch_retention (keys : List κ) :
    ∀ v : Volume κ β, (v.deleteBatch cfg keys).retention = forgot keys v.retention := by
  induction keys with
  | nil => intro v; rfl
  | cons key keys ih =>
      intro v
      rw [deleteBatch_cons, ih]
      show forgot keys (cfg.retention.forget key v.retention) = _
      rw [hcfg]
      rfl

theorem reset_retention (v : Volume κ β) :
    (v.reset cfg).retention = forgot v.retention.used.keys v.retention := by
  unfold reset
  rw [hcfg]
  rfl

omit hcfg in
/-- A put that goes through records its sizes on the volume it settled on. -/
theorem finishPut_ok {v : Volume κ β} {f : Frame κ} (h : (v.finishPut cfg f).2.isSome = false) :
    ¬ cfg.Exceeds f.projected ∧ (v.finishPut cfg f).1 = v.record cfg f := by
  unfold finishPut at *
  split at h
  · cases h
  · rename_i hroom
    exact ⟨hroom, by rw [if_neg hroom]⟩

omit hcfg in
/-- A refused put is rolled back on the volume it settled on. -/
theorem finishPut_refused {v : Volume κ β} {f : Frame κ}
    (h : (v.finishPut cfg f).2.isSome = true) :
    cfg.Exceeds f.projected ∧ (v.finishPut cfg f).1 = v.rollBack f.keys := by
  unfold finishPut at *
  split at h
  · rename_i hfull
    exact ⟨hfull, by rw [if_pos hfull]⟩
  · cases h

/-- **The ranking after any call**: some keys forgotten, then the keys of one
put noted as one use, or some keys noted each as its own. -/
theorem retention_call (store : InMemoryStore κ β τ) (v : Volume κ β) (h : History κ)
    (c : Call κ τ) : ∃ gone size,
      (∃ p, c = .put p ∧ v.uses cfg store h c = h.together p.keys ∧
        (v.call cfg store c).1.retention = noted size p.keys (forgot gone v.retention)) ∨
      (∃ keys, v.uses cfg store h c = h.inTurn keys ∧
        (v.call cfg store c).1.retention = noted size keys (forgot gone v.retention)) := by
  cases c with
  | put p =>
      refine ⟨v.putVictims cfg store p,
        ((v.settledVolume cfg store p).residentByKey.update
          (v.settledFrame cfg store p).newByKey).get?, ?_⟩
      have hgone : (v.settledVolume cfg store p).retention
          = forgot (v.putVictims cfg store p) v.retention := deleteBatch_retention hcfg _ _
      simp only [uses, call, put_eq]
      cases hr : ((v.settledVolume cfg store p).finishPut cfg (v.settledFrame cfg store p)).2.isSome
        with
      | true =>
          refine .inr ⟨[], rfl, ?_⟩
          rw [(finishPut_refused hr).2]
          exact hgone
      | false =>
          refine .inl ⟨p, rfl, rfl, ?_⟩
          rw [(finishPut_ok hr).2, ← hgone]
          exact use_retention hcfg _ _
  | get keys => exact ⟨[], v.residentByKey.get?, .inr ⟨keys, rfl, use_retention hcfg v keys⟩⟩
  | touch keys =>
      exact ⟨[], v.residentByKey.get?, .inr ⟨_, rfl, use_retention hcfg v _⟩⟩
  | delete key =>
      exact ⟨[key], fun _ => none, .inr ⟨[], rfl, deleteBatch_retention hcfg [key] v⟩⟩
  | deleteBatch keys =>
      exact ⟨keys, fun _ => none, .inr ⟨[], rfl, deleteBatch_retention hcfg keys v⟩⟩
  | reset =>
      exact ⟨_, fun _ => none, .inr ⟨[], rfl, reset_retention hcfg v⟩⟩

/-- What the stamps keep survives every call. -/
theorem ordered_call (store : InMemoryStore κ β τ) {v : Volume κ β} {h : History κ}
    (H : Ordered v.retention h) (c : Call κ τ) :
    Ordered (v.call cfg store c).1.retention (v.uses cfg store h c) := by
  obtain ⟨gone, size, ⟨p, _, huses, hret⟩ | ⟨keys, huses, hret⟩⟩ :=
    retention_call hcfg store v h c
  · rw [huses, hret]
    exact (H.forgets gone).next.notes size p.keys
  · rw [huses, hret]
    exact (H.forgets gone).notesInTurn size keys

omit hcfg in
/-- A use of some keys ranks them and changes no weight: a noted key is noted
with its recorded bytes. -/
theorem weights_use {v w : Volume κ β} {keys : List κ}
    (hret : w.retention = noted w.residentByKey.get? keys v.retention)
    (hrest : ∀ k ∉ keys, v.retention.bytes.get? k = w.residentByKey.get? k)
    (hnew : ∀ k ∈ keys, w.residentByKey.get? k = none → v.retention.bytes.get? k = none)
    (hranked : ∀ k ∈ w.residentByKey, k ∈ keys ∨ k ∈ v.retention.used) :
    (∀ k, w.retention.bytes.get? k = w.residentByKey.get? k) ∧
      ∀ k ∈ w.residentByKey, k ∈ w.retention.used := by
  constructor
  · intro k
    rw [hret, bytes_noted]
    by_cases hk : k ∈ keys
    · rw [if_pos hk]
      cases hs : w.residentByKey.get? k with
      | some n => rfl
      | none =>
          rw [hnew k hk hs]
          rfl
    · rw [if_neg hk, hrest k hk]
  · intro k hk
    rw [hret, mem_noted]
    exact hranked k hk

/-- A deletion keeps it. -/
theorem kept_deleteBatch {v : Volume κ β} {h : History κ} (H : Kept v h) (keys : List κ) :
    Kept (v.deleteBatch cfg keys) h where
  ordered := by
    rw [deleteBatch_retention hcfg]
    exact H.ordered.forgets keys
  weighed k := by
    rw [deleteBatch_retention hcfg, bytes_forgot, get?_resident_deleteBatch, H.weighed k]
  ranked k hk := by
    rw [deleteBatch_retention hcfg, mem_forgot]
    rw [mem_resident_deleteBatch] at hk
    exact ⟨hk.1, H.ranked k hk.2⟩

/-- A put that goes through: what it writes is weighed as it is recorded. -/
theorem weights_record (store : InMemoryStore κ β τ) {v : Volume κ β} {h : History κ}
    (H : Kept v h) (p : Put κ τ) :
    let w := (v.settledVolume cfg store p).record cfg (v.settledFrame cfg store p)
    (∀ k, w.retention.bytes.get? k = w.residentByKey.get? k) ∧
      ∀ k ∈ w.residentByKey, k ∈ w.retention.used := by
  have hset : Kept (v.settledVolume cfg store p) h :=
    kept_deleteBatch hcfg (v := v.landed store p) ⟨H.ordered, H.weighed, H.ranked⟩ _
  have hread : ∀ k, ((v.settledVolume cfg store p).residentByKey.update
      (v.settledFrame cfg store p).newByKey).get? k
      = if k ∈ p.keys then some (storedNbytes ((v.landed store p).kv.get? k))
        else (v.settledVolume cfg store p).residentByKey.get? k := by
    intro k
    rw [Dict.get?_update]
    show (((v.landed store p).newByKey p).get? k).or _ = _
    rw [get?_newByKey]
    by_cases hk : k ∈ p.keys <;> simp [hk]
  refine weights_use (v := v.settledVolume cfg store p)
    (use_retention hcfg _ _) ?_ ?_ ?_
  · intro k (hk : k ∉ p.keys)
    rw [hset.weighed k]
    show _ = ((v.settledVolume cfg store p).residentByKey.update _).get? k
    rw [hread, if_neg hk]
  · intro k (hk : k ∈ p.keys) hnone
    have hsome := hread k
    rw [if_pos hk] at hsome
    exact absurd (hsome.symm.trans hnone) (by simp)
  · intro k hk
    rcases (Dict.mem_update _ _ _).mp hk with hnew | hold
    · exact .inl (mem_newByKey.mp hnew)
    · exact .inr (hset.ranked k hold)

/-- **Every call keeps it.** -/
theorem Kept.call (store : InMemoryStore κ β τ) {v : Volume κ β} {h : History κ}
    (H : Kept v h) (c : Call κ τ) :
    Kept (v.call cfg store c).1 (v.uses cfg store h c) := by
  have huse : ∀ keys, (∀ k, (v.use cfg keys).retention.bytes.get? k = v.residentByKey.get? k) ∧
      ∀ k ∈ v.residentByKey, k ∈ (v.use cfg keys).retention.used := fun keys =>
    weights_use (use_retention hcfg v keys) (fun k _ => H.weighed k)
      (fun k _ hk => (H.weighed k).trans hk) fun k hk => .inr (H.ranked k hk)
  suffices hweights : (∀ k, (v.call cfg store c).1.retention.bytes.get? k
        = (v.call cfg store c).1.residentByKey.get? k) ∧
      ∀ k ∈ (v.call cfg store c).1.residentByKey, k ∈ (v.call cfg store c).1.retention.used from
    ⟨ordered_call hcfg store H.ordered c, hweights.1, hweights.2⟩
  cases c with
  | put p =>
      simp only [VolumeService.call, put_eq]
      cases hr : ((v.settledVolume cfg store p).finishPut cfg
          (v.settledFrame cfg store p)).2.isSome with
      | true =>
          have hset : Kept (v.settledVolume cfg store p) h :=
            kept_deleteBatch hcfg (v := v.landed store p) ⟨H.ordered, H.weighed, H.ranked⟩ _
          rw [(finishPut_refused hr).2]
          exact ⟨hset.weighed, hset.ranked⟩
      | false =>
          rw [(finishPut_ok hr).2]
          exact weights_record hcfg store H p
  | get keys => exact huse keys
  | touch keys => exact huse _
  | delete key =>
      have hgone := kept_deleteBatch hcfg H [key]
      exact ⟨hgone.weighed, hgone.ranked⟩
  | deleteBatch keys =>
      have hgone := kept_deleteBatch hcfg H keys
      exact ⟨hgone.weighed, hgone.ranked⟩
  | reset =>
      refine ⟨?_, fun k hk => absurd hk (Dict.not_mem_empty k)⟩
      intro k
      show (v.reset cfg).retention.bytes.get? k = none
      rw [reset_retention hcfg, bytes_forgot]
      by_cases hk : k ∈ v.retention.used.keys
      · rw [if_pos hk]
      · -- what the ranking does not hold is not recorded, and weighs nothing
        rw [if_neg hk, H.weighed k, Dict.get?_eq_none_iff]
        exact fun hin => hk (H.ranked k hin)

/-! ## §5. The victims of a put. -/

omit hcfg in
theorem recorded_eq_zero {v : Volume κ β} {k : κ} (hk : k ∉ v.residentByKey) :
    v.recorded k = 0 := by
  unfold recorded Dict.getD
  rw [(Dict.get?_eq_none_iff _ _).mpr hk]
  rfl

/-- **The victims of a put**, by the recorded bytes stamped earlier. -/
theorem mem_putVictims_iff (store : InMemoryStore κ β τ) {v : Volume κ β} {h : History κ}
    (H : Kept v h) (p : Put κ τ) {k : κ} :
    k ∈ v.putVictims cfg store p ↔
      cfg.Exceeds (v.framed store p).projected ∧ cfg.controller = true ∧
        k ∈ v.residentByKey ∧ k ∉ p.keys ∧
        v.bytesOf (v.residentByKey.keys.toFinset.filter fun j =>
            j ∉ p.keys ∧ v.retention.stamp j < v.retention.stamp k)
          < cfg.need (v.framed store p).projected := by
  have hsum : v.bytesOf (v.residentByKey.keys.toFinset.filter fun j =>
        j ∉ p.keys ∧ v.retention.stamp j < v.retention.stamp k)
      = ∑ j ∈ v.retention.used.keys.toFinset with
          j ∉ p.keys ∧ v.retention.stamp j < v.retention.stamp k,
          (v.retention.bytes.getD j 0 : ℤ) := by
    have hweight : ∀ j, (v.retention.bytes.getD j 0 : ℤ) = v.recorded j := by
      intro j
      unfold recorded Dict.getD
      rw [H.weighed j]
    simp only [hweight]
    -- a ranked key that is not recorded weighs nothing
    apply Finset.sum_subset
    · intro j hj
      rw [Finset.mem_filter, List.mem_toFinset] at hj ⊢
      exact ⟨H.ranked j hj.1, hj.2⟩
    · intro j hj hout
      apply recorded_eq_zero
      intro hin
      rw [Finset.mem_filter] at hj
      exact hout (Finset.mem_filter.mpr ⟨List.mem_toFinset.mpr hin, hj.2⟩)
  have hvictims := LeastRecentlyUsed.mem_victims H.ordered.injective
    (cfg.need (v.framed store p).projected) p.keys (k := k)
  rw [← hsum] at hvictims
  unfold putVictims victims
  by_cases hfull : cfg.Exceeds (v.framed store p).projected
  · by_cases hctl : cfg.controller = true
    · rw [if_pos hfull, if_pos hctl, List.mem_filter, hcfg]
      have hin : k ∈ (leastRecentlyUsed κ).victims (cfg.need (v.framed store p).projected)
          p.keys (v.landed store p).retention ↔ _ := hvictims
      rw [hin]
      constructor
      · rintro ⟨⟨_, hout, hlt⟩, hrec⟩
        exact ⟨hfull, hctl, of_decide_eq_true hrec, hout, hlt⟩
      · rintro ⟨_, _, hrec, hout, hlt⟩
        exact ⟨⟨H.ranked k hrec, hout, hlt⟩, decide_eq_true hrec⟩
    · rw [if_pos hfull, if_neg hctl]
      simp [hctl]
  · rw [if_neg hfull]
    simp [hfull]

omit hcfg in
theorem bytesOf_mono {v : Volume κ β} {s t : Finset κ} (h : s ⊆ t) :
    v.bytesOf s ≤ v.bytesOf t :=
  Finset.sum_le_sum_of_subset_of_nonneg h fun k _ _ => v.recorded_nonneg k

omit hcfg in
theorem bytesOf_colder_union_tied (v : Volume κ β) (h : History κ) (incoming : List κ) (x : κ) :
    v.bytesOf (v.colder h incoming x ∪ v.tied h incoming x)
      = v.bytesOf (v.colder h incoming x) + v.bytesOf (v.tied h incoming x) := by
  apply Finset.sum_union
  rw [Finset.disjoint_left]
  intro j hj hj'
  have hlt := (Finset.mem_filter.mp hj).2.2
  have heq := (Finset.mem_filter.mp hj').2.2.1
  omega

omit hcfg in
/-- What is stamped earlier than `x` was last used earlier, or together with it. -/
theorem stamped_earlier {v : Volume κ β} {h : History κ} (H : Kept v h) (incoming : List κ)
    {x : κ} (hx : x ∈ v.residentByKey) :
    v.residentByKey.keys.toFinset.filter (fun j =>
        j ∉ incoming ∧ v.retention.stamp j < v.retention.stamp x)
      ⊆ v.colder h incoming x ∪ v.tied h incoming x := by
  intro j hj
  obtain ⟨hin, hout, hlt⟩ := Finset.mem_filter.mp hj
  have hjr := H.ranked j (List.mem_toFinset.mp hin)
  rw [Finset.mem_union]
  rcases lt_trichotomy (h.last j) (h.last x) with hlast | hlast | hlast
  · exact .inl (Finset.mem_filter.mpr ⟨hin, hout, hlast⟩)
  · refine .inr (Finset.mem_filter.mpr ⟨hin, hout, hlast, ?_⟩)
    rintro rfl
    omega
  · have := H.ordered.ordered x (H.ranked x hx) j hjr hlast
    omega

omit hcfg in
/-- What was last used earlier than `x` is stamped earlier. -/
theorem colder_subset {v : Volume κ β} {h : History κ} (H : Kept v h) (incoming : List κ)
    {x : κ} (hx : x ∈ v.residentByKey) :
    v.colder h incoming x ⊆ v.residentByKey.keys.toFinset.filter fun j =>
        j ∉ incoming ∧ v.retention.stamp j < v.retention.stamp x := by
  intro j hj
  obtain ⟨hin, hout, hlt⟩ := Finset.mem_filter.mp hj
  exact Finset.mem_filter.mpr ⟨hin, hout,
    H.ordered.ordered j (H.ranked j (List.mem_toFinset.mp hin)) x (H.ranked x hx) hlt⟩

/-- **Where no group is divided the stamps do not matter**: a recorded key goes
when the uses before its own do not cover the need. -/
theorem mem_putVictims_undivided (store : InMemoryStore κ β τ) {v : Volume κ β} {h : History κ}
    (H : Kept v h) {p : Put κ τ} (hp : v.Undivided cfg store h p) {k : κ} :
    k ∈ v.putVictims cfg store p ↔
      cfg.Exceeds (v.framed store p).projected ∧ cfg.controller = true ∧
        k ∈ v.residentByKey ∧ k ∉ p.keys ∧
        v.bytesOf (v.colder h p.keys k) < cfg.need (v.framed store p).projected := by
  rw [mem_putVictims_iff hcfg store H]
  constructor
  · rintro ⟨hfull, hctl, hrec, hout, hlt⟩
    exact ⟨hfull, hctl, hrec, hout,
      lt_of_le_of_lt (bytesOf_mono (colder_subset H p.keys hrec)) hlt⟩
  · rintro ⟨hfull, hctl, hrec, hout, hlt⟩
    have hall := hp k hfull hctl hrec hout hlt
    rw [← bytesOf_colder_union_tied] at hall
    exact ⟨hfull, hctl, hrec, hout,
      lt_of_le_of_lt (bytesOf_mono (stamped_earlier H p.keys hrec)) hall⟩

end Ranking

/-! ## §6. Two executions. -/

/-- Two executions that agreed so far: only the stamps, and the order of the
sizes recorded, may differ. -/
structure Twin (v w : Volume κ β) (h : History κ) : Prop where
  left : Kept v h
  right : Kept w h
  kv : v.kv = w.kv
  resident : ∀ k, v.residentByKey.get? k = w.residentByKey.get? k
  bytes : v.residentBytes = w.residentBytes

namespace Twin

variable {cfg : LruConfig κ} (store : InMemoryStore κ β τ) {v w : Volume κ β} {h : History κ}

theorem recorded (T : Twin v w h) : v.recorded = w.recorded := by
  funext k
  unfold VolumeService.recorded Dict.getD
  rw [T.resident k]

theorem mem_resident (T : Twin v w h) (k : κ) : k ∈ v.residentByKey ↔ k ∈ w.residentByKey := by
  rw [Dict.mem_iff, Dict.mem_iff, T.resident k]

theorem keys (T : Twin v w h) :
    v.residentByKey.keys.toFinset = w.residentByKey.keys.toFinset := by
  ext k
  rw [List.mem_toFinset, List.mem_toFinset]
  exact T.mem_resident k

theorem bytesOf (T : Twin v w h) (ks : Finset κ) : v.bytesOf ks = w.bytesOf ks := by
  unfold VolumeService.bytesOf
  rw [T.recorded]

theorem landed (T : Twin v w h) {p q : Put κ τ} (hpq : p.requests = q.requests) :
    (v.landed store p).kv = (w.landed store q).kv := by
  show store.land v.kv p.requests = store.land w.kv q.requests
  rw [T.kv, hpq]

omit [LinearOrder κ] in
theorem keys_iff [DecidableEq κ] {p q : Put κ τ} (hpq : p.requests = q.requests) (k : κ) :
    k ∈ p.keys ↔ k ∈ q.keys := by
  rw [p.mem_keys, q.mem_keys, hpq]

/-- The sizes a put would record. -/
theorem newByKey (T : Twin v w h) {p q : Put κ τ} (hpq : p.requests = q.requests) (k : κ) :
    ((v.landed store p).newByKey p).get? k = ((w.landed store q).newByKey q).get? k := by
  rw [get?_newByKey, get?_newByKey, T.landed store hpq]
  simp only [keys_iff hpq]

theorem sizeChange (T : Twin v w h) {p q : Put κ τ} (hpq : p.requests = q.requests) :
    v.sizeChange ((v.landed store p).newByKey p)
      = w.sizeChange ((w.landed store q).newByKey q) := by
  unfold VolumeService.sizeChange
  rw [T.recorded]
  exact Dict.sumBy_ext (T.newByKey store hpq) _

theorem projected (T : Twin v w h) {p q : Put κ τ} (hpq : p.requests = q.requests) :
    (v.framed store p).projected = (w.framed store q).projected := by
  show v.residentBytes + v.sizeChange ((v.landed store p).newByKey p)
    = w.residentBytes + w.sizeChange ((w.landed store q).newByKey q)
  rw [T.bytes, T.sizeChange store hpq]

/-- The same deletions, in any order. -/
theorem deleteBatch (hcfg : cfg.retention = leastRecentlyUsed κ) (T : Twin v w h)
    {ks ks' : List κ} (hks : ∀ k, k ∈ ks ↔ k ∈ ks') :
    Twin (v.deleteBatch cfg ks) (w.deleteBatch cfg ks') h := by
  have hkv : ∀ (ks : List κ) (v : Volume κ β),
      (v.deleteBatch cfg ks).kv = ks.foldl Dict.erase v.kv := by
    intro ks
    induction ks with
    | nil => intro v; rfl
    | cons k ks ih => intro v; rw [deleteBatch_cons, ih]; rfl
  have hresident : ∀ k, (v.deleteBatch cfg ks).residentByKey.get? k
      = (w.deleteBatch cfg ks').residentByKey.get? k := by
    intro k
    rw [get?_resident_deleteBatch, get?_resident_deleteBatch, T.resident k]
    simp only [hks]
  refine ⟨kept_deleteBatch hcfg T.left ks, kept_deleteBatch hcfg T.right ks', ?_, hresident, ?_⟩
  · rw [hkv, hkv, Dict.foldl_erase, Dict.foldl_erase, T.kv]
    simp only [hks]
  · -- the total and the sum of what is recorded fall together in either order
    have hv := deleteBatch_total cfg ks v
    have hw := deleteBatch_total cfg ks' w
    have hbefore : v.recordedTotal = w.recordedTotal := Dict.sumBy_ext T.resident _
    have hafter : (v.deleteBatch cfg ks).recordedTotal = (w.deleteBatch cfg ks').recordedTotal :=
      Dict.sumBy_ext hresident _
    have hbytes := T.bytes
    omega

/-- Two puts that evict alike settle on volumes that agree. -/
theorem settled (hcfg : cfg.retention = leastRecentlyUsed κ) (T : Twin v w h)
    {p q : Put κ τ} (hpq : p.requests = q.requests)
    (hgone : ∀ k, k ∈ v.putVictims cfg store p ↔ k ∈ w.putVictims cfg store q) :
    Twin (v.settledVolume cfg store p) (w.settledVolume cfg store q) h ∧
      v.settledTotal cfg store p = w.settledTotal cfg store q := by
  have hlanded : Twin (v.landed store p) (w.landed store q) h :=
    ⟨⟨T.left.ordered, T.left.weighed, T.left.ranked⟩,
      ⟨T.right.ordered, T.right.weighed, T.right.ranked⟩, T.landed store hpq, T.resident, T.bytes⟩
  have hset := hlanded.deleteBatch hcfg hgone
  refine ⟨hset, ?_⟩
  rw [settledTotal_eq, settledTotal_eq]
  show (v.settledVolume cfg store p).residentBytes + _
    = (w.settledVolume cfg store q).residentBytes + _
  have hchange : (v.settledVolume cfg store p).sizeChange ((v.landed store p).newByKey p)
      = (w.settledVolume cfg store q).sizeChange ((w.landed store q).newByKey q) := by
    unfold VolumeService.sizeChange
    rw [show (v.settledVolume cfg store p).recorded = (w.settledVolume cfg store q).recorded
      from hset.recorded]
    exact Dict.sumBy_ext (T.newByKey store hpq) _
  exact congrArg₂ (· + ·) hset.bytes hchange

omit [LinearOrder κ] in
theorem rollBack_kv [DecidableEq κ] {ρ : Type*} (v : VolumeService κ β ρ) (ks : List κ) :
    (v.rollBack ks).kv = v.kv.filterKeys fun x => decide (¬ (x ∈ ks ∧ x ∉ v.residentByKey)) := by
  have hfold : (v.rollBack ks).kv
      = (ks.filter fun k => decide (k ∉ v.residentByKey)).foldl Dict.erase v.kv := by
    rw [List.foldl_filter]
    show ks.foldl (fun kv key => if key ∈ v.residentByKey then kv else kv.erase key) v.kv = _
    congr 1
    funext kv k
    by_cases hk : k ∈ v.residentByKey <;> simp [hk]
  rw [hfold, Dict.foldl_erase]
  simp only [List.mem_filter, decide_eq_true_eq]

/-- What a put records or rolls back agrees. -/
theorem finishPut (hcfg : cfg.retention = leastRecentlyUsed κ) (T : Twin v w h)
    {p q : Put κ τ} (hpq : p.requests = q.requests)
    (hgone : ∀ k, k ∈ v.putVictims cfg store p ↔ k ∈ w.putVictims cfg store q)  :
    (v.call cfg store (.put p)).2.refused = (w.call cfg store (.put q)).2.refused ∧
      v.uses cfg store h (.put p) = w.uses cfg store h (.put q) ∧
      Twin (v.call cfg store (.put p)).1 (w.call cfg store (.put q)).1
        (v.uses cfg store h (.put p)) := by
  obtain ⟨hset, htotal⟩ := T.settled store hcfg hpq hgone
  have hrefused : ((v.settledVolume cfg store p).finishPut cfg
        (v.settledFrame cfg store p)).2.isSome
      = ((w.settledVolume cfg store q).finishPut cfg (w.settledFrame cfg store q)).2.isSome := by
    unfold VolumeService.finishPut settledFrame
    rw [htotal]
    split <;> rfl
  have huses : v.uses cfg store h (.put p) = w.uses cfg store h (.put q) := by
    simp only [uses, put_eq]
    rw [hrefused, h.together_congr (keys_iff hpq)]
  have hleft := T.left.call hcfg store (.put p)
  have hright := T.right.call hcfg store (.put q)
  rw [← huses] at hright
  suffices hstate : (v.call cfg store (.put p)).1.kv = (w.call cfg store (.put q)).1.kv ∧
      (∀ k, (v.call cfg store (.put p)).1.residentByKey.get? k
        = (w.call cfg store (.put q)).1.residentByKey.get? k) ∧
      (v.call cfg store (.put p)).1.residentBytes
        = (w.call cfg store (.put q)).1.residentBytes from
    ⟨by simp only [VolumeService.call, put_eq, hrefused], huses, hleft, hright, hstate.1,
      hstate.2.1, hstate.2.2⟩
  simp only [VolumeService.call, put_eq]
  cases hr : ((v.settledVolume cfg store p).finishPut cfg (v.settledFrame cfg store p)).2.isSome
    with
  | true =>
      rw [(finishPut_refused hr).2, (finishPut_refused (hrefused.symm.trans hr)).2]
      refine ⟨?_, hset.resident, hset.bytes⟩
      rw [rollBack_kv, rollBack_kv, hset.kv]
      show Dict.filterKeys _ (fun x => decide (¬ (x ∈ p.keys ∧ _))) = Dict.filterKeys _
        (fun x => decide (¬ (x ∈ q.keys ∧ _)))
      simp only [keys_iff hpq, hset.mem_resident]
  | false =>
      rw [(finishPut_ok hr).2, (finishPut_ok (hrefused.symm.trans hr)).2]
      refine ⟨hset.kv, ?_, htotal⟩
      intro k
      show (Dict.update _ ((v.landed store p).newByKey p)).get? k
        = (Dict.update _ ((w.landed store q).newByKey q)).get? k
      rw [Dict.get?_update, Dict.get?_update, T.newByKey store hpq k, hset.resident k]

/-- **One call of two executions**: if it evicts alike, it is refused alike and
they still agree. -/
theorem call (hcfg : cfg.retention = leastRecentlyUsed κ) (T : Twin v w h) {c d : Call κ τ}
    (hcd : c.Same d)
    (hgone : ∀ k, k ∈ (v.call cfg store c).2.evicted ↔ k ∈ (w.call cfg store d).2.evicted) :
    (v.call cfg store c).2.Same (w.call cfg store d).2 ∧
      v.uses cfg store h c = w.uses cfg store h d ∧
      Twin (v.call cfg store c).1 (w.call cfg store d).1 (v.uses cfg store h c) := by
  have hput : ∀ p q : Put κ τ, p.requests = q.requests →
      (∀ k, k ∈ (v.call cfg store (.put p)).2.evicted
        ↔ k ∈ (w.call cfg store (.put q)).2.evicted) → _ := fun p q hpq hgone =>
    T.finishPut store hcfg hpq (by simpa only [VolumeService.call, put_eq] using hgone)
  cases hcd with
  | put hpq =>
      obtain ⟨hrefused, huses, hT⟩ := hput _ _ hpq hgone
      exact ⟨⟨hgone, hrefused⟩, huses, hT⟩
  | refl =>
      have hleft := T.left.call hcfg store c
      have hright := T.right.call hcfg store c
      cases c with
      | put p =>
          obtain ⟨hrefused, huses, hT⟩ := hput p p rfl hgone
          exact ⟨⟨hgone, hrefused⟩, huses, hT⟩
      | get keys =>
          exact ⟨⟨hgone, rfl⟩, rfl, hleft, hright, T.kv, T.resident, T.bytes⟩
      | touch keys =>
          have huses : v.uses cfg store h (.touch keys) = w.uses cfg store h (.touch keys) := by
            simp only [uses, T.mem_resident]
          rw [← huses] at hright
          exact ⟨⟨hgone, rfl⟩, huses, hleft, hright, T.kv, T.resident, T.bytes⟩
      | delete key =>
          have hT := T.deleteBatch hcfg (fun k => Iff.rfl (a := k ∈ [key]))
          exact ⟨⟨hgone, rfl⟩, rfl, hT⟩
      | deleteBatch keys => exact ⟨⟨hgone, rfl⟩, rfl, T.deleteBatch hcfg fun _ => Iff.rfl⟩
      | reset => exact ⟨⟨hgone, rfl⟩, rfl, hleft, hright, rfl, fun _ => rfl, rfl⟩

theorem colder (T : Twin v w h) {p q : Put κ τ} (hpq : p.requests = q.requests) (x : κ) :
    v.colder h p.keys x = w.colder h q.keys x := by
  unfold VolumeService.colder
  rw [T.keys]
  simp only [keys_iff hpq]

theorem tied (T : Twin v w h) {p q : Put κ τ} (hpq : p.requests = q.requests) (x : κ) :
    v.tied h p.keys x = w.tied h q.keys x := by
  unfold VolumeService.tied
  rw [T.keys]
  simp only [keys_iff hpq]

/-- A group divided in one execution is divided in the other. -/
theorem undividedAt (T : Twin v w h) {p q : Put κ τ} (hpq : p.requests = q.requests) (x : κ) :
    v.UndividedAt cfg store h p x ↔ w.UndividedAt cfg store h q x := by
  unfold UndividedAt
  rw [T.projected store hpq, T.mem_resident, keys_iff hpq, T.colder hpq, T.tied hpq,
    T.bytesOf, T.bytesOf]

/-- Where no group is divided, the other execution evicts alike. -/
theorem evicted (hcfg : cfg.retention = leastRecentlyUsed κ) (T : Twin v w h) {p q : Put κ τ}
    (hpq : p.requests = q.requests) (hp : v.Undivided cfg store h p) (k : κ) :
    k ∈ v.putVictims cfg store p ↔ k ∈ w.putVictims cfg store q := by
  have hq : w.Undivided cfg store h q := fun x => (T.undividedAt store hpq x).mp (hp x)
  rw [mem_putVictims_undivided hcfg store T.left hp,
    mem_putVictims_undivided hcfg store T.right hq, T.projected store hpq, T.mem_resident,
    keys_iff hpq, T.colder hpq, T.bytesOf]

/-- **Two executions of a sequence without a divided group show the same.** -/
theorem outcomes (hcfg : cfg.retention = leastRecentlyUsed κ) (as : List (Call κ τ)) :
    ∀ {v w : Volume κ β} {h : History κ} (bs : List (Call κ τ)), Twin v w h →
      EveryPut cfg store (Undivided cfg store) v h as → List.Forall₂ Call.Same as bs →
      List.Forall₂ Outcome.Same (v.outcomes cfg store as) (w.outcomes cfg store bs) := by
  induction as with
  | nil =>
      intro v w h bs _ _ hsame
      cases hsame
      exact .nil
  | cons a as ih =>
      intro v w h bs T hevery hsame
      obtain ⟨b, bs, hab, hrest, rfl⟩ := List.forall₂_cons_left_iff.mp hsame
      have hgone : ∀ k, k ∈ (v.call cfg store a).2.evicted
          ↔ k ∈ (w.call cfg store b).2.evicted := by
        intro k
        cases hab with
        | put hpq =>
            simp only [VolumeService.call, put_eq]
            exact T.evicted store hcfg hpq (hevery.1 _ rfl) k
        | refl =>
            cases a with
            | put p =>
                simp only [VolumeService.call, put_eq]
                exact T.evicted store hcfg rfl (hevery.1 _ rfl) k
            | _ => exact Iff.rfl
      obtain ⟨hsameout, _, hT⟩ := T.call store hcfg hab hgone
      exact .cons hsameout (ih bs hT hevery.2 hrest)

end Twin

/-! ## §7. An execution that iterates some keys first. -/

/-- Iterate the keys that satisfy `q` before the others. -/
def lead (q : κ → Bool) (p : Put κ τ) : Put κ τ where
  requests := p.requests
  keys := p.keys.filter q ++ p.keys.filter fun k => !q k
  nodup := (List.filter_append_perm q p.keys).nodup_iff.mpr p.nodup
  mem_keys k := by
    rw [(List.filter_append_perm q p.keys).mem_iff]
    exact p.mem_keys k

/-- The same call, its set iterated so. -/
def leadCall (q : κ → Bool) : Call κ τ → Call κ τ
  | .put p => .put (lead q p)
  | c => c

theorem leadCall_same (q : κ → Bool) (c : Call κ τ) : c.Same (leadCall q c) := by
  cases c with
  | put p => exact .put rfl
  | _ => exact .refl _

/-- Of two keys last used together, one that leads has the earlier stamp. -/
def Led (q : κ → Bool) (r : LeastRecentlyUsed κ) (h : History κ) : Prop :=
  ∀ j ∈ r.used, ∀ k ∈ r.used, h.last j = h.last k → q j = true → q k = false →
    r.stamp j < r.stamp k

namespace Led

variable {q : κ → Bool} {r : LeastRecentlyUsed κ} {h : History κ}

theorem forget (L : Led q r h) (key : κ) : Led q (r.forget key) h := by
  intro j hj k hk
  obtain ⟨hjne, hjin⟩ := LeastRecentlyUsed.mem_forget.mp hj
  obtain ⟨hkne, hkin⟩ := LeastRecentlyUsed.mem_forget.mp hk
  rw [LeastRecentlyUsed.stamp_forget hjne, LeastRecentlyUsed.stamp_forget hkne]
  exact L j hjin k hkin

theorem forgets (keys : List κ) : ∀ {r : LeastRecentlyUsed κ}, Led q r h →
    Led q (forgot keys r) h := by
  induction keys with
  | nil => intro r L; exact L
  | cons key keys ih => intro r L; exact ih (L.forget key)

/-- A note keeps it, unless a key that leads joins a use that another began. -/
theorem note (H : Ordered r h) (L : Led q r h) {key : κ} (nbytes : Option ℕ)
    (hopen : ∀ k ∈ r.used, h.last k = h.turn → q k = false → q key = false) :
    Led q (r.note key nbytes) (h.join key) := by
  intro j hj k hk hlast hqj hqk
  rw [LeastRecentlyUsed.stamp_note, LeastRecentlyUsed.stamp_note]
  have hj' := LeastRecentlyUsed.mem_note.mp hj
  have hk' := LeastRecentlyUsed.mem_note.mp hk
  have hlast' : (if j = key then h.turn else h.last j) = if k = key then h.turn else h.last k :=
    hlast
  by_cases hjk : j = key
  · subst hjk
    by_cases hkk : k = j
    · subst hkk
      exact absurd (hqj.symm.trans hqk) (by simp)
    · rw [if_pos rfl, if_neg hkk] at hlast'
      exact absurd (hqj.symm.trans (hopen k (hk'.resolve_left hkk) hlast'.symm hqk)) (by simp)
  · rw [if_neg (Ne.symm hjk)]
    have hjin := hj'.resolve_left hjk
    by_cases hkk : k = key
    · have := H.stamped j hjin
      rw [if_pos hkk.symm]
      omega
    · rw [if_neg hjk, if_neg hkk] at hlast'
      rw [if_neg (Ne.symm hkk)]
      exact L j hjin k (hk'.resolve_left hkk) hlast' hqj hqk

/-- The notes of one use keep it, with those that lead noted first. -/
theorem notes (size : κ → Option ℕ) (keys : List κ) :
    ∀ {r : LeastRecentlyUsed κ} {h : History κ}, Ordered r h → Led q r h →
      keys.Pairwise (fun a b => q a = false → q b = false) →
      (∀ k ∈ r.used, h.last k = h.turn → q k = false → ∀ key ∈ keys, q key = false) →
      Led q (noted size keys r) (keys.foldl History.join h) := by
  induction keys with
  | nil => intro r h _ L _ _; exact L
  | cons key keys ih =>
      intro r h H L hs hopen
      rw [List.pairwise_cons] at hs
      have hkey : ∀ k ∈ r.used, h.last k = h.turn → q k = false → q key = false :=
        fun k hk hlast hqk => hopen k hk hlast hqk key List.mem_cons_self
      refine ih (H.note key (size key)) (L.note H (size key) hkey) hs.2 ?_
      intro k hk hlast hqk other hother
      have hlast' : (if k = key then h.turn else h.last k) = h.turn := hlast
      by_cases hkk : k = key
      · exact hs.1 other hother (hkk ▸ hqk)
      · rw [if_neg hkk] at hlast'
        exact hopen k ((LeastRecentlyUsed.mem_note.mp hk).resolve_left hkk) hlast' hqk other
          (List.mem_cons_of_mem _ hother)

omit [LinearOrder κ] in
/-- No key was used in a use that only begins. -/
theorem not_yet [LinearOrder κ] (H : Ordered r h) {k : κ} (hk : k ∈ r.used) :
    h.next.last k ≠ h.next.turn := by
  have hbegun := H.begun k hk
  show h.last k ≠ h.turn + 1
  omega

theorem notesInTurn (size : κ → Option ℕ) (keys : List κ) :
    ∀ {r : LeastRecentlyUsed κ} {h : History κ}, Ordered r h → Led q r h →
      Led q (noted size keys r) (h.inTurn keys) := by
  induction keys with
  | nil => intro r h _ L; exact L
  | cons key keys ih =>
      intro r h H L
      refine ih (H.next.note key (size key)) (note H.next L (size key) ?_)
      intro k hk hlast
      exact absurd hlast (not_yet H hk)

/-- **An execution that iterates the leading keys first keeps it.** -/
theorem call {cfg : LruConfig κ} (hcfg : cfg.retention = leastRecentlyUsed κ)
    (store : InMemoryStore κ β τ) {v : Volume κ β} (H : Ordered v.retention h)
    (L : Led q v.retention h) (c : Call κ τ) :
    Led q (v.call cfg store (leadCall q c)).1.retention (v.uses cfg store h (leadCall q c)) := by
  obtain ⟨gone, size, ⟨p, hput, huses, hret⟩ | ⟨keys, huses, hret⟩⟩ :=
    retention_call hcfg store v h (leadCall q c)
  · have hkeys : p.keys.Pairwise fun a b => q a = false → q b = false := by
      cases c with
      | put p' =>
          injection hput with hput
          rw [← hput]
          show (p'.keys.filter q ++ p'.keys.filter fun k => !q k).Pairwise _
          rw [List.pairwise_append]
          refine ⟨?_, ?_, ?_⟩
          · apply List.pairwise_of_forall_mem_list
            intro a ha b _ hqa
            exact absurd ((List.mem_filter.mp ha).2.symm.trans hqa) (by simp)
          · apply List.pairwise_of_forall_mem_list
            intro a _ b hb _
            simpa using (List.mem_filter.mp hb).2
          · intro a _ b hb _
            simpa using (List.mem_filter.mp hb).2
      | _ => cases hput
    rw [huses, hret]
    apply notes size p.keys (H.forgets gone).next (L.forgets gone) hkeys
    intro k hk hlast
    exact absurd hlast (not_yet (H.forgets gone) hk)
  · rw [huses, hret]
    exact (L.forgets gone).notesInTurn size keys (H.forgets gone)

end Led

/-! ## §8. Deterministic exactly when no group is divided. -/

section Exactly

variable {cfg : LruConfig κ} (store : InMemoryStore κ β τ)

/-- With the keys last used together with `x` stamped after it, `x` is a victim
as soon as the eviction reaches its use. -/
theorem victim_of_first (hcfg : cfg.retention = leastRecentlyUsed κ) {v : Volume κ β}
    {h : History κ} (H : Kept v h) {x : κ} (L : Led (· == x) v.retention h) {p : Put κ τ}
    (hfull : cfg.Exceeds (v.framed store p).projected) (hctl : cfg.controller = true)
    (hx : x ∈ v.residentByKey) (hout : x ∉ p.keys)
    (hlt : v.bytesOf (v.colder h p.keys x) < cfg.need (v.framed store p).projected) :
    x ∈ v.putVictims cfg store p := by
  rw [mem_putVictims_iff hcfg store H]
  refine ⟨hfull, hctl, hx, hout, lt_of_le_of_lt (bytesOf_mono ?_) hlt⟩
  intro j hj
  rcases Finset.mem_union.mp (stamped_earlier H p.keys hx hj) with hcold | htied
  · exact hcold
  · obtain ⟨hin, _, hlast, hne⟩ := Finset.mem_filter.mp htied
    have hlater := L x (H.ranked x hx) j (H.ranked j (List.mem_toFinset.mp hin)) hlast.symm
      (by simp) (by simpa using hne)
    have hearlier := (Finset.mem_filter.mp hj).2.2
    omega

/-- With them stamped before it, `x` is a victim only if all of them together
leave the need short. -/
theorem short_of_last (hcfg : cfg.retention = leastRecentlyUsed κ) {v : Volume κ β}
    {h : History κ} (H : Kept v h) {x : κ} (L : Led (· != x) v.retention h) {p : Put κ τ}
    (hvictim : x ∈ v.putVictims cfg store p) :
    v.bytesOf (v.colder h p.keys x) + v.bytesOf (v.tied h p.keys x)
      < cfg.need (v.framed store p).projected := by
  obtain ⟨_, _, hx, _, hlt⟩ := (mem_putVictims_iff hcfg store H p).mp hvictim
  rw [← bytesOf_colder_union_tied]
  refine lt_of_le_of_lt (bytesOf_mono ?_) hlt
  intro j hj
  rcases Finset.mem_union.mp hj with hcold | htied
  · exact colder_subset H p.keys hx hcold
  · obtain ⟨hin, hjout, hlast, hne⟩ := Finset.mem_filter.mp htied
    have hearlier := L j (H.ranked j (List.mem_toFinset.mp hin)) x (H.ranked x hx) hlast
      (by simpa using hne) (by simp)
    exact Finset.mem_filter.mpr ⟨hin, hjout, hearlier⟩

/-- If iterating `x` first and iterating it last show what `v` shows, no put
divides the group of `x`. -/
theorem undividedAt_of_same (hcfg : cfg.retention = leastRecentlyUsed κ) (x : κ)
    (cs : List (Call κ τ)) : ∀ {v a b : Volume κ β} {h : History κ}, Twin v a h → Twin v b h →
      Led (· == x) a.retention h → Led (· != x) b.retention h →
      List.Forall₂ Outcome.Same (v.outcomes cfg store cs)
        (a.outcomes cfg store (cs.map (leadCall (· == x)))) →
      List.Forall₂ Outcome.Same (v.outcomes cfg store cs)
        (b.outcomes cfg store (cs.map (leadCall (· != x)))) →
      EveryPut cfg store (fun v h p => v.UndividedAt cfg store h p x) v h cs := by
  induction cs with
  | nil =>
      intro v a b h _ _ _ _ _ _
      exact trivial
  | cons c cs ih =>
      intro v a b h Ta Tb La Lb hsa hsb
      obtain ⟨hca, hsa⟩ := List.forall₂_cons.mp hsa
      obtain ⟨hcb, hsb⟩ := List.forall₂_cons.mp hsb
      obtain ⟨_, hua, hTa⟩ := Ta.call store hcfg (leadCall_same _ c) hca.1
      obtain ⟨_, hub, hTb⟩ := Tb.call store hcfg (leadCall_same _ c) hcb.1
      have hLa := La.call hcfg store Ta.right.ordered c
      have hLb := Lb.call hcfg store Tb.right.ordered c
      rw [← hua] at hLa
      rw [← hub] at hLb
      refine ⟨?_, ih hTa hTb hLa hLb hsa hsb⟩
      rintro p rfl hfull hctl hx hout hlt
      have hreq : ∀ q : κ → Bool, p.requests = (lead q p).requests := fun _ => rfl
      have hfirst : x ∈ a.putVictims cfg store (lead (· == x) p) := by
        apply victim_of_first store hcfg Ta.right La
        · rw [← Ta.projected store (hreq _)]
          exact hfull
        · exact hctl
        · exact (Ta.mem_resident x).mp hx
        · exact fun hin => hout ((Twin.keys_iff (hreq (· == x)) x).mpr hin)
        · rw [← Ta.projected store (hreq _), ← Ta.colder (hreq _), ← Ta.bytesOf]
          exact hlt
      have hshown : x ∈ v.putVictims cfg store p := by
        have hiff := hca.1 x
        simp only [VolumeService.call, leadCall, put_eq] at hiff
        exact hiff.mpr hfirst
      have hlast : x ∈ b.putVictims cfg store (lead (· != x) p) := by
        have hiff := hcb.1 x
        simp only [VolumeService.call, leadCall, put_eq] at hiff
        exact hiff.mp hshown
      have hshort := short_of_last store hcfg Tb.right Lb hlast
      rw [← Tb.projected store (hreq _), ← Tb.colder (hreq _), ← Tb.tied (hreq _),
        ← Tb.bytesOf, ← Tb.bytesOf] at hshort
      exact hshort

/-- Whatever holds at every put of each key holds at every put of all. -/
theorem everyPut_forall {P : κ → Volume κ β → History κ → Put κ τ → Prop}
    (cs : List (Call κ τ)) : ∀ (v : Volume κ β) (h : History κ),
      (∀ x, EveryPut cfg store (P x) v h cs) →
      EveryPut cfg store (fun v h p => ∀ x, P x v h p) v h cs := by
  induction cs with
  | nil =>
      intro v h _
      exact trivial
  | cons c cs ih =>
      intro v h hx
      exact ⟨fun p hp x => (hx x).1 p hp, ih _ _ fun x => (hx x).2⟩

/-- Nothing is recorded, ranked or used in a fresh volume. -/
theorem kept_fresh (hcfg : cfg.retention = leastRecentlyUsed κ) :
    Kept (cfg.fresh : Volume κ β) History.fresh := by
  have hret : (cfg.fresh : Volume κ β).retention = ⟨Dict.empty, Dict.empty, 0⟩ := by
    unfold VolumeConfig.fresh
    rw [hcfg]
    rfl
  refine ⟨?_, ?_, fun k hk => absurd hk (Dict.not_mem_empty k)⟩
  · rw [hret]
    exact ⟨fun k hk => absurd hk (Dict.not_mem_empty k),
      fun k hk => absurd hk (Dict.not_mem_empty k),
      fun k hk => absurd hk (Dict.not_mem_empty k),
      fun k hk => absurd hk (Dict.not_mem_empty k)⟩
  · intro k
    rw [hret]
    rfl

/-- **Deterministic exactly when no group is divided**: every execution of the
same calls evicts the same keys at every put and refuses the same puts, if and
only if no put's eviction stops inside a group of keys last used by one put. -/
theorem replacement_deterministic (hcfg : cfg.retention = leastRecentlyUsed κ)
    (as : List (Call κ τ)) :
    (∀ bs, List.Forall₂ Call.Same as bs →
      List.Forall₂ Outcome.Same ((cfg.fresh : Volume κ β).outcomes cfg store as)
        ((cfg.fresh : Volume κ β).outcomes cfg store bs)) ↔
      EveryPut cfg store (Undivided cfg store) (cfg.fresh : Volume κ β) History.fresh as := by
  have hkept := kept_fresh (β := β) hcfg
  have hT : Twin (cfg.fresh : Volume κ β) cfg.fresh History.fresh :=
    ⟨hkept, hkept, rfl, fun _ => rfl, rfl⟩
  constructor
  · intro hsame
    apply everyPut_forall
    intro x
    have hled : ∀ q : κ → Bool, Led q (cfg.fresh : Volume κ β).retention History.fresh := by
      intro q j hj
      unfold VolumeConfig.fresh at hj
      rw [hcfg] at hj
      exact absurd hj (Dict.not_mem_empty j)
    have hlead : ∀ q : κ → Bool, List.Forall₂ Call.Same as (as.map (leadCall q)) := by
      intro q
      exact List.forall₂_map_right_iff.mpr (List.forall₂_same.mpr fun c _ => leadCall_same q c)
    exact undividedAt_of_same store hcfg x as hT hT (hled _) (hled _) (hsame _ (hlead _))
      (hsame _ (hlead _))
  · intro hevery bs hbs
    exact hT.outcomes store hcfg as bs hevery hbs

end Exactly

/-- A volume with room for two bytes. -/
def twoBytes : LruConfig ℕ where
  volumeId := "v"
  capacityBytes := some 2
  capacity_nonneg := by simp
  controller := true
  retention := leastRecentlyUsed ℕ

/-- One byte under each of the keys 0 and 1, the set iterated as `keys`. -/
def putPair (keys : List ℕ) (hn : keys.Nodup) (hm : ∀ k, k ∈ keys ↔ k ∈ [0, 1]) :
    Call ℕ (Stored Unit) :=
  .put ⟨[⟨0, .full () 1 1⟩, ⟨1, .full () 1 1⟩], keys, hn, hm⟩

/-- One byte under the key 2. -/
def putThird : Call ℕ (Stored Unit) := .put ⟨[⟨2, .full () 1 1⟩], [2], by decide, by simp⟩

/-- A pair, one of the two read again, and a put that has to evict the other. -/
def readBetween : List (Call ℕ (Stored Unit)) :=
  [putPair [0, 1] (by decide) (by simp), .get [0], putThird]

/-- After the read no group is left to divide: every execution evicts the key 1. -/
theorem readBetween_deterministic :
    (twoBytes.fresh : Volume ℕ Unit).outcomes twoBytes (overwriting ℕ Unit) readBetween
        = [⟨[], false⟩, ⟨[], false⟩, ⟨[1], false⟩] ∧
      ∀ bs, List.Forall₂ Call.Same readBetween bs →
        List.Forall₂ Outcome.Same
          ((twoBytes.fresh : Volume ℕ Unit).outcomes twoBytes (overwriting ℕ Unit) readBetween)
          ((twoBytes.fresh : Volume ℕ Unit).outcomes twoBytes (overwriting ℕ Unit) bs) := by
  refine ⟨by decide +kernel,
    (replacement_deterministic (overwriting ℕ Unit) rfl readBetween).mpr ?_⟩
  refine ⟨?first, ?read, ?third, trivial⟩
  case first =>
    intro p hp x hfull
    injection hp with hp
    subst hp
    exact absurd hfull (by decide +kernel)
  case read =>
    intro p hp
    cases hp
  case third =>
    intro p hp x _ _ hx
    injection hp with hp
    subst hp
    have hpair : x ∈ [0, 1] := hx
    simp only [List.mem_cons, List.not_mem_nil, or_false] at hpair
    rcases hpair with rfl | rfl
    · -- the key 1 is colder than the key 0 and covers the need alone
      intro _ hlt
      exact absurd hlt (by decide +kernel)
    · intro _ _
      decide +kernel

/-- **The order of a set decides who goes**: two executions of a put of two keys
and a put that needs room for one evict different keys. -/
theorem pair_order_decides : ¬ ∀ as bs : List (Call ℕ (Stored Unit)),
    List.Forall₂ Call.Same as bs →
      List.Forall₂ Outcome.Same
        ((twoBytes.fresh : Volume ℕ Unit).outcomes twoBytes (overwriting ℕ Unit) as)
        ((twoBytes.fresh : Volume ℕ Unit).outcomes twoBytes (overwriting ℕ Unit) bs) := by
  intro hall
  have hsame := hall [putPair [0, 1] (by decide) (by simp), putThird]
    [putPair [1, 0] (by decide) (by simp [or_comm]), putThird]
    (.cons (.put rfl) (.cons (.refl _) .nil))
  have hleft : (twoBytes.fresh : Volume ℕ Unit).outcomes twoBytes (overwriting ℕ Unit)
      [putPair [0, 1] (by decide) (by simp), putThird]
      = [⟨[], false⟩, ⟨[0], false⟩] := by decide +kernel
  have hright : (twoBytes.fresh : Volume ℕ Unit).outcomes twoBytes (overwriting ℕ Unit)
      [putPair [1, 0] (by decide) (by simp [or_comm]), putThird]
      = [⟨[], false⟩, ⟨[1], false⟩] := by decide +kernel
  rw [hleft, hright] at hsame
  obtain ⟨_, hsecond⟩ := List.forall₂_cons.mp hsame
  have hiff := (List.forall₂_cons.mp hsecond).1.1 0
  simp at hiff

end VolumeService

end Toso.Store
