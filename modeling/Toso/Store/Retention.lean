/-
  Toso.Store.Retention — which of a volume's keys go when it needs room.

  A volume knows bytes and accesses; a retention ranking turns them into an
  order of victims.  The volume reaches its ranking through four verbs only
  (`note`, `forget`, `victims`, `held`), so the ranking is a parameter of the
  volume and `LeastRecentlyUsed` its default.

  Main results:
    * `LeastRecentlyUsed.mem_scan` — the scan names ranked keys only, never an
      excluded one.
    * `leastRecentlyUsed` — the default ranking is a `Retention`.
-/
import Toso.Lib.Dict
import Mathlib.Data.List.Sort
import Mathlib.Algebra.Order.Ring.Int

namespace Toso.Store

open Lib

/-! ## §1. The surface a volume needs of its ranking. -/

/-- What a volume asks of the ranking it is handed.  `victims_spares` is the
promise the volume's own eviction leans on: an excluded key is skipped in the
ranking, not filtered out of its answer. -/
structure Retention (κ ρ : Type*) where
  /-- `key` was just accessed, and (on a write) is this many bytes. -/
  note : κ → Option ℕ → ρ → ρ
  /-- `key` is gone from the volume. -/
  forget : κ → ρ → ρ
  /-- Enough keys to free so many bytes, none of them excluded. -/
  victims : ℤ → List κ → ρ → List κ
  /-- Every key the ranking knows about. -/
  held : ρ → List κ
  /-- The ranking of a volume nobody used yet. -/
  fresh : ρ
  victims_spares : ∀ need exclude r k, k ∈ victims need exclude r → k ∉ exclude

/-! ## §2. Least recently used. -/

/-- `LeastRecentlyUsed`: when each key was last used, and its bytes. -/
structure LeastRecentlyUsed (κ : Type*) where
  used : Dict κ ℕ
  bytes : Dict κ ℕ
  clock : ℕ

namespace LeastRecentlyUsed

variable {κ : Type*} [LinearOrder κ]

/-- An ordered type decides equality lawfully, whatever membership is asked of. -/
instance lawfulBEq : LawfulBEq κ := inferInstance

/-- `note`: advance the counter and stamp the key with it. -/
def note (key : κ) (nbytes : Option ℕ) (r : LeastRecentlyUsed κ) :
    LeastRecentlyUsed κ where
  used := r.used.set key (r.clock + 1)
  bytes := match nbytes with
    | some n => r.bytes.set key n
    | none => r.bytes
  clock := r.clock + 1

/-- `forget`. -/
def forget (key : κ) (r : LeastRecentlyUsed κ) : LeastRecentlyUsed κ :=
  { r with used := r.used.erase key, bytes := r.bytes.erase key }

/-- The sort key of `victims`: `(used, key)`, lexicographically. -/
def Colder (a b : κ × ℕ) : Prop := a.2 < b.2 ∨ a.2 = b.2 ∧ a.1 ≤ b.1

instance : DecidableRel (Colder (κ := κ)) := fun a b =>
  inferInstanceAs (Decidable (a.2 < b.2 ∨ a.2 = b.2 ∧ a.1 ≤ b.1))

/-- The keys the ranking knows, coldest first. -/
def coldest (r : LeastRecentlyUsed κ) : List κ :=
  (r.used.entries.insertionSort Colder).map Prod.fst

/-- The loop of `victims`: stop as soon as the total covers the need, and skip
an excluded key before its bytes are counted. -/
def scan (bytes : Dict κ ℕ) (need : ℤ) (exclude : List κ) : List κ → ℤ → List κ
  | [], _ => []
  | key :: rest, freed =>
      if freed ≥ need then []
      else if key ∈ exclude then scan bytes need exclude rest freed
      else key :: scan bytes need exclude rest (freed + bytes.getD key 0)

/-- `victims`. -/
def victims (need : ℤ) (exclude : List κ) (r : LeastRecentlyUsed κ) : List κ :=
  scan r.bytes need exclude r.coldest 0

/-- `held`. -/
def held (r : LeastRecentlyUsed κ) : List κ := r.used.keys

/-- A scanned key was in the list scanned, and is not excluded. -/
theorem mem_scan (bytes : Dict κ ℕ) (need : ℤ) (exclude : List κ) {k : κ} :
    ∀ (ks : List κ) (freed : ℤ), k ∈ scan bytes need exclude ks freed →
      k ∈ ks ∧ k ∉ exclude
  | [], _, h => by cases h
  | key :: rest, freed, h => by
      change k ∈ (if freed ≥ need then [] else if key ∈ exclude then _ else _) at h
      split at h
      · cases h
      · split at h
        · exact (mem_scan bytes need exclude rest freed h).imp_left (List.mem_cons_of_mem _)
        · rename_i hkey
          rcases List.mem_cons.mp h with rfl | hrest
          · exact ⟨List.mem_cons_self, hkey⟩
          · exact (mem_scan bytes need exclude rest _ hrest).imp_left
              (List.mem_cons_of_mem _)

end LeastRecentlyUsed

/-- **The default ranking.** -/
def leastRecentlyUsed (κ : Type*) [LinearOrder κ] :
    Retention κ (LeastRecentlyUsed κ) where
  note := LeastRecentlyUsed.note
  forget := LeastRecentlyUsed.forget
  victims := LeastRecentlyUsed.victims
  held := LeastRecentlyUsed.held
  fresh := ⟨Dict.empty, Dict.empty, 0⟩
  victims_spares _ _ _ _ h := (LeastRecentlyUsed.mem_scan _ _ _ _ _ h).2

end Toso.Store
