/-
  Toso.Store.Refusal — what a refused put leaves behind.

  A put lets the store write first and checks the capacity after.  Its
  roll-back removes the named keys without a recorded size; a key it overwrote
  keeps the new value under the old recorded size.

  Main results:
    * `refused_overwrite_lands` — a refused put whose value stays.
    * `get?_refused`, `resident_refused`, `total_refused` — a refused put,
      read by read.
    * `nothingLanded_iff` — exactly when nothing of a refused put lands.
-/
import Toso.Store.Residency

namespace Toso.Store

open Lib

variable {κ β ρ τ : Type*} [DecidableEq κ]

namespace VolumeService

/-- The put raises `StorageCapacityExceeded`. -/
def PutRaises (cfg : VolumeConfig κ ρ) (store : InMemoryStore κ β τ)
    (v : VolumeService κ β ρ) (p : Put κ τ) : Prop :=
  (v.put cfg store p).2.2.isSome = true

/-- **What a refused put promises**: every key it names reads as before, the
running total is the sum of the recorded sizes, and the store lost only what
the directory was told of. -/
structure NothingLanded (cfg : VolumeConfig κ ρ) (store : InMemoryStore κ β τ)
    (v : VolumeService κ β ρ) (p : Put κ τ) : Prop where
  values : ∀ k ∈ p.keys, (v.put cfg store p).1.kv.get? k = v.kv.get? k
  recorded : ∀ k ∈ p.keys,
    (v.put cfg store p).1.residentByKey.get? k = v.residentByKey.get? k
  total : (v.put cfg store p).1.residentBytes = (v.put cfg store p).1.recordedTotal
  told : ∀ k, (v.put cfg store p).1.kv.get? k
    = if k ∈ (v.put cfg store p).2.1 then none else v.kv.get? k

/-- The roll-back can restore the named keys: a recorded one is written with
the value it already has, any other was not stored. -/
def Restorable (store : InMemoryStore κ β τ) (v : VolumeService κ β ρ) (p : Put κ τ) :
    Prop :=
  v.residentBytes = v.recordedTotal ∧
  (∀ k ∈ p.keys, k ∈ v.residentByKey →
    (store.land v.kv p.requests).get? k = v.kv.get? k) ∧
  (∀ k ∈ p.keys, k ∉ v.residentByKey → k ∉ v.kv)

/-- The store after a put of two values of different sizes under one key, the
second of which does not fit. -/
theorem refused_overwrite_lands :
    ¬ ∀ (v : VolumeService ℕ Unit (LeastRecentlyUsed ℕ)) (p : Put ℕ (Stored Unit)),
        PutRaises tenBytes (overwriting ℕ Unit) v p →
        NothingLanded tenBytes (overwriting ℕ Unit) v p := by
  intro hall
  have hraises : PutRaises tenBytes (overwriting ℕ Unit)
      (tenBytes.fresh.put tenBytes (overwriting ℕ Unit) (putOne 0 5)).1 (putOne 0 20) := by
    unfold PutRaises
    decide +kernel
  have hkept := (hall _ _ hraises).values 0 (by decide)
  exact absurd hkept (by decide +kernel)

section Refused

variable {cfg : VolumeConfig κ ρ} {store : InMemoryStore κ β τ}
  {v : VolumeService κ β ρ} {p : Put κ τ}

theorem putRaises_iff : PutRaises cfg store v p ↔ Refused cfg store v p := by
  unfold PutRaises Refused
  rw [put_eq]
  show ((v.settledVolume cfg store p).finishPut cfg _).2.isSome = true ↔ _
  unfold finishPut settledFrame
  by_cases hex : cfg.Exceeds (v.settledTotal cfg store p) <;> simp [hex]

/-- A refused put ends in the roll-back of what it checked against. -/
theorem put_refused (h : PutRaises cfg store v p) :
    (v.put cfg store p).1 = (v.settledVolume cfg store p).rollBack p.keys := by
  have hex : cfg.Exceeds (v.settledFrame cfg store p).projected := putRaises_iff.mp h
  rw [put_eq]
  show ((v.settledVolume cfg store p).finishPut cfg _).1 = _
  unfold finishPut
  rw [if_pos hex]
  rfl

theorem told_eq : (v.put cfg store p).2.1 = v.putVictims cfg store p := by
  rw [put_eq]

theorem resident_refused (h : PutRaises cfg store v p) (k : κ) :
    (v.put cfg store p).1.residentByKey.get? k
      = if k ∈ v.putVictims cfg store p then none else v.residentByKey.get? k := by
  rw [put_refused h, rollBack_residentByKey, get?_resident_settled]

theorem total_refused (h : PutRaises cfg store v p) :
    (v.put cfg store p).1.recordedTotal - (v.put cfg store p).1.residentBytes
      = v.recordedTotal - v.residentBytes := by
  rw [put_refused h]
  exact deleteBatch_total cfg (v.putVictims cfg store p) (v.landed store p)

/-- **A read of the store after a refused put.** -/
theorem get?_refused (h : PutRaises cfg store v p) (k : κ) :
    (v.put cfg store p).1.kv.get? k
      = if k ∈ p.keys then
          if k ∈ v.residentByKey then (store.land v.kv p.requests).get? k else none
        else if k ∈ v.putVictims cfg store p then none
        else v.kv.get? k := by
  rw [put_refused h, get?_rollBack, get?_kv_settled]
  by_cases hk : k ∈ p.keys
  · have hv : k ∉ v.putVictims cfg store p := fun hv => (mem_putVictims hv).2 hk
    have hmem : k ∈ (v.settledVolume cfg store p).residentByKey ↔ k ∈ v.residentByKey := by
      rw [Dict.mem_iff, Dict.mem_iff, get?_resident_settled, if_neg hv]
    rw [if_neg hv, if_pos hk, if_pos hk]
    by_cases hr : k ∈ v.residentByKey
    · rw [if_pos hr, if_neg fun hdrop => hdrop.2 (hmem.mpr hr)]
      rfl
    · rw [if_neg hr, if_pos ⟨hk, fun hs => hr (hmem.mp hs)⟩]
  · rw [if_neg fun hdrop => hk hdrop.1, if_neg hk, if_neg hk]

/-- **Exactly when nothing of a refused put lands.** -/
theorem nothingLanded_iff (cfg : VolumeConfig κ ρ) (store : InMemoryStore κ β τ)
    (v : VolumeService κ β ρ) (p : Put κ τ) (h : PutRaises cfg store v p) :
    NothingLanded cfg store v p ↔ Restorable store v p := by
  have htot := total_refused h
  constructor
  · intro hn
    refine ⟨?_, fun k hk hr => ?_, fun k hk hr => ?_⟩
    · have := hn.total
      omega
    · rw [← hn.values k hk, get?_refused h, if_pos hk, if_pos hr]
    · rw [← Dict.get?_eq_none_iff, ← hn.values k hk, get?_refused h, if_pos hk, if_neg hr]
  · rintro ⟨hsum, hover, hnew⟩
    have hvalues : ∀ k ∈ p.keys, (v.put cfg store p).1.kv.get? k = v.kv.get? k := by
      intro k hk
      rw [get?_refused h, if_pos hk]
      by_cases hr : k ∈ v.residentByKey
      · rw [if_pos hr, hover k hk hr]
      · rw [if_neg hr, (v.kv.get?_eq_none_iff k).mpr (hnew k hk hr)]
    refine ⟨hvalues, fun k hk => ?_, ?_, fun k => ?_⟩
    · rw [resident_refused h, if_neg fun hv => (mem_putVictims hv).2 hk]
    · omega
    · rw [told_eq]
      by_cases hk : k ∈ p.keys
      · rw [if_neg fun hv => (mem_putVictims hv).2 hk]
        exact hvalues k hk
      · rw [get?_refused h, if_neg hk]

end Refused

/-- Five bytes under key 0, and twenty under key 2. -/
def putFiveAndTwenty : Put ℕ (Stored Unit) where
  requests := [⟨0, .obj (.descriptor [5] 1)⟩, ⟨2, .obj (.descriptor [20] 1)⟩]
  keys := [0, 2]
  nodup := by decide
  mem_keys := by simp

/-- Beside another, a key is written with the five bytes it already holds: the put drops
the other for room, is refused, and leaves the key as it was. -/
theorem nothingLanded_again :
    let v := ((tenBytes.fresh.put tenBytes (overwriting ℕ Unit) (putOne 0 5)).1.put tenBytes
      (overwriting ℕ Unit) (putOne 1 4)).1
    v.kv.keys = [0, 1] ∧ (v.put tenBytes (overwriting ℕ Unit) putFiveAndTwenty).2.1 = [1] ∧
      NothingLanded tenBytes (overwriting ℕ Unit) v putFiveAndTwenty := by
  intro v
  refine ⟨by decide +kernel, by decide +kernel, ?_⟩
  have hraises : PutRaises tenBytes (overwriting ℕ Unit) v putFiveAndTwenty := by
    unfold PutRaises
    decide +kernel
  exact (nothingLanded_iff tenBytes (overwriting ℕ Unit) v putFiveAndTwenty hraises).mpr
    ⟨by decide +kernel, by decide +kernel, by decide +kernel⟩

end VolumeService

end Toso.Store
