/-
  Toso.Store.VolumeService — a storage volume and its residency.

  The bodies of `VolumeService`'s endpoints around the store they delegate to:
  `put` with its size accounting, its eviction and its roll-back, and `get`,
  `touch`, `delete`, `delete_batch` and `reset`.  The store itself is a
  parameter (`InMemoryStore`) of which only the key footprint of a put is
  used.  A put that evicts stops at its notification of the directory:
  `beginPut` runs up to that point and `finishPut` from it.

  Main results:
    * `get?_kv_deleteBatch`, `get?_resident_deleteBatch`, `deleteBatch_total`
      — what a deletion leaves; `evict_volume` — an eviction is one.
    * `recordedTotal_update` — the total after a put records its sizes.
    * `beginPut_cases` — everything the first half of a put can do.
    * `settledTotal_eq` — the total a put checks last, from the volume it
      checks it against.
-/
import Toso.Store.Retention
import Toso.Lib.Binary64
import Mathlib.Algebra.Order.Floor.Ring
import Mathlib.Data.Rat.Floor
import Mathlib.Algebra.BigOperators.Group.Finset.Basic

namespace Toso.Store

open Lib

/-! ## §1. What a store holds, and its modeled bytes. -/

/-- A payload the data plane carries. -/
inductive Carrier (β : Type*)
  /-- A real or meta tensor: its contents, `numel()` and `element_size()`. -/
  | tensor (contents : β) (numel elementSize : ℕ)
  /-- A `TensorDescriptor`: a shape and the element size of its dtype. -/
  | descriptor (shape : List ℕ) (elementSize : ℕ)
  /-- Any other object. -/
  | other (contents : β)
  deriving DecidableEq

/-- `TensorDescriptor.numel`. -/
def numel (shape : List ℕ) : ℕ := shape.foldl (· * ·) 1

/-- `_nbytes`: modeled byte count of a payload. -/
def Carrier.nbytes {β : Type*} : Carrier β → ℕ
  | .tensor _ n size => n * size
  | .descriptor shape size => numel shape * size
  | .other _ => 0

/-- A value as `InMemoryStore` stores it. -/
inductive Stored (β : Type*)
  /-- A full tensor, stored as itself. -/
  | full (contents : β) (numel elementSize : ℕ)
  /-- An object, stored as `{"obj": value}`. -/
  | obj (value : Carrier β)
  /-- DTensor shards by coordinates, each with its slice and its tensor. -/
  | shards (parts : List (List ℕ × β × Carrier β))
  deriving DecidableEq

/-- `_stored_nbytes`: modeled bytes of what the store holds under a key. -/
def storedNbytes {β : Type*} : Option (Stored β) → ℕ
  | some (.full c n size) => (Carrier.tensor c n size).nbytes
  | some (.obj value) => value.nbytes
  | some (.shards parts) => (parts.map fun p => p.2.2.nbytes).sum
  | none => 0

/-! ## §2. The store and the arguments of a put. -/

/-- One `Request` of a put: the key it names and what the buffer carries. -/
structure Request (κ τ : Type*) where
  key : κ
  payload : τ

/-- The arguments of one put.  `keys` is the set `{r.key for r in requests}` in
the order Python iterates it. -/
structure Put (κ τ : Type*) where
  requests : List (Request κ τ)
  keys : List κ
  nodup : keys.Nodup
  mem_keys : ∀ k, k ∈ keys ↔ k ∈ requests.map Request.key

/-- The backing `InMemoryStore`: what its `put` makes of the held values.  It
writes under every key the requests name and under no other. -/
structure InMemoryStore (κ β τ : Type*) [DecidableEq κ] where
  land : Dict κ (Stored β) → List (Request κ τ) → Dict κ (Stored β)
  land_frame : ∀ kv rs k, k ∉ rs.map Request.key → (land kv rs).get? k = kv.get? k
  land_mem : ∀ kv rs k, k ∈ rs.map Request.key → k ∈ land kv rs

/-- The store that keeps the last payload written under each key. -/
def overwriting (κ β : Type*) [DecidableEq κ] : InMemoryStore κ β (Stored β) where
  land kv rs := rs.foldl (fun kv r => kv.set r.key r.payload) kv
  land_frame kv rs := by
    induction rs generalizing kv with
    | nil => intro k _; rfl
    | cons r rs ih =>
        intro k hk
        simp only [List.map_cons, List.mem_cons, not_or] at hk
        rw [List.foldl_cons, ih _ k hk.2, Dict.get?_set_ne _ _ (Ne.symm hk.1)]
  land_mem kv rs := by
    have hkeep : ∀ (rs : List (Request κ (Stored β))) (kv : Dict κ (Stored β)) k,
        k ∈ kv → k ∈ rs.foldl (fun kv r => kv.set r.key r.payload) kv := by
      intro rs
      induction rs with
      | nil => intro kv k hk; exact hk
      | cons r rs ih => intro kv k hk; exact ih _ k (by simp [hk])
    induction rs generalizing kv with
    | nil => intro k hk; simp at hk
    | cons r rs ih =>
        intro k hk
        rcases List.mem_cons.mp hk with rfl | hrest
        · exact hkeep rs _ _ (by simp)
        · exact ih _ k hrest

/-! ## §3. The volume. -/

/-- What a volume is built with: its directory identity, its byte capacity
(`none` is `math.inf`), its ranking, and whether it holds a handle to the
directory. -/
structure VolumeConfig (κ ρ : Type*) where
  volumeId : String
  capacityBytes : Option ℚ
  capacity_nonneg : ∀ c ∈ capacityBytes, 0 ≤ c
  controller : Bool
  retention : Retention κ ρ

/-- The state of a `VolumeService`; `kv` is `self.store.kv`. -/
structure VolumeService (κ β ρ : Type*) where
  kv : Dict κ (Stored β)
  residentByKey : Dict κ ℕ
  residentBytes : ℤ
  peakResidentBytes : ℤ
  retention : ρ

/-- `StorageCapacityExceeded`: a `StorageFull` with the numbers attached. -/
structure StorageCapacityExceeded where
  volumeId : String
  capacity : Option ℚ
  resident : ℤ
  attempted : ℤ

/-- The text of the error; `showCapacity` prints the capacity's float. -/
def StorageCapacityExceeded.message (e : StorageCapacityExceeded)
    (showCapacity : Option ℚ → String) : String :=
  "storage volume '" ++ e.volumeId ++ "' over capacity: resident "
    ++ toString e.resident ++ "B + put " ++ toString e.attempted ++ "B = "
    ++ toString (e.resident + e.attempted) ++ "B exceeds capacity "
    ++ showCapacity e.capacity ++ "B"

variable {κ β ρ τ : Type*}

/-- A fresh volume over a fresh store. -/
def VolumeConfig.fresh (cfg : VolumeConfig κ ρ) : VolumeService κ β ρ where
  kv := Dict.empty
  residentByKey := Dict.empty
  residentBytes := 0
  peakResidentBytes := 0
  retention := cfg.retention.fresh

/-- `projected > self.capacity_bytes`. -/
def VolumeConfig.Exceeds (cfg : VolumeConfig κ ρ) (projected : ℤ) : Prop :=
  ∃ c ∈ cfg.capacityBytes, c < (projected : ℚ)

instance (cfg : VolumeConfig κ ρ) (n : ℤ) : Decidable (cfg.Exceeds n) :=
  inferInstanceAs (Decidable (∃ c ∈ cfg.capacityBytes, c < (n : ℚ)))

/-- `int(projected - self.capacity_bytes)`: a float subtraction, so the total
becomes a float first. -/
def VolumeConfig.need (cfg : VolumeConfig κ ρ) (projected : ℤ) : ℤ :=
  match cfg.capacityBytes with
  | some c => Binary64.truncate (Binary64.sub (Binary64.round projected) c)
  | none => 0

namespace VolumeService

variable [DecidableEq κ]

/-- `_resident_by_key.get(key, 0)`. -/
def recorded (v : VolumeService κ β ρ) (key : κ) : ℤ := v.residentByKey.getD key 0

/-- `_forget`. -/
def forget (cfg : VolumeConfig κ ρ) (v : VolumeService κ β ρ) (key : κ) :
    VolumeService κ β ρ :=
  { v with
    residentBytes := v.residentBytes - v.recorded key
    residentByKey := v.residentByKey.erase key
    retention := cfg.retention.forget key v.retention }

/-- `_use`: one note per key, with the bytes it now occupies. -/
def use (cfg : VolumeConfig κ ρ) (v : VolumeService κ β ρ) (keys : List κ) :
    VolumeService κ β ρ :=
  { v with
    retention := keys.foldl
      (fun r key => cfg.retention.note key (v.residentByKey.get? key) r) v.retention }

/-- `get`: every requested key counts as used. -/
def get (cfg : VolumeConfig κ ρ) (v : VolumeService κ β ρ) (keys : List κ) :
    VolumeService κ β ρ :=
  v.use cfg keys

/-- `touch`: only the keys this volume records count as used. -/
def touch (cfg : VolumeConfig κ ρ) (v : VolumeService κ β ρ) (keys : List κ) :
    VolumeService κ β ρ :=
  v.use cfg (keys.filter (· ∈ v.residentByKey))

/-- `delete`. -/
def delete (cfg : VolumeConfig κ ρ) (v : VolumeService κ β ρ) (key : κ) :
    VolumeService κ β ρ :=
  { v with kv := v.kv.erase key }.forget cfg key

/-- `delete_batch`: the store drops every key, then each one is forgotten. -/
def deleteBatch (cfg : VolumeConfig κ ρ) (v : VolumeService κ β ρ) (keys : List κ) :
    VolumeService κ β ρ :=
  keys.foldl (forget cfg) { v with kv := keys.foldl Dict.erase v.kv }

/-- `reset`; the peak is a run-lifetime mark and stays. -/
def reset (cfg : VolumeConfig κ ρ) (v : VolumeService κ β ρ) : VolumeService κ β ρ :=
  { v with
    kv := Dict.empty
    residentByKey := Dict.empty
    residentBytes := 0
    retention := (cfg.retention.held v.retention).foldl
      (fun r key => cfg.retention.forget key r) v.retention }

/-! ## §4. A put, up to and after its notification. -/

/-- The locals a put keeps across its suspension. -/
structure Frame (κ : Type*) where
  keys : List κ
  newByKey : Dict κ ℕ
  projected : ℤ

/-- `new_by_key`: sized from what landed. -/
def newByKey (v : VolumeService κ β ρ) (p : Put κ τ) : Dict κ ℕ :=
  Dict.ofKeys p.keys p.nodup fun k => storedNbytes (v.kv.get? k)

/-- `projected`: the total if every new size replaced the recorded one. -/
def projectedTotal (v : VolumeService κ β ρ) (sizes : Dict κ ℕ) : ℤ :=
  v.residentBytes + sizes.sumBy fun key nbytes => (nbytes : ℤ) - v.recorded key

/-- The eviction loop of `_ask_for_room`: each victim goes through `delete`, and
its recorded bytes come off the projection. -/
def evict (cfg : VolumeConfig κ ρ) :
    List κ → VolumeService κ β ρ → ℤ → VolumeService κ β ρ × ℤ
  | [], v, projected => (v, projected)
  | key :: rest, v, projected =>
      evict cfg rest (v.delete cfg key) (projected - v.recorded key)

/-- The victims of `_ask_for_room`: what the ranking names, less what is not
recorded; none at all with nobody to tell. -/
def victims (cfg : VolumeConfig κ ρ) (v : VolumeService κ β ρ) (projected : ℤ)
    (incoming : List κ) : List κ :=
  if cfg.controller then
    (cfg.retention.victims (cfg.need projected) incoming v.retention).filter
      (· ∈ v.residentByKey)
  else []

/-- The roll-back of a refused put: only keys without a recorded size go. -/
def rollBack (v : VolumeService κ β ρ) (keys : List κ) : VolumeService κ β ρ :=
  { v with
    kv := keys.foldl
      (fun kv key => if key ∈ v.residentByKey then kv else kv.erase key) v.kv }

/-- The sizes a put records, and the total it writes back. -/
def record (cfg : VolumeConfig κ ρ) (v : VolumeService κ β ρ) (f : Frame κ) :
    VolumeService κ β ρ :=
  let w := { v with residentByKey := v.residentByKey.update f.newByKey }.use cfg f.keys
  { w with
    residentBytes := f.projected
    peakResidentBytes := max v.peakResidentBytes f.projected }

/-- A put from its last check on: refuse and roll back, or record. -/
def finishPut (cfg : VolumeConfig κ ρ) (v : VolumeService κ β ρ) (f : Frame κ) :
    VolumeService κ β ρ × Option StorageCapacityExceeded :=
  if cfg.Exceeds f.projected then
    (v.rollBack f.keys,
      some ⟨cfg.volumeId, cfg.capacityBytes, v.residentBytes,
        f.projected - v.residentBytes⟩)
  else (v.record cfg f, none)

/-- The store after the real put ran. -/
def landed (store : InMemoryStore κ β τ) (v : VolumeService κ β ρ) (p : Put κ τ) :
    VolumeService κ β ρ :=
  { v with kv := store.land v.kv p.requests }

/-- The locals of a put once its sizes are known, before any eviction. -/
def framed (store : InMemoryStore κ β τ) (v : VolumeService κ β ρ) (p : Put κ τ) :
    Frame κ :=
  let w := v.landed store p
  ⟨p.keys, w.newByKey p, w.projectedTotal (w.newByKey p)⟩

/-- The keys a put evicts. -/
def putVictims (cfg : VolumeConfig κ ρ) (store : InMemoryStore κ β τ)
    (v : VolumeService κ β ρ) (p : Put κ τ) : List κ :=
  if cfg.Exceeds (v.framed store p).projected then
    (v.landed store p).victims cfg (v.framed store p).projected p.keys
  else []

/-- What the first half of a put ends in. -/
inductive Begun (κ β ρ : Type*)
  /-- It ran through, recorded or refused. -/
  | done (v : VolumeService κ β ρ) (exc : Option StorageCapacityExceeded)
  /-- It evicted, and waits for the directory to hear of the victims. -/
  | notifying (v : VolumeService κ β ρ) (frame : Frame κ) (victims : List κ)

/-- `put` up to its first suspension. -/
def beginPut (cfg : VolumeConfig κ ρ) (store : InMemoryStore κ β τ)
    (v : VolumeService κ β ρ) (p : Put κ τ) : Begun κ β ρ :=
  let f := v.framed store p
  match v.putVictims cfg store p with
  | [] =>
      let r := (v.landed store p).finishPut cfg f
      .done r.1 r.2
  | victims =>
      let e := evict cfg victims (v.landed store p) f.projected
      .notifying e.1 { f with projected := e.2 } victims

/-- `put` with nothing else running: the volume it leaves, the keys it told the
directory of, and its exception if it raises. -/
def put (cfg : VolumeConfig κ ρ) (store : InMemoryStore κ β τ)
    (v : VolumeService κ β ρ) (p : Put κ τ) :
    VolumeService κ β ρ × List κ × Option StorageCapacityExceeded :=
  match v.beginPut cfg store p with
  | .done w exc => (w, [], exc)
  | .notifying w f victims =>
      let r := w.finishPut cfg f
      (r.1, victims, r.2)

/-! ## §5. What each endpoint leaves, field by field. -/

section Fields

variable (cfg : VolumeConfig κ ρ) (v : VolumeService κ β ρ)

@[simp] theorem rollBack_residentByKey (ks : List κ) :
    (v.rollBack ks).residentByKey = v.residentByKey := rfl

@[simp] theorem record_residentByKey (f : Frame κ) :
    (v.record cfg f).residentByKey = v.residentByKey.update f.newByKey := rfl

end Fields

/-- The roll-back erases exactly the named keys without a recorded size. -/
theorem get?_rollBack (v : VolumeService κ β ρ) (x : κ) (ks : List κ) :
    (v.rollBack ks).kv.get? x
      = if x ∈ ks ∧ x ∉ v.residentByKey then none else v.kv.get? x := by
  have key : ∀ (ks : List κ) (kv : Dict κ (Stored β)),
      (ks.foldl (fun kv key => if key ∈ v.residentByKey then kv else kv.erase key) kv).get? x
        = if x ∈ ks ∧ x ∉ v.residentByKey then none else kv.get? x := by
    intro ks
    induction ks with
    | nil => intro kv; simp
    | cons k ks ih =>
        intro kv
        rw [List.foldl_cons, ih]
        by_cases hk : k ∈ v.residentByKey
        · by_cases hkx : x = k
          · subst hkx
            simp [hk]
          · simp [hk, hkx]
        · by_cases hkx : x = k
          · subst hkx
            simp [hk]
          · simp [hk, hkx, Dict.get?_erase, Ne.symm hkx]
  exact key ks v.kv

/-! ## §6. Removals and the running total. -/

/-- The sum of the recorded sizes. -/
def recordedTotal (v : VolumeService κ β ρ) : ℤ :=
  v.residentByKey.sumBy fun _ nbytes => (nbytes : ℤ)

theorem recorded_eq_termAt (v : VolumeService κ β ρ) (k : κ) :
    v.residentByKey.termAt (fun _ n => (n : ℤ)) k = v.recorded k := by
  unfold Dict.termAt recorded Dict.getD
  cases v.residentByKey.get? k <;> rfl

/-- Forgetting a key moves the running total and the sum together. -/
theorem forget_total (cfg : VolumeConfig κ ρ) (v : VolumeService κ β ρ) (k : κ) :
    (v.forget cfg k).recordedTotal - (v.forget cfg k).residentBytes
      = v.recordedTotal - v.residentBytes := by
  have hsum := v.residentByKey.sumBy_erase (fun _ n => (n : ℤ)) k
  rw [recorded_eq_termAt] at hsum
  show (v.residentByKey.erase k).sumBy (fun _ n => (n : ℤ)) - (v.residentBytes - v.recorded k)
    = v.residentByKey.sumBy (fun _ n => (n : ℤ)) - v.residentBytes
  omega

/-- Deleting one by one is deleting the batch. -/
theorem deleteBatch_cons (cfg : VolumeConfig κ ρ) (v : VolumeService κ β ρ) (k : κ)
    (ks : List κ) : v.deleteBatch cfg (k :: ks) = (v.delete cfg k).deleteBatch cfg ks :=
  rfl

/-- The eviction loop is a deletion of its victims. -/
theorem evict_volume (cfg : VolumeConfig κ ρ) (ks : List κ) :
    ∀ (v : VolumeService κ β ρ) (n : ℤ), (evict cfg ks v n).1 = v.deleteBatch cfg ks := by
  induction ks with
  | nil => intro v n; rfl
  | cons k ks ih =>
      intro v n
      unfold evict
      rw [ih, deleteBatch_cons]

/-- The projection falls by exactly what the running total falls by. -/
theorem evict_projected (cfg : VolumeConfig κ ρ) (ks : List κ) :
    ∀ (v : VolumeService κ β ρ) (n : ℤ),
      (evict cfg ks v n).2 - (v.deleteBatch cfg ks).residentBytes
        = n - v.residentBytes := by
  induction ks with
  | nil => intro v n; rfl
  | cons k ks ih =>
      intro v n
      unfold evict
      rw [deleteBatch_cons, ih]
      show n - v.recorded k - (v.residentBytes - v.recorded k) = _
      omega

theorem deleteBatch_total (cfg : VolumeConfig κ ρ) (ks : List κ) :
    ∀ v : VolumeService κ β ρ,
      (v.deleteBatch cfg ks).recordedTotal - (v.deleteBatch cfg ks).residentBytes
        = v.recordedTotal - v.residentBytes := by
  induction ks with
  | nil => intro v; rfl
  | cons k ks ih =>
      intro v
      rw [deleteBatch_cons, ih]
      exact forget_total cfg { v with kv := v.kv.erase k } k

/-- A read of the store after a deletion. -/
theorem get?_kv_deleteBatch (cfg : VolumeConfig κ ρ) (x : κ) (ks : List κ) :
    ∀ v : VolumeService κ β ρ,
      (v.deleteBatch cfg ks).kv.get? x = if x ∈ ks then none else v.kv.get? x := by
  induction ks with
  | nil => intro v; simp [deleteBatch]
  | cons k ks ih =>
      intro v
      rw [deleteBatch_cons, ih]
      show (if x ∈ ks then none else (v.kv.erase k).get? x) = _
      by_cases hx : x ∈ ks
      · simp [hx]
      · by_cases hk : x = k
        · simp [hk]
        · simp [hx, hk, Dict.get?_erase, Ne.symm hk]

/-- A read of the recorded sizes after a deletion. -/
theorem get?_resident_deleteBatch (cfg : VolumeConfig κ ρ) (x : κ) (ks : List κ) :
    ∀ v : VolumeService κ β ρ,
      (v.deleteBatch cfg ks).residentByKey.get? x
        = if x ∈ ks then none else v.residentByKey.get? x := by
  induction ks with
  | nil => intro v; simp [deleteBatch]
  | cons k ks ih =>
      intro v
      rw [deleteBatch_cons, ih]
      show (if x ∈ ks then none else (v.residentByKey.erase k).get? x) = _
      by_cases hx : x ∈ ks
      · simp [hx]
      · by_cases hk : x = k
        · simp [hk]
        · simp [hx, hk, Dict.get?_erase, Ne.symm hk]

/-- The accounting of a deletion does not look at the store. -/
theorem deleteBatch_congr (cfg : VolumeConfig κ ρ) (ks : List κ) :
    ∀ v w : VolumeService κ β ρ, w.residentByKey = v.residentByKey →
      w.residentBytes = v.residentBytes →
      (w.deleteBatch cfg ks).residentByKey = (v.deleteBatch cfg ks).residentByKey ∧
      (w.deleteBatch cfg ks).residentBytes = (v.deleteBatch cfg ks).residentBytes := by
  induction ks with
  | nil => intro v w hres hbytes; exact ⟨hres, hbytes⟩
  | cons k ks ih =>
      intro v w hres hbytes
      rw [deleteBatch_cons, deleteBatch_cons]
      apply ih
      · show w.residentByKey.erase k = v.residentByKey.erase k
        rw [hres]
      · show w.residentBytes - w.recorded k = v.residentBytes - v.recorded k
        unfold recorded
        rw [hres, hbytes]

theorem mem_kv_deleteBatch (cfg : VolumeConfig κ ρ) (v : VolumeService κ β ρ)
    (x : κ) (ks : List κ) : x ∈ (v.deleteBatch cfg ks).kv ↔ x ∉ ks ∧ x ∈ v.kv := by
  simp only [Dict.mem_iff, get?_kv_deleteBatch]
  by_cases hx : x ∈ ks <;> simp [hx]

theorem mem_resident_deleteBatch (cfg : VolumeConfig κ ρ) (v : VolumeService κ β ρ)
    (x : κ) (ks : List κ) :
    x ∈ (v.deleteBatch cfg ks).residentByKey ↔ x ∉ ks ∧ x ∈ v.residentByKey := by
  simp only [Dict.mem_iff, get?_resident_deleteBatch]
  by_cases hx : x ∈ ks <;> simp [hx]

theorem recorded_nonneg (v : VolumeService κ β ρ) (k : κ) : 0 ≤ v.recorded k :=
  Int.natCast_nonneg _

theorem recorded_deleteBatch (cfg : VolumeConfig κ ρ) (v : VolumeService κ β ρ)
    {x : κ} {ks : List κ} (hx : x ∉ ks) :
    (v.deleteBatch cfg ks).recorded x = v.recorded x := by
  unfold recorded Dict.getD
  rw [get?_resident_deleteBatch, if_neg hx]

theorem deleteBatch_le (cfg : VolumeConfig κ ρ) (ks : List κ) :
    ∀ v : VolumeService κ β ρ,
      (v.deleteBatch cfg ks).residentBytes ≤ v.residentBytes := by
  induction ks with
  | nil => intro v; exact le_refl _
  | cons k ks ih =>
      intro v
      have hk := v.recorded_nonneg k
      have hrest := ih (v.delete cfg k)
      have hone : (v.delete cfg k).residentBytes = v.residentBytes - v.recorded k := rfl
      rw [deleteBatch_cons]
      omega

/-- Deleting keys of no recorded size leaves the running total alone. -/
theorem deleteBatch_weightless (cfg : VolumeConfig κ ρ) (ks : List κ) :
    ∀ v : VolumeService κ β ρ, (∀ k ∈ ks, v.recorded k = 0) →
      (v.deleteBatch cfg ks).residentBytes = v.residentBytes := by
  induction ks with
  | nil => intro v _; rfl
  | cons k ks ih =>
      intro v h
      have hone : (v.delete cfg k).residentBytes = v.residentBytes - v.recorded k := rfl
      have hrest : ∀ x ∈ ks, (v.delete cfg k).recorded x = 0 := by
        intro x hx
        by_cases hxk : x = k
        · subst hxk
          show ((v.residentByKey.erase x).getD x 0 : ℤ) = 0
          simp [Dict.getD]
        · have hkeep : (v.deleteBatch cfg [k]).recorded x = v.recorded x :=
            v.recorded_deleteBatch cfg (by simpa using hxk)
          rw [← h x (List.mem_cons_of_mem _ hx), ← hkeep]
          rfl
      rw [deleteBatch_cons, ih _ hrest, hone, h k List.mem_cons_self]
      omega

/-- What recording `sizes` would add to the total. -/
def sizeChange (v : VolumeService κ β ρ) (sizes : Dict κ ℕ) : ℤ :=
  sizes.sumBy fun key nbytes => (nbytes : ℤ) - v.recorded key

/-- **The total after a put records its sizes.** -/
theorem recordedTotal_update (v : VolumeService κ β ρ) (sizes : Dict κ ℕ) :
    (v.residentByKey.update sizes).sumBy (fun _ n => (n : ℤ))
      = v.recordedTotal + v.sizeChange sizes := by
  have hsum := v.residentByKey.sumBy_update sizes fun _ n => (n : ℤ)
  have hsplit : v.sizeChange sizes + sizes.sumBy (fun k _ => v.recorded k)
      = sizes.sumBy fun _ n => (n : ℤ) := by
    unfold sizeChange Dict.sumBy
    rw [← List.sum_map_add]
    congr 1
    apply List.map_congr_left
    intro e _
    exact sub_add_cancel _ _
  simp only [recorded_eq_termAt] at hsum
  unfold recordedTotal
  omega

/-- Only the recorded sizes of the keys named enter the change. -/
theorem sizeChange_congr {v w : VolumeService κ β ρ} {sizes : Dict κ ℕ}
    (h : ∀ k ∈ sizes, w.recorded k = v.recorded k) :
    w.sizeChange sizes = v.sizeChange sizes := by
  apply Dict.sumBy_congr
  intro k n hk
  rw [h k (Dict.mem_of_get? hk)]

/-! ## §7. The first half of a put, case by case. -/

theorem mem_putVictims {cfg : VolumeConfig κ ρ} {store : InMemoryStore κ β τ}
    {v : VolumeService κ β ρ} {p : Put κ τ} {k : κ}
    (h : k ∈ v.putVictims cfg store p) : k ∈ v.residentByKey ∧ k ∉ p.keys := by
  unfold putVictims at h
  split at h
  · unfold victims at h
    split at h
    · simp only [List.mem_filter, decide_eq_true_eq] at h
      exact ⟨h.2, cfg.retention.victims_spares _ _ _ _ h.1⟩
    · simp at h
  · simp at h

/-- The projection a put checks last: after what it evicts. -/
def settledTotal (cfg : VolumeConfig κ ρ) (store : InMemoryStore κ β τ)
    (v : VolumeService κ β ρ) (p : Put κ τ) : ℤ :=
  (evict cfg (v.putVictims cfg store p) (v.landed store p)
    (v.framed store p).projected).2

/-- The volume a put checks last against. -/
def settledVolume (cfg : VolumeConfig κ ρ) (store : InMemoryStore κ β τ)
    (v : VolumeService κ β ρ) (p : Put κ τ) : VolumeService κ β ρ :=
  (v.landed store p).deleteBatch cfg (v.putVictims cfg store p)

/-- The locals a put checks last with. -/
def settledFrame (cfg : VolumeConfig κ ρ) (store : InMemoryStore κ β τ)
    (v : VolumeService κ β ρ) (p : Put κ τ) : Frame κ :=
  { v.framed store p with projected := v.settledTotal cfg store p }

/-- What a read sees once the real put ran and the victims are gone. -/
theorem get?_kv_settled (cfg : VolumeConfig κ ρ) (store : InMemoryStore κ β τ)
    (v : VolumeService κ β ρ) (p : Put κ τ) (k : κ) :
    (v.settledVolume cfg store p).kv.get? k
      = if k ∈ v.putVictims cfg store p then none
        else if k ∈ p.keys then (v.landed store p).kv.get? k
        else v.kv.get? k := by
  unfold settledVolume
  rw [get?_kv_deleteBatch]
  by_cases hv : k ∈ v.putVictims cfg store p
  · rw [if_pos hv, if_pos hv]
  · rw [if_neg hv, if_neg hv]
    by_cases hk : k ∈ p.keys
    · rw [if_pos hk]
    · rw [if_neg hk]
      exact store.land_frame _ _ _ fun h => hk ((p.mem_keys k).mpr h)

/-- A named key is in the store the put checks against. -/
theorem mem_kv_settled {cfg : VolumeConfig κ ρ} {store : InMemoryStore κ β τ}
    {v : VolumeService κ β ρ} {p : Put κ τ} {k : κ} (hk : k ∈ p.keys) :
    k ∈ (v.settledVolume cfg store p).kv :=
  (mem_kv_deleteBatch cfg _ k _).mpr
    ⟨fun hv => (mem_putVictims hv).2 hk, store.land_mem _ _ _ ((p.mem_keys k).mp hk)⟩

theorem get?_resident_settled (cfg : VolumeConfig κ ρ) (store : InMemoryStore κ β τ)
    (v : VolumeService κ β ρ) (p : Put κ τ) (k : κ) :
    (v.settledVolume cfg store p).residentByKey.get? k
      = if k ∈ v.putVictims cfg store p then none else v.residentByKey.get? k :=
  get?_resident_deleteBatch cfg k _ _

theorem get?_newByKey (v : VolumeService κ β ρ) (p : Put κ τ) (k : κ) :
    (v.newByKey p).get? k
      = if k ∈ p.keys then some (storedNbytes (v.kv.get? k)) else none :=
  Dict.get?_ofKeys _ _ _ _

theorem mem_newByKey {v : VolumeService κ β ρ} {p : Put κ τ} {k : κ} :
    k ∈ v.newByKey p ↔ k ∈ p.keys :=
  Dict.mem_ofKeys _ _ _ _

/-- The total a put checks last is the running total of the volume it checks it
against, plus the change its own sizes make there. -/
theorem settledTotal_eq (cfg : VolumeConfig κ ρ) (store : InMemoryStore κ β τ)
    (v : VolumeService κ β ρ) (p : Put κ τ) :
    v.settledTotal cfg store p
      = (v.settledVolume cfg store p).residentBytes
        + (v.settledVolume cfg store p).sizeChange (v.framed store p).newByKey := by
  have hfall := evict_projected cfg (v.putVictims cfg store p) (v.landed store p)
    (v.framed store p).projected
  have hsame : (v.settledVolume cfg store p).sizeChange (v.framed store p).newByKey
      = (v.landed store p).sizeChange (v.framed store p).newByKey := by
    apply sizeChange_congr
    intro k hk
    exact recorded_deleteBatch cfg _ fun hv => (mem_putVictims hv).2 (mem_newByKey.mp hk)
  have hproj : (v.framed store p).projected
      = (v.landed store p).residentBytes
        + (v.landed store p).sizeChange (v.framed store p).newByKey := rfl
  rw [hsame]
  unfold settledTotal settledVolume
  omega

/-- **Everything the first half of a put can do**: with nothing to evict it runs
through, otherwise it evicts and waits. -/
theorem beginPut_cases (cfg : VolumeConfig κ ρ) (store : InMemoryStore κ β τ)
    (v : VolumeService κ β ρ) (p : Put κ τ) :
    (v.putVictims cfg store p = [] ∧
      v.beginPut cfg store p
        = .done ((v.settledVolume cfg store p).finishPut cfg (v.settledFrame cfg store p)).1
            ((v.settledVolume cfg store p).finishPut cfg (v.settledFrame cfg store p)).2) ∨
    (v.putVictims cfg store p ≠ [] ∧
      v.beginPut cfg store p
        = .notifying (v.settledVolume cfg store p) (v.settledFrame cfg store p)
            (v.putVictims cfg store p)) := by
  unfold beginPut settledFrame settledVolume settledTotal
  cases hv : v.putVictims cfg store p with
  | nil => exact .inl ⟨rfl, rfl⟩
  | cons k ks => exact .inr ⟨by simp, by simp only [evict_volume]⟩

/-- A whole put, with nothing else running. -/
theorem put_eq (cfg : VolumeConfig κ ρ) (store : InMemoryStore κ β τ)
    (v : VolumeService κ β ρ) (p : Put κ τ) :
    v.put cfg store p
      = (((v.settledVolume cfg store p).finishPut cfg (v.settledFrame cfg store p)).1,
          v.putVictims cfg store p,
          ((v.settledVolume cfg store p).finishPut cfg (v.settledFrame cfg store p)).2) := by
  unfold put
  rcases v.beginPut_cases cfg store p with ⟨hv, hb⟩ | ⟨_, hb⟩
  · rw [hb, hv]
  · rw [hb]

end VolumeService

end Toso.Store
