/-
  Toso.Tui.Contract — what the aggregator writes is what the terminal UI reads.

  Of each response type: when a value of the builder and a value of the reader are
  the same, field by field; which values fit the reader's fields; and that exactly
  these are carried.  Counts and sizes have to fit unsigned fields, texts have to
  be without surrogates, and a peeked float has to be a number.

  Main results:
    * `carries_keyEntry`, `carries_keyPrefix`, `carries_volume` — rows.
    * `carries_match` — a search row, as the kind it was built from.
    * `carries_summary`, `carries_page`, `carries_peek` — responses.
-/
import Toso.StoreReader.Wire
import Toso.Tui.Model

namespace Toso.Contract

open Lib Lib.Wire StoreReader

/-! ## §1. Documents of dictionaries. -/

/-- A dictionary of distinct names is written as a record. -/
theorem record_dict (fields : List (String × Json)) (h : (fields.map Prod.fst).Nodup) :
    Record (Json.dict fields).dumps (fields.map fun f => (f.1, f.2.dumps)) where
  written := Json.dumps_dict fields
  nodup := by
    rw [List.map_map]
    exact h

@[simp] theorem standard_dict (fields : List (String × Json)) :
    (Json.dict fields).dumps.standard = true ↔ ∀ f ∈ fields, f.2.dumps.standard = true := by
  rw [Json.dumps_dict, Written.standard_obj]
  unfold named
  rw [List.forall_mem_map, List.forall_mem_map]

@[simp] theorem standard_arr (items : List Json) :
    (Json.arr items).dumps.standard = true ↔ ∀ item ∈ items, item.dumps.standard = true := by
  rw [Json.dumps_arr, Written.standard_arr]
  simp

@[simp] theorem standard_str (t : Text) : (Json.str t).dumps.standard = true := rfl

@[simp] theorem standard_int (n : ℤ) : (Json.int n).dumps.standard = true := rfl

@[simp] theorem standard_bool (b : Bool) : (Json.bool b).dumps.standard = true := rfl

@[simp] theorem standard_null : Json.null.dumps.standard = true := rfl

@[simp] theorem standard_number (n : Number) : n.json.dumps.standard = true := by
  cases n <;> rfl

@[simp] theorem standard_float (x : PyFloat) :
    (Json.float x).dumps.standard = true ↔ x.Finite := by
  cases x <;> simp [Json.dumps, Written.standard, PyFloat.Finite]

@[simp] theorem standard_ints (l : List ℤ) : (ints l).dumps.standard = true := by
  simp [ints]

@[simp] theorem standard_optional {α : Type} {json : α → Json}
    (h : ∀ a, (json a).dumps.standard = true) (o : Option α) :
    (optional json o).dumps.standard = true := by
  cases o with
  | none => rfl
  | some a => exact h a

/-! ## §2. The same value on both sides. -/

/-- The same text. -/
def Said (t : Text) (s : String) : Prop := SameText (points t) s

/-- Text that a string can hold. -/
def Sayable (t : Text) : Prop := Utf16.Scalar (points t)

/-- The same count. -/
def Counted {w : ℕ} (n : ℕ) (b : BitVec w) : Prop := b.toNat = n

/-- A size that an unsigned integer can hold. -/
def Unsigned (n : ℤ) : Prop := 0 ≤ n ∧ n < 2 ^ 64

def SameObjectType : ObjectType → Tui.Model.ObjectType → Prop
  | .object, t => t = .object
  | .tensor, t => t = .tensor
  | .tensorSlice, t => t = .tensorSlice

structure SameShard (s : Shard) (r : Tui.Model.Shard) : Prop where
  volumeId : Said s.volumeId r.volumeId
  coordinates : List.Forall₂ SameCount s.coordinates r.coordinates
  offsets : List.Forall₂ SameCount s.offsets r.offsets
  localShape : List.Forall₂ SameCount s.localShape r.localShape

structure SameKeyEntry (e : KeyEntry) (r : Tui.Model.KeyEntry) : Prop where
  key : Said e.key r.key
  objectType : SameObjectType e.objectType r.objectType
  dtype : Option.Rel Said e.dtype r.dtype
  globalShape : Option.Rel (List.Forall₂ SameCount) e.globalShape r.globalShape
  fullyCommitted : r.fullyCommitted = e.fullyCommitted
  meshShape : Option.Rel (List.Forall₂ SameCount) e.meshShape r.meshShape
  shards : List.Forall₂ SameShard e.shards r.shards

structure SameKeyPrefix (p : KeyPrefix) (r : Tui.Model.KeyPrefix) : Prop where
  keyPrefix : Said p.keyPrefix r.keyPrefix
  keys : Counted p.keys r.keys
  objects : Option.Rel Counted (some p.objects) r.objects
  tensors : Option.Rel Counted (some p.tensors) r.tensors
  dtensors : Option.Rel Counted (some p.dtensors) r.dtensors
  partialCount : Option.Rel Counted (some p.partialCount) r.partialCount
  bytes : r.bytes = some p.bytes.value
  isLeaf : r.isLeaf = p.isLeaf

/-- A volume has no transport on either side, and is reachable. -/
structure SameVolume (v : Volume) (r : Tui.Model.Volume) : Prop where
  volumeId : Said v.volumeId r.volumeId
  hostname : Said v.hostname r.hostname
  transport : r.transport = none
  numKeys : Counted v.numKeys r.numKeys
  bytes : r.bytes = v.bytes.value
  reachable : r.reachable = true

/-- A search row, of the same kind on both sides. -/
inductive SameMatch : SearchMatch → Tui.Model.SearchMatch → Prop
  | key {e : KeyEntry} {r : Tui.Model.KeyEntry} : SameKeyEntry e r → SameMatch (.key e) (.key r)
  | volume {v : Volume} {r : Tui.Model.Volume} : SameVolume v r → SameMatch (.volume v) (.volume r)

structure SameTotals (t : Totals) (r : Tui.Model.Totals) : Prop where
  volumes : Counted t.volumes r.volumes
  keys : Counted t.keys r.keys
  bytes : r.bytes = t.bytes.value
  partialDtensors : Counted t.partialDtensors r.partialDtensors

/-- A group of volumes; it has no transports on either side. -/
structure SameVolumeGroup (g : VolumeGroup) (r : Tui.Model.VolumeGroup) : Prop where
  group : Said g.group r.group
  volumes : Counted g.volumes r.volumes
  keys : Counted g.keys r.keys
  bytes : r.bytes = g.bytes.value
  transports : r.transports = []
  reachable : Counted g.reachable r.reachable

def SameBucket (b : ℕ × ℕ) (r : Tui.Model.U64 × Tui.Model.U64) : Prop :=
  Counted b.1 r.1 ∧ Counted b.2 r.2

structure SameSummary (s : Summary) (r : Tui.Model.Summary) : Prop where
  schemaVersion : Counted s.schemaVersion r.schemaVersion
  capturedAt : Said s.capturedAt r.capturedAt
  storeName : Said s.storeName r.storeName
  strategy : Said s.strategy r.strategy
  totals : SameTotals s.totals r.totals
  volumeGroups : List.Forall₂ SameVolumeGroup s.volumeGroups r.volumeGroups
  keyPrefixes : List.Forall₂ SameKeyPrefix s.keyPrefixes r.keyPrefixes
  shardCommitPct : List.Forall₂ SameBucket s.shardCommitPct r.histograms.shardCommitPct

structure SamePage {α β : Type} (Same : α → β → Prop) (page : List α × Option Text)
    (r : Tui.Model.Page β) : Prop where
  rows : List.Forall₂ Same page.1 r.rows
  nextCursor : Option.Rel Said page.2 r.nextCursor

/-- A float and a number of its value. -/
def Valued : PyFloat → ℚ → Prop
  | .finite p, q => q = p
  | .nan, _ => False
  | .inf _, _ => False

structure SamePeek (p : Peek) (r : Tui.Model.PeekResult) : Prop where
  dtype : Said p.dtype r.dtype
  shape : List.Forall₂ SameCount p.shape r.shape
  min : Valued p.min r.min
  max : Valued p.max r.max
  mean : Valued p.mean r.mean
  l2Norm : Valued p.l2Norm r.l2Norm
  head : List.Forall₂ Valued p.head r.head

/-! ## §3. Rows. -/

theorem carries_said :
    Carries (fun t : Text => (Json.str t).dumps) string Said Sayable :=
  carries_text.comap points

theorem carries_counted :
    Carries (fun n : ℕ => (Json.int n).dumps) (unsigned 64) Counted (· < 2 ^ 64) :=
  carries_count 64

theorem carries_ints :
    Carries (fun l : List ℤ => (ints l).dumps) (vec (unsigned 64)) (List.Forall₂ SameCount)
      fun l => ∀ n ∈ l, Unsigned n := by
  have hvec := (carries_unsigned 64).vec
  have hwrite : (fun l : List ℤ => (ints l).dumps) = fun l => .arr (l.map Written.int) := by
    funext l
    unfold ints
    rw [Json.dumps_arr, List.map_map]
    rfl
  rw [hwrite]
  exact hvec

theorem carries_bool : Carries (fun b => (Json.bool b).dumps) bool (fun a b => b = a)
    fun _ => True where
  standard _ _ := rfl
  reads b _ := ⟨b, rfl, rfl⟩
  fits _ _ _ := trivial

theorem carries_number : Carries (fun n : Number => n.json.dumps) float (fun n q => q = n.value)
    fun _ => True where
  standard n _ := standard_number n
  reads n _ := by
    cases n with
    | int n => exact ⟨n, rfl, rfl⟩
    | float q => exact ⟨q, rfl, rfl⟩
  fits _ _ _ := trivial

theorem carries_float : Carries (fun x => (Json.float x).dumps) float Valued PyFloat.Finite where
  standard x h := (standard_float x).mpr h
  reads x h := by
    cases x with
    | finite q => exact ⟨q, rfl, rfl⟩
    | nan => exact h.elim
    | inf _ => exact h.elim
  fits x q h := by
    cases x with
    | finite q => trivial
    | nan => exact h.elim
    | inf _ => exact h.elim

theorem carries_objectType :
    Carries (fun t : ObjectType => (Json.str t.tag).dumps) Tui.Model.ObjectType.read SameObjectType
      fun _ => True where
  standard _ _ := rfl
  reads t _ := by
    have hwrite : ∀ s : String,
        (Json.str (text s)).dumps = .str (Utf16.encode (Utf16.ofString s)) := by
      intro s
      rw [← Json.points_text]
      rfl
    unfold Tui.Model.ObjectType.read ObjectType.tag
    cases t <;> rw [hwrite, variant_ofString] <;> exact ⟨_, rfl, rfl⟩
  fits _ _ _ := trivial

/-- A list of rows. -/
theorem carries_rows {α β : Type} {json : α → Json} {read : Reader β} {Same : α → β → Prop}
    {Fits : α → Prop} (h : Carries (fun a => (json a).dumps) read Same Fits) :
    Carries (fun l : List α => (Json.arr (l.map json)).dumps) (vec read) (List.Forall₂ Same)
      fun l => ∀ a ∈ l, Fits a := by
  have hwrite : (fun l : List α => (Json.arr (l.map json)).dumps)
      = fun l => .arr (l.map fun a => (json a).dumps) := by
    funext l
    rw [Json.dumps_arr, List.map_map]
    rfl
  rw [hwrite]
  exact h.vec

/-- A value that may be `None`. -/
theorem carries_optional {α β : Type} {json : α → Json} {read : Reader β} {Same : α → β → Prop}
    {Fits : α → Prop} (h : Carries (fun a => (json a).dumps) read Same Fits)
    (hnull : ∀ a, (json a).dumps ≠ .null) :
    Carries (fun o : Option α => (optional json o).dumps) (option read) (Option.Rel Same)
      fun o => ∀ a ∈ o, Fits a := by
  have hwrite : (fun o : Option α => (optional json o).dumps)
      = fun o => (o.map fun a => (json a).dumps).getD .null := by
    funext o
    cases o <;> rfl
  rw [hwrite]
  exact h.option hnull

structure FitsShard (s : Shard) : Prop where
  volumeId : Sayable s.volumeId
  coordinates : ∀ n ∈ s.coordinates, Unsigned n
  offsets : ∀ n ∈ s.offsets, Unsigned n
  localShape : ∀ n ∈ s.localShape, Unsigned n

theorem carries_shard :
    Carries (fun s : Shard => s.dict.dumps) Tui.Model.Shard.read SameShard FitsShard where
  standard s _ := by simp [Shard.dict]
  reads s h := by
    have hrec : Record s.dict.dumps _ := record_dict _ (by simp)
    obtain ⟨volumeId, hvolumeId, sameId⟩ := carries_said.field hrec "volume_id" 0 rfl h.volumeId
    obtain ⟨coordinates, hcoordinates, sameCoordinates⟩ :=
      carries_ints.field hrec "coordinates" 1 rfl h.coordinates
    obtain ⟨offsets, hoffsets, sameOffsets⟩ := carries_ints.field hrec "offsets" 2 rfl h.offsets
    obtain ⟨localShape, hlocalShape, sameShape⟩ :=
      carries_ints.field hrec "local_shape" 3 rfl h.localShape
    refine ⟨{ volumeId, coordinates, offsets, localShape }, ?_,
      ⟨sameId, sameCoordinates, sameOffsets, sameShape⟩⟩
    rw [hrec.written]
    simp only [Tui.Model.Shard.read, record, hvolumeId, hcoordinates, hoffsets, hlocalShape]
    rfl
  fits s r h :=
    ⟨carries_said.fits _ _ h.volumeId, carries_ints.fits _ _ h.coordinates,
      carries_ints.fits _ _ h.offsets, carries_ints.fits _ _ h.localShape⟩

theorem carries_text? : Carries (fun o : Option Text => (optional .str o).dumps) (option string)
    (Option.Rel Said) fun o => ∀ t ∈ o, Sayable t :=
  carries_optional carries_said fun _ h => nomatch h

theorem carries_ints? : Carries (fun o : Option (List ℤ) => (optional ints o).dumps)
    (option (vec (unsigned 64))) (Option.Rel (List.Forall₂ SameCount))
    fun o => ∀ l ∈ o, ∀ n ∈ l, Unsigned n :=
  carries_optional carries_ints fun _ h => nomatch h

theorem carries_count? : Carries (fun o : Option ℕ => (optional (fun n : ℕ => .int n) o).dumps)
    (option (unsigned 64)) (Option.Rel Counted) fun o => ∀ n ∈ o, n < 2 ^ 64 :=
  carries_optional carries_counted fun _ h => nomatch h

theorem carries_number? : Carries (fun o : Option Number => (optional Number.json o).dumps)
    (option float) (Option.Rel fun n q => q = n.value) fun o => ∀ n ∈ o, True :=
  carries_optional carries_number fun n h => by cases n <;> cases h

structure FitsKeyEntry (e : KeyEntry) : Prop where
  key : Sayable e.key
  dtype : ∀ t ∈ e.dtype, Sayable t
  globalShape : ∀ l ∈ e.globalShape, ∀ n ∈ l, Unsigned n
  meshShape : ∀ l ∈ e.meshShape, ∀ n ∈ l, Unsigned n
  shards : ∀ s ∈ e.shards, FitsShard s

@[simp] theorem standard_shard (s : Shard) : s.dict.dumps.standard = true := by
  simp [Shard.dict]

theorem carries_keyEntry :
    Carries (fun e : KeyEntry => e.dict.dumps) Tui.Model.KeyEntry.read SameKeyEntry FitsKeyEntry where
  standard e _ := by simp [KeyEntry.dict, standard_optional standard_str]
  reads e h := by
    have hrec : Record e.dict.dumps _ := record_dict _ (by simp)
    obtain ⟨key, hkey, sameKey⟩ := carries_said.field hrec "key" 0 rfl h.key
    obtain ⟨objectType, htype, sameType⟩ :=
      carries_objectType.field (a := e.objectType) hrec "object_type" 1 rfl trivial
    obtain ⟨dtype, hdtype, sameDtype⟩ :=
      carries_text?.fieldOr none (a := e.dtype) hrec "dtype" 2 rfl h.dtype
    obtain ⟨globalShape, hglobal, sameGlobal⟩ :=
      carries_ints?.fieldOr none (a := e.globalShape) hrec "global_shape" 3 rfl h.globalShape
    obtain ⟨fullyCommitted, hcommitted, sameCommitted⟩ :=
      carries_bool.field hrec "fully_committed" 4 rfl trivial
    obtain ⟨meshShape, hmesh, sameMesh⟩ :=
      carries_ints?.fieldOr none (a := e.meshShape) hrec "mesh_shape" 5 rfl h.meshShape
    obtain ⟨shards, hshards, sameShards⟩ :=
      (carries_rows carries_shard).fieldOr [] (a := e.shards) hrec "shards" 6 rfl h.shards
    refine ⟨{ key, objectType, dtype, globalShape, fullyCommitted, meshShape, shards }, ?_,
      ⟨sameKey, sameType, sameDtype, sameGlobal, sameCommitted, sameMesh, sameShards⟩⟩
    rw [hrec.written]
    simp only [Tui.Model.KeyEntry.read, record, hkey, htype, hdtype, hglobal, hcommitted, hmesh,
      hshards]
    rfl
  fits e r h :=
    ⟨carries_said.fits _ _ h.key, carries_text?.fits _ _ h.dtype,
      carries_ints?.fits _ _ h.globalShape, carries_ints?.fits _ _ h.meshShape,
      (carries_rows carries_shard).fits _ _ h.shards⟩

structure FitsKeyPrefix (p : KeyPrefix) : Prop where
  keyPrefix : Sayable p.keyPrefix
  keys : p.keys < 2 ^ 64
  objects : p.objects < 2 ^ 64
  tensors : p.tensors < 2 ^ 64
  dtensors : p.dtensors < 2 ^ 64
  partialCount : p.partialCount < 2 ^ 64

theorem carries_keyPrefix : Carries (fun p : KeyPrefix => p.dict.dumps) Tui.Model.KeyPrefix.read
    SameKeyPrefix FitsKeyPrefix where
  standard p _ := by simp [KeyPrefix.dict]
  reads p h := by
    have hrec : Record p.dict.dumps _ := record_dict _ (by simp)
    have hcount : ∀ {n : ℕ}, n < 2 ^ 64 → ∀ m ∈ some n, m < 2 ^ 64 := by
      intro n hn m hm
      cases hm
      exact hn
    obtain ⟨keyPrefix, hprefix, samePrefix⟩ := carries_said.field hrec "prefix" 0 rfl h.keyPrefix
    obtain ⟨keys, hkeys, sameKeys⟩ := carries_counted.field hrec "keys" 1 rfl h.keys
    obtain ⟨objects, hobjects, sameObjects⟩ :=
      carries_count?.fieldOr none (a := some p.objects) hrec "objects" 2 rfl (hcount h.objects)
    obtain ⟨tensors, htensors, sameTensors⟩ :=
      carries_count?.fieldOr none (a := some p.tensors) hrec "tensors" 3 rfl (hcount h.tensors)
    obtain ⟨dtensors, hdtensors, sameDtensors⟩ :=
      carries_count?.fieldOr none (a := some p.dtensors) hrec "dtensors" 4 rfl (hcount h.dtensors)
    obtain ⟨partialCount, hpartial, samePartial⟩ :=
      carries_count?.fieldOr none (a := some p.partialCount) hrec "partial" 5 rfl
        (hcount h.partialCount)
    obtain ⟨bytes, hbytes, sameBytes⟩ :=
      carries_number?.fieldOr none (a := some p.bytes) hrec "bytes" 6 rfl fun _ _ => trivial
    obtain ⟨isLeaf, hleaf, sameLeaf⟩ := carries_bool.fieldOr false hrec "is_leaf" 7 rfl trivial
    refine ⟨{ keyPrefix, keys, objects, tensors, dtensors, partialCount, bytes, isLeaf }, ?_,
      ⟨samePrefix, sameKeys, sameObjects, sameTensors, sameDtensors, samePartial, ?_, sameLeaf⟩⟩
    · rw [hrec.written]
      simp only [Tui.Model.KeyPrefix.read, record, hprefix, hkeys, hobjects, htensors, hdtensors,
        hpartial, hbytes, hleaf]
      rfl
    · cases sameBytes with
      | some hvalue => exact congrArg some hvalue
  fits p r h :=
    ⟨carries_said.fits _ _ h.keyPrefix, carries_counted.fits _ _ h.keys,
      carries_count?.fits _ _ h.objects _ rfl, carries_count?.fits _ _ h.tensors _ rfl,
      carries_count?.fits _ _ h.dtensors _ rfl, carries_count?.fits _ _ h.partialCount _ rfl⟩

structure FitsVolume (v : Volume) : Prop where
  volumeId : Sayable v.volumeId
  hostname : Sayable v.hostname
  numKeys : v.numKeys < 2 ^ 64

theorem carries_volume :
    Carries (fun v : Volume => v.dict.dumps) Tui.Model.Volume.read SameVolume FitsVolume where
  standard v _ := by simp [Volume.dict]
  reads v h := by
    have hrec : Record v.dict.dumps _ := record_dict _ (by simp)
    obtain ⟨volumeId, hvolumeId, sameId⟩ := carries_said.field hrec "volume_id" 0 rfl h.volumeId
    obtain ⟨hostname, hhostname, sameHostname⟩ :=
      carries_said.field hrec "hostname" 1 rfl h.hostname
    obtain ⟨transport, htransport, sameTransport⟩ :=
      carries_text?.fieldOr none (a := none) hrec "transport" 2 rfl fun _ h => nomatch h
    obtain ⟨numKeys, hnumKeys, sameKeys⟩ := carries_counted.field hrec "num_keys" 3 rfl h.numKeys
    obtain ⟨bytes, hbytes, sameBytes⟩ :=
      carries_number.field (a := v.bytes) hrec "bytes" 4 rfl trivial
    obtain ⟨reachable, hreachable, sameReachable⟩ :=
      carries_bool.field hrec "reachable" 5 rfl trivial
    refine ⟨{ volumeId, hostname, transport, numKeys, bytes, reachable }, ?_,
      ⟨sameId, sameHostname, ?_, sameKeys, sameBytes, sameReachable⟩⟩
    · rw [hrec.written]
      simp only [Tui.Model.Volume.read, record, hvolumeId, hhostname, htransport, hnumKeys, hbytes,
        hreachable]
      rfl
    · cases sameTransport
      rfl
  fits v r h :=
    ⟨carries_said.fits _ _ h.volumeId, carries_said.fits _ _ h.hostname,
      carries_counted.fits _ _ h.numKeys⟩

/-- A volume's row has no `key`. -/
theorem read_volume_as_key (v : Volume) : Tui.Model.KeyEntry.read v.dict.dumps = none := by
  have hdumps : v.dict.dumps = _ := Json.dumps_dict _
  rw [hdumps]
  unfold Tui.Model.KeyEntry.read record
  dsimp only
  rw [field_absent]
  · rfl
  · simp

def FitsMatch : SearchMatch → Prop
  | .key e => FitsKeyEntry e
  | .volume v => FitsVolume v

/-- **A search row** is read as the kind it was built from. -/
theorem carries_match : Carries (fun m : SearchMatch => m.dict.dumps) Tui.Model.SearchMatch.read
    SameMatch FitsMatch where
  standard m h := by
    cases m with
    | key e => exact carries_keyEntry.standard e h
    | volume v => exact carries_volume.standard v h
  reads m h := by
    cases m with
    | key e =>
        obtain ⟨r, hread, hsame⟩ := carries_keyEntry.reads e h
        refine ⟨.key r, ?_, .key hsame⟩
        show Tui.Model.SearchMatch.read e.dict.dumps = _
        unfold Tui.Model.SearchMatch.read
        rw [hread]
    | volume v =>
        obtain ⟨r, hread, hsame⟩ := carries_volume.reads v h
        refine ⟨.volume r, ?_, .volume hsame⟩
        show Tui.Model.SearchMatch.read v.dict.dumps = _
        unfold Tui.Model.SearchMatch.read
        rw [read_volume_as_key, hread]
        rfl
  fits m r h := by
    cases h with
    | key h => exact carries_keyEntry.fits _ _ h
    | volume h => exact carries_volume.fits _ _ h

/-! ## §4. Responses. -/

structure FitsTotals (t : Totals) : Prop where
  volumes : t.volumes < 2 ^ 64
  keys : t.keys < 2 ^ 64
  partialDtensors : t.partialDtensors < 2 ^ 64

theorem carries_totals :
    Carries (fun t : Totals => t.dict.dumps) Tui.Model.Totals.read SameTotals FitsTotals where
  standard t _ := by simp [Totals.dict]
  reads t h := by
    have hrec : Record t.dict.dumps _ := record_dict _ (by simp)
    obtain ⟨volumes, hvolumes, sameVolumes⟩ := carries_counted.field hrec "volumes" 0 rfl h.volumes
    obtain ⟨keys, hkeys, sameKeys⟩ := carries_counted.field hrec "keys" 1 rfl h.keys
    obtain ⟨bytes, hbytes, sameBytes⟩ :=
      carries_number.field (a := t.bytes) hrec "bytes" 2 rfl trivial
    obtain ⟨partialDtensors, hpartial, samePartial⟩ :=
      carries_counted.field hrec "partial_dtensors" 3 rfl h.partialDtensors
    refine ⟨{ volumes, keys, bytes, partialDtensors }, ?_,
      ⟨sameVolumes, sameKeys, sameBytes, samePartial⟩⟩
    rw [hrec.written]
    simp only [Tui.Model.Totals.read, record, hvolumes, hkeys, hbytes, hpartial]
    rfl
  fits t r h :=
    ⟨carries_counted.fits _ _ h.volumes, carries_counted.fits _ _ h.keys,
      carries_counted.fits _ _ h.partialDtensors⟩

structure FitsVolumeGroup (g : VolumeGroup) : Prop where
  group : Sayable g.group
  volumes : g.volumes < 2 ^ 64
  keys : g.keys < 2 ^ 64
  reachable : g.reachable < 2 ^ 64

/-- No transports are counted. -/
theorem carries_transports : Carries (fun _ : Unit => (Json.dict []).dumps)
    (entries (unsigned 64)) (fun _ r => r = []) fun _ => True where
  standard _ _ := rfl
  reads _ _ := ⟨[], rfl, rfl⟩
  fits _ _ _ := trivial

theorem carries_volumeGroup : Carries (fun g : VolumeGroup => g.dict.dumps)
    Tui.Model.VolumeGroup.read SameVolumeGroup FitsVolumeGroup where
  standard g _ := by simp [VolumeGroup.dict]
  reads g h := by
    have hrec : Record g.dict.dumps _ := record_dict _ (by simp)
    obtain ⟨group, hgroup, sameGroup⟩ := carries_said.field hrec "group" 0 rfl h.group
    obtain ⟨volumes, hvolumes, sameVolumes⟩ := carries_counted.field hrec "volumes" 1 rfl h.volumes
    obtain ⟨keys, hkeys, sameKeys⟩ := carries_counted.field hrec "keys" 2 rfl h.keys
    obtain ⟨bytes, hbytes, sameBytes⟩ :=
      carries_number.field (a := g.bytes) hrec "bytes" 3 rfl trivial
    obtain ⟨transports, htransports, sameTransports⟩ :=
      carries_transports.field (a := ()) hrec "transports" 4 rfl trivial
    obtain ⟨reachable, hreachable, sameReachable⟩ :=
      carries_counted.field hrec "reachable" 5 rfl h.reachable
    refine ⟨{ group, volumes, keys, bytes, transports, reachable }, ?_,
      ⟨sameGroup, sameVolumes, sameKeys, sameBytes, sameTransports, sameReachable⟩⟩
    rw [hrec.written]
    simp only [Tui.Model.VolumeGroup.read, record, hgroup, hvolumes, hkeys, hbytes, htransports,
      hreachable]
    rfl
  fits g r h :=
    ⟨carries_said.fits _ _ h.group, carries_counted.fits _ _ h.volumes,
      carries_counted.fits _ _ h.keys, carries_counted.fits _ _ h.reachable⟩

def FitsBucket (b : ℕ × ℕ) : Prop := b.1 < 2 ^ 64 ∧ b.2 < 2 ^ 64

theorem carries_bucket : Carries (fun b => (bucketJson b).dumps) (pair (unsigned 64)) SameBucket
    FitsBucket where
  standard b _ := rfl
  reads b h := by
    obtain ⟨bucket, hbucket, sameBucket⟩ := carries_counted.reads b.1 h.1
    obtain ⟨count, hcount, sameCount⟩ := carries_counted.reads b.2 h.2
    refine ⟨(bucket, count), ?_, sameBucket, sameCount⟩
    show (do return (← unsigned 64 (Json.int b.1).dumps, ← unsigned 64 (Json.int b.2).dumps)) = _
    rw [hbucket, hcount]
    rfl
  fits b r h := ⟨carries_counted.fits _ _ h.1, carries_counted.fits _ _ h.2⟩

theorem carries_histograms :
    Carries (fun l => (Json.dict [("shard_commit_pct", .arr (l.map bucketJson))]).dumps)
      Tui.Model.Histograms.read (fun l r => List.Forall₂ SameBucket l r.shardCommitPct)
      fun l => ∀ b ∈ l, FitsBucket b where
  standard l h := by
    have hbuckets := (carries_rows carries_bucket).standard _ h
    rw [standard_dict]
    simp only [List.forall_mem_cons]
    exact ⟨hbuckets, fun _ h => nomatch h⟩
  reads l h := by
    have hrec : Record (Json.dict [("shard_commit_pct", .arr (l.map bucketJson))]).dumps _ :=
      record_dict _ (by simp)
    obtain ⟨shardCommitPct, hpct, samePct⟩ :=
      (carries_rows carries_bucket).fieldOr [] (a := l) hrec "shard_commit_pct" 0 rfl h
    refine ⟨{ shardCommitPct }, ?_, samePct⟩
    rw [hrec.written]
    simp only [Tui.Model.Histograms.read, record, hpct]
    rfl
  fits l r h := (carries_rows carries_bucket).fits _ _ h

structure FitsSummary (s : Summary) : Prop where
  schemaVersion : s.schemaVersion < 2 ^ 32
  capturedAt : Sayable s.capturedAt
  storeName : Sayable s.storeName
  strategy : Sayable s.strategy
  totals : FitsTotals s.totals
  volumeGroups : ∀ g ∈ s.volumeGroups, FitsVolumeGroup g
  keyPrefixes : ∀ p ∈ s.keyPrefixes, FitsKeyPrefix p
  shardCommitPct : ∀ b ∈ s.shardCommitPct, FitsBucket b

theorem carries_summary :
    Carries (fun s : Summary => s.dict.dumps) Tui.Model.Summary.read SameSummary FitsSummary where
  standard s h := by
    have hgroups := (carries_rows carries_volumeGroup).standard _ h.volumeGroups
    have hprefixes := (carries_rows carries_keyPrefix).standard _ h.keyPrefixes
    have hbuckets := carries_histograms.standard _ h.shardCommitPct
    have htotals := carries_totals.standard _ h.totals
    unfold Summary.dict
    rw [standard_dict]
    simp only [List.forall_mem_cons]
    exact ⟨rfl, rfl, rfl, rfl, htotals, hgroups, hprefixes, hbuckets, fun _ h => nomatch h⟩
  reads s h := by
    have hrec : Record s.dict.dumps _ := record_dict _ (by simp)
    obtain ⟨schemaVersion, hschema, sameSchema⟩ :=
      (carries_count 32).field (a := s.schemaVersion) hrec "schema_version" 0 rfl h.schemaVersion
    obtain ⟨capturedAt, hcaptured, sameCaptured⟩ :=
      carries_said.field hrec "captured_at" 1 rfl h.capturedAt
    obtain ⟨storeName, hstore, sameStore⟩ := carries_said.field hrec "store_name" 2 rfl h.storeName
    obtain ⟨strategy, hstrategy, sameStrategy⟩ :=
      carries_said.field hrec "strategy" 3 rfl h.strategy
    obtain ⟨totals, htotals, sameTotals⟩ :=
      carries_totals.field (a := s.totals) hrec "totals" 4 rfl h.totals
    obtain ⟨volumeGroups, hgroups, sameGroups⟩ :=
      (carries_rows carries_volumeGroup).field (a := s.volumeGroups) hrec "volume_groups" 5 rfl
        h.volumeGroups
    obtain ⟨keyPrefixes, hprefixes, samePrefixes⟩ :=
      (carries_rows carries_keyPrefix).field (a := s.keyPrefixes) hrec "key_prefixes" 6 rfl
        h.keyPrefixes
    obtain ⟨histograms, hhistograms, sameHistograms⟩ :=
      carries_histograms.fieldOr ⟨[]⟩ (a := s.shardCommitPct) hrec "histograms" 7 rfl
        h.shardCommitPct
    refine ⟨{ schemaVersion, capturedAt, storeName, strategy, totals, volumeGroups, keyPrefixes,
              histograms }, ?_,
      ⟨sameSchema, sameCaptured, sameStore, sameStrategy, sameTotals, sameGroups, samePrefixes,
        sameHistograms⟩⟩
    rw [hrec.written]
    simp only [Tui.Model.Summary.read, record, hschema, hcaptured, hstore, hstrategy, htotals, hgroups,
      hprefixes, hhistograms]
    rfl
  fits s r h :=
    ⟨(carries_count 32).fits _ _ h.schemaVersion, carries_said.fits _ _ h.capturedAt,
      carries_said.fits _ _ h.storeName, carries_said.fits _ _ h.strategy,
      carries_totals.fits _ _ h.totals, (carries_rows carries_volumeGroup).fits _ _ h.volumeGroups,
      (carries_rows carries_keyPrefix).fits _ _ h.keyPrefixes,
      carries_histograms.fits _ _ h.shardCommitPct⟩

/-- A page of rows that fit, under their name. -/
structure FitsPage {α : Type} (Fits : α → Prop) (page : List α × Option Text) : Prop where
  rows : ∀ a ∈ page.1, Fits a
  nextCursor : ∀ t ∈ page.2, Sayable t

theorem carries_page {α β : Type} {name : String} {json : α → Json} {read : Reader β}
    {Same : α → β → Prop} {Fits : α → Prop} (hname : name ≠ "next_cursor")
    (h : Carries (fun a => (json a).dumps) read Same Fits) :
    Carries (fun page => (pageDict name json page).dumps) (Tui.Model.Page.read name read)
      (SamePage Same) (FitsPage Fits) where
  standard page hpage := by
    have hrows := (carries_rows h).standard _ hpage.rows
    unfold pageDict
    rw [standard_dict]
    simp only [List.forall_mem_cons]
    exact ⟨hrows, standard_optional standard_str _, fun _ h => nomatch h⟩
  reads page hpage := by
    have hrec : Record (pageDict name json page).dumps _ := record_dict _ (by simpa using hname)
    obtain ⟨rows, hrows, sameRows⟩ :=
      (carries_rows h).field (a := page.1) hrec name 0 rfl hpage.rows
    obtain ⟨nextCursor, hnext, sameNext⟩ :=
      carries_text?.fieldOr none (a := page.2) hrec "next_cursor" 1 rfl hpage.nextCursor
    refine ⟨{ rows, nextCursor }, ?_, ⟨sameRows, sameNext⟩⟩
    rw [hrec.written]
    simp only [Tui.Model.Page.read, record, hrows, hnext]
    rfl
  fits page r hsame :=
    ⟨(carries_rows h).fits _ _ hsame.rows, carries_text?.fits _ _ hsame.nextCursor⟩

structure FitsPeek (p : Peek) : Prop where
  dtype : Sayable p.dtype
  shape : ∀ n ∈ p.shape, Unsigned n
  min : p.min.Finite
  max : p.max.Finite
  mean : p.mean.Finite
  l2Norm : p.l2Norm.Finite
  head : ∀ x ∈ p.head, x.Finite

theorem carries_peek :
    Carries (fun p : Peek => p.dict.dumps) Tui.Model.PeekResult.read SamePeek FitsPeek where
  standard p h := by
    unfold Peek.dict
    rw [standard_dict]
    simpa using ⟨h.min, h.max, h.mean, h.l2Norm, h.head⟩
  reads p h := by
    have hrec : Record p.dict.dumps _ := record_dict _ (by simp)
    obtain ⟨dtype, hdtype, sameDtype⟩ := carries_said.field hrec "dtype" 0 rfl h.dtype
    obtain ⟨shape, hshape, sameShape⟩ := carries_ints.field hrec "shape" 1 rfl h.shape
    obtain ⟨min, hmin, sameMin⟩ := carries_float.field (a := p.min) hrec "min" 2 rfl h.min
    obtain ⟨max, hmax, sameMax⟩ := carries_float.field (a := p.max) hrec "max" 3 rfl h.max
    obtain ⟨mean, hmean, sameMean⟩ := carries_float.field (a := p.mean) hrec "mean" 4 rfl h.mean
    obtain ⟨l2Norm, hnorm, sameNorm⟩ :=
      carries_float.field (a := p.l2Norm) hrec "l2_norm" 5 rfl h.l2Norm
    obtain ⟨head, hhead, sameHead⟩ :=
      (carries_rows carries_float).field (a := p.head) hrec "head" 6 rfl h.head
    refine ⟨{ dtype, shape, min, max, mean, l2Norm, head }, ?_,
      ⟨sameDtype, sameShape, sameMin, sameMax, sameMean, sameNorm, sameHead⟩⟩
    rw [hrec.written]
    simp only [Tui.Model.PeekResult.read, record, hdtype, hshape, hmin, hmax, hmean, hnorm, hhead]
    rfl
  fits p r h :=
    ⟨carries_said.fits _ _ h.dtype, carries_ints.fits _ _ h.shape, carries_float.fits _ _ h.min,
      carries_float.fits _ _ h.max, carries_float.fits _ _ h.mean,
      carries_float.fits _ _ h.l2Norm, (carries_rows carries_float).fits _ _ h.head⟩

end Toso.Contract
