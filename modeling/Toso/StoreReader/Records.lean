/-
  Toso.StoreReader.Records — what the aggregator reads of a store, and its rows.

  The controller names the keys and where they are, a volume the shape and type
  behind a key; `gather_state` reads them once, and every response is made of
  rows over what was read.  Of the store only these answers are kept: the keys,
  the located volumes, the hostnames and `get_meta`, which may raise.

  Byte counts are exact; a sum that added no float is an integer.

  Main results:
    * `Number.value_sum` — a sum of byte counts, as a number.
    * `nodup_gatherState` — no key is recorded twice.
    * `children_eq`, `members_perm` — the rows one level below a prefix, and that
      their members are the records below it.
-/
import Toso.Lib.Grouping
import Toso.StoreReader.Json
import Mathlib.Data.List.Sort

namespace Toso.StoreReader

open Lib

/-! ## §1. Numbers. -/

/-- A number of the response: an int or a finite float. -/
inductive Number
  | int (n : ℤ)
  | float (q : ℚ)
  deriving DecidableEq

namespace Number

/-- What it counts. -/
def value : Number → ℚ
  | int n => n
  | float q => q

/-- `a + b`. -/
def add : Number → Number → Number
  | int m, int n => int (m + n)
  | int m, float q => float (m + q)
  | float p, int n => float (p + n)
  | float p, float q => float (p + q)

/-- `sum(…)`, from the integer zero. -/
def sum (l : List Number) : Number := l.foldl add (int 0)

theorem value_add (a b : Number) : (a.add b).value = a.value + b.value := by
  cases a <;> cases b <;> simp [add, value]

/-- **A sum counts** what its terms count together. -/
theorem value_sum (l : List Number) : (sum l).value = (l.map value).sum := by
  have hfrom : ∀ start : Number, (l.foldl add start).value = start.value + (l.map value).sum := by
    induction l with
    | nil => intro start; simp
    | cons a l ih =>
        intro start
        rw [List.foldl_cons, ih, value_add, List.map_cons, List.sum_cons, add_assoc]
  show (l.foldl add (int 0)).value = _
  rw [hfrom]
  show ((0 : ℤ) : ℚ) + _ = _
  rw [Int.cast_zero, zero_add]

end Number

/-! ## §2. The store. -/

/-- `ObjectType`. -/
inductive ObjectType
  | object
  | tensor
  | tensorSlice
  deriving DecidableEq

/-- `_OBJECT_TYPE_TAG`. -/
def ObjectType.tag : ObjectType → Text
  | object => text "OBJECT"
  | tensor => text "TENSOR"
  | tensorSlice => text "TENSOR_SLICE"

/-- `TensorSlice`: where a shard sits, and its size. -/
structure TensorSlice where
  coordinates : List ℤ
  offsets : List ℤ
  localShape : List ℤ
  meshShape : List ℤ
  deriving DecidableEq

/-- `StorageInfo`. -/
structure StorageInfo where
  objectType : ObjectType
  tensorSlices : List (Option TensorSlice)

/-- A `torch.dtype`: its name without `torch.`, and its element size. -/
structure DType where
  name : Text
  itemsize : ℕ

/-- What `get_meta` answers for one request. -/
inductive Meta
  | obj
  | sized (size : List ℤ) (dtype : DType)

/-- A `get_meta` request. -/
inductive MetaRequest
  | fromAny (key : Text)
  | fromTensorSlice (key : Text) (slice : TensorSlice)

/-- The controller's answers. -/
structure Controller where
  keys : List Text
  locateVolumes : Text → Dict Text StorageInfo

/-- The strategy's answers; `getMeta` is `none` where fetching raises. -/
structure Strategy where
  volumeIdToHostname : Dict Text Text
  getMeta : Text → MetaRequest → Option Meta

/-! ## §3. Records. -/

/-- One row of `shards`. -/
structure Shard where
  volumeId : Text
  coordinates : List ℤ
  offsets : List ℤ
  localShape : List ℤ
  deriving DecidableEq

/-- `_KeyRecord`. -/
structure KeyRecord where
  key : Text
  objectType : ObjectType
  dtype : Option Text
  globalShape : Option (List ℤ)
  meshShape : Option (List ℤ)
  fullyCommitted : Bool
  shards : List Shard
  bytes : ℚ
  volumeIds : List Text
  deriving DecidableEq

/-- What is read of an object. -/
def objectAt (key : String) : KeyRecord :=
  ⟨text key, .object, none, none, none, true, [], 0, []⟩

/-- `product(*(range(dim) for dim in mesh_shape))`. -/
def meshCoordinates : List ℤ → List (List ℤ)
  | [] => [[]]
  | dim :: rest => (List.range dim.toNat).flatMap fun i =>
      (meshCoordinates rest).map fun tail => (i : ℤ) :: tail

/-- `_is_fully_committed`: of a sharded tensor, every mesh coordinate is there;
the mesh is that of the last slice met. -/
def isFullyCommitted (objectType : ObjectType) (volumeMap : Dict Text StorageInfo) : Bool :=
  if objectType ≠ .tensorSlice then true
  else
    let slices := (volumeMap.values.flatMap StorageInfo.tensorSlices).filterMap id
    match slices.getLast? with
    | none => true
    | some last =>
        (slices.map TensorSlice.coordinates).toFinset = (meshCoordinates last.meshShape).toFinset

/-- `_pick_meta_request`. -/
def pickMetaRequest (key : Text) (objectType : ObjectType) (info : StorageInfo) : MetaRequest :=
  if objectType = .tensorSlice then
    match info.tensorSlices.filterMap id with
    | [] => .fromAny key
    | slice :: _ => .fromTensorSlice key slice
  else .fromAny key

/-- `_shards_for_key`. -/
def shardsForKey (objectType : ObjectType) (volumeMap : Dict Text StorageInfo)
    (localShape : Option (List ℤ)) : List Shard :=
  match objectType with
  | .object => []
  | .tensor => volumeMap.keys.map fun volumeId => ⟨volumeId, [], [], localShape.getD []⟩
  | .tensorSlice => volumeMap.entries.flatMap fun entry =>
      (entry.2.tensorSlices.filterMap id).map fun slice =>
        ⟨entry.1, slice.coordinates, slice.offsets, slice.localShape⟩

/-- `_key_meta`: shape, dtype and bytes; `none` where it raises. -/
def keyMeta (strategy : Strategy) (key : Text) (objectType : ObjectType) (volumeId : Text)
    (info : StorageInfo) : Option (Option (List ℤ) × Option Text × ℚ) :=
  (strategy.getMeta volumeId (pickMetaRequest key objectType info)).map fun answer =>
    match answer with
    | .obj => (none, none, 0)
    | .sized shape dtype => (some shape, some dtype.name,
        if shape = [] then 0 else ((shape.prod * dtype.itemsize : ℤ) : ℚ))

/-- One turn of `_collect_keys`: a key without located volumes, or that raced, is
skipped. -/
def collectKey (strategy : Strategy) (key : Text) (volumeMap : Dict Text StorageInfo) :
    Option KeyRecord :=
  match volumeMap.entries with
  | [] => none
  | (volumeId, info) :: _ =>
      (keyMeta strategy key info.objectType volumeId info).map fun (shape, dtype, nbytes) =>
        { key := key
          objectType := info.objectType
          dtype := dtype
          globalShape := if info.objectType = .tensorSlice then shape else none
          meshShape := none
          fullyCommitted := isFullyCommitted info.objectType volumeMap
          shards := shardsForKey info.objectType volumeMap shape
          bytes := nbytes
          volumeIds := volumeMap.keys }

/-- `_collect_keys`. -/
def collectKeys (strategy : Strategy) (allKeys : List Text)
    (volumeMaps : Text → Dict Text StorageInfo) : List KeyRecord :=
  allKeys.filterMap fun key => collectKey strategy key (volumeMaps key)

/-! ## §4. Rows. -/

/-- `key_entry`. -/
structure KeyEntry where
  key : Text
  objectType : ObjectType
  dtype : Option Text
  globalShape : Option (List ℤ)
  fullyCommitted : Bool
  meshShape : Option (List ℤ)
  shards : List Shard
  deriving DecidableEq

def KeyRecord.keyEntry (r : KeyRecord) : KeyEntry :=
  ⟨r.key, r.objectType, r.dtype, r.globalShape, r.fullyCommitted, r.meshShape, r.shards⟩

/-- A row of one prefix: what lives under it. -/
structure KeyPrefix where
  keyPrefix : Text
  keys : ℕ
  objects : ℕ
  tensors : ℕ
  dtensors : ℕ
  partialCount : ℕ
  bytes : Number
  isLeaf : Bool
  deriving DecidableEq

/-- A sharded tensor that is not fully committed. -/
def KeyRecord.isPartial (r : KeyRecord) : Bool :=
  r.objectType = .tensorSlice && !r.fullyCommitted

/-- `sum(m.bytes for m in members)`. -/
def bytesOf (members : List KeyRecord) : Number :=
  Number.sum (members.map fun m => .float m.bytes)

/-- `_prefix_entry`. -/
def prefixEntry (child : Text) (members : List KeyRecord) : KeyPrefix where
  keyPrefix := child
  keys := members.length
  objects := members.countP fun m => m.objectType = .object
  tensors := members.countP fun m => m.objectType = .tensor
  dtensors := members.countP fun m => m.objectType = .tensorSlice
  partialCount := members.countP KeyRecord.isPartial
  bytes := bytesOf members
  isLeaf := members.length = 1 && (members.head?.map KeyRecord.key) = some child

def dot : CodePoint := codePoint '.'

/-- `parent_dot`. -/
def parentDot (parent : Text) : Text := if parent = [] then [] else parent ++ [dot]

/-- The child one level below `parent` that a key lives under. -/
def childOf (parent : Text) (r : KeyRecord) : Text :=
  parentDot parent ++ (r.key.drop (parentDot parent).length).takeWhile (· ≠ dot)

/-- The records below `parent`. -/
def below (records : List KeyRecord) (parent : Text) : List KeyRecord :=
  records.filter fun r => parent = [] ∨ parentDot parent <+: r.key

/-- `_children`: the rows one trie level below `parent`, sorted by prefix. -/
def children (records : List KeyRecord) (parent : Text) : List KeyPrefix :=
  ((groupBy (childOf parent) (below records parent)).entries.insertionSort
    fun a b => a.1 ≤ b.1).map fun group => prefixEntry group.1 group.2

/-- The rows before they are made, each with its members. -/
def grouped (records : List KeyRecord) (parent : Text) : List (Text × List KeyRecord) :=
  (groupBy (childOf parent) (below records parent)).entries.insertionSort fun a b => a.1 ≤ b.1

theorem children_eq (records : List KeyRecord) (parent : Text) :
    children records parent
      = (grouped records parent).map fun group => prefixEntry group.1 group.2 := rfl

/-- **The members of the rows** are the records below the parent. -/
theorem members_perm (records : List KeyRecord) (parent : Text) :
    ((grouped records parent).map Prod.snd).flatten.Perm (below records parent) :=
  groupBy_perm _ _ (List.perm_insertionSort _ _)

theorem mem_grouped {records : List KeyRecord} {parent child : Text} {members : List KeyRecord} :
    (child, members) ∈ grouped records parent ↔
      (∃ r ∈ below records parent, childOf parent r = child) ∧
        members = (below records parent).filter (childOf parent · = child) := by
  unfold grouped
  rw [(List.perm_insertionSort _ _).mem_iff, ← Dict.get?_eq_some_iff, groupBy_get?,
    List.mem_map]

/-- A row of one volume; its transport is null and it counts as reachable. -/
structure Volume where
  volumeId : Text
  hostname : Text
  numKeys : ℕ
  bytes : Number
  deriving DecidableEq

/-- The records on each volume. -/
def perVolume (records : List KeyRecord) : Dict Text (List (Text × KeyRecord)) :=
  groupBy Prod.fst (records.flatMap fun r => r.volumeIds.map fun volumeId => (volumeId, r))

/-- `_build_volumes`, the rows. -/
def buildVolumes (strategy : Strategy) (records : List KeyRecord) : List Volume :=
  strategy.volumeIdToHostname.entries.map fun (volumeId, hostname) =>
    let members := ((perVolume records).getD volumeId []).map Prod.snd
    ⟨volumeId, hostname, members.length, bytesOf members⟩

/-- `_build_volumes`, the rows grouped by host. -/
def volumeGroups (volumes : List Volume) : Dict Text (List Volume) :=
  groupBy (fun v => text "host:" ++ v.hostname) volumes

/-- `StoreState`. -/
structure StoreState where
  records : List KeyRecord
  volumes : List Volume
  groups : Dict Text (List Volume)

/-- `gather_state`. -/
def gatherState (controller : Controller) (strategy : Strategy) : StoreState :=
  let records := collectKeys strategy (controller.keys.insertionSort (· ≤ ·))
    controller.locateVolumes
  let volumes := buildVolumes strategy records
  ⟨records, volumes, volumeGroups volumes⟩

theorem key_of_collectKey {strategy : Strategy} {key : Text} {volumeMap : Dict Text StorageInfo}
    {r : KeyRecord} (h : collectKey strategy key volumeMap = some r) : r.key = key := by
  unfold collectKey at h
  split at h
  · cases h
  · obtain ⟨answer, _, rfl⟩ := Option.map_eq_some_iff.mp h
    rfl

/-- **No key is recorded twice.** -/
theorem nodup_gatherState {controller : Controller} (strategy : Strategy)
    (h : controller.keys.Nodup) :
    ((gatherState controller strategy).records.map KeyRecord.key).Nodup := by
  have hsub : ∀ keys : List Text,
      ((collectKeys strategy keys controller.locateVolumes).map KeyRecord.key).Sublist keys := by
    intro keys
    induction keys with
    | nil => exact List.Sublist.refl _
    | cons key keys ih =>
        unfold collectKeys
        rw [List.filterMap_cons]
        cases hr : collectKey strategy key (controller.locateVolumes key) with
        | none => exact ih.cons key
        | some r =>
            show (r.key :: List.map KeyRecord.key _).Sublist _
            rw [key_of_collectKey hr]
            exact ih.cons_cons key
  exact ((List.perm_insertionSort _ _).nodup_iff.mpr h).sublist (hsub _)

/-! ## §5. The summary. -/

/-- `totals`. -/
structure Totals where
  volumes : ℕ
  keys : ℕ
  bytes : Number
  partialDtensors : ℕ

/-- A row of `volume_groups`; its `transports` are empty. -/
structure VolumeGroup where
  group : Text
  volumes : ℕ
  keys : ℕ
  bytes : Number
  reachable : ℕ

/-- The `summary` response. -/
structure Summary where
  schemaVersion : ℕ
  capturedAt : Text
  storeName : Text
  strategy : Text
  totals : Totals
  volumeGroups : List VolumeGroup
  keyPrefixes : List KeyPrefix
  shardCommitPct : List (ℕ × ℕ)

/-- One row of `volume_groups`. -/
def volumeGroup (group : Text) (volumes : List Volume) : VolumeGroup where
  group := group
  volumes := volumes.length
  keys := (volumes.map Volume.numKeys).sum
  bytes := Number.sum (volumes.map Volume.bytes)
  reachable := volumes.length

/-- `SCHEMA_VERSION`. -/
def schemaVersion : ℕ := 1

/-- `build_summary_dict`, at the instant `capturedAt`. -/
def buildSummaryDict (capturedAt storeName strategyName : Text) (records : List KeyRecord)
    (volumes : List Volume) (groups : Dict Text (List Volume)) : Summary :=
  let partialCount := records.countP KeyRecord.isPartial
  let committed := records.length - partialCount
  { schemaVersion := schemaVersion
    capturedAt := capturedAt
    storeName := storeName
    strategy := strategyName
    totals := ⟨volumes.length, records.length, bytesOf records, partialCount⟩
    volumeGroups := (groups.entries.insertionSort fun a b => a.1 ≤ b.1).map fun group =>
      volumeGroup group.1 group.2
    keyPrefixes := children records []
    shardCommitPct := (if committed = 0 then [] else [(100, committed)])
      ++ if partialCount = 0 then [] else [(0, partialCount)] }

end Toso.StoreReader
