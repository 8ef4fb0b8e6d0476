/-
  Toso.Tui.Model — the response types of the terminal UI, and how each is read.

  A type is read as its derived deserializer reads it: a field by its name, one
  with a default may be missing, an optional one may be null, and names it does
  not know are skipped.  A search match is the first of its variants that reads.
-/
import Toso.Lib.Wire

namespace Toso.Tui.Model

open Lib Lib.Wire

/-! ## §1. Keys and volumes. -/

abbrev U32 := BitVec 32

abbrev U64 := BitVec 64

/-- The object kind of a key, in `SCREAMING_SNAKE_CASE`. -/
inductive ObjectType
  | object
  | tensor
  | tensorSlice
  deriving DecidableEq

def ObjectType.read : Reader ObjectType :=
  variant [("OBJECT", .object), ("TENSOR", .tensor), ("TENSOR_SLICE", .tensorSlice)]

structure KeyPrefix where
  keyPrefix : String
  keys : U64
  objects : Option U64
  tensors : Option U64
  dtensors : Option U64
  partialCount : Option U64
  bytes : Option ℚ
  isLeaf : Bool

def KeyPrefix.read : Reader KeyPrefix := record fun fields => do
  let keyPrefix ← field "prefix" string fields
  let keys ← field "keys" (unsigned 64) fields
  let objects ← fieldOr none "objects" (option (unsigned 64)) fields
  let tensors ← fieldOr none "tensors" (option (unsigned 64)) fields
  let dtensors ← fieldOr none "dtensors" (option (unsigned 64)) fields
  let partialCount ← fieldOr none "partial" (option (unsigned 64)) fields
  let bytes ← fieldOr none "bytes" (option float) fields
  let isLeaf ← fieldOr false "is_leaf" bool fields
  return { keyPrefix, keys, objects, tensors, dtensors, partialCount, bytes, isLeaf }

structure Volume where
  volumeId : String
  hostname : String
  transport : Option String
  numKeys : U64
  bytes : ℚ
  reachable : Bool

def Volume.read : Reader Volume := record fun fields => do
  let volumeId ← field "volume_id" string fields
  let hostname ← field "hostname" string fields
  let transport ← fieldOr none "transport" (option string) fields
  let numKeys ← field "num_keys" (unsigned 64) fields
  let bytes ← field "bytes" float fields
  let reachable ← field "reachable" bool fields
  return { volumeId, hostname, transport, numKeys, bytes, reachable }

structure Shard where
  volumeId : String
  coordinates : List U64
  offsets : List U64
  localShape : List U64

def Shard.read : Reader Shard := record fun fields => do
  let volumeId ← field "volume_id" string fields
  let coordinates ← field "coordinates" (vec (unsigned 64)) fields
  let offsets ← field "offsets" (vec (unsigned 64)) fields
  let localShape ← field "local_shape" (vec (unsigned 64)) fields
  return { volumeId, coordinates, offsets, localShape }

structure KeyEntry where
  key : String
  objectType : ObjectType
  dtype : Option String
  globalShape : Option (List U64)
  fullyCommitted : Bool
  meshShape : Option (List U64)
  shards : List Shard

def KeyEntry.read : Reader KeyEntry := record fun fields => do
  let key ← field "key" string fields
  let objectType ← field "object_type" ObjectType.read fields
  let dtype ← fieldOr none "dtype" (option string) fields
  let globalShape ← fieldOr none "global_shape" (option (vec (unsigned 64))) fields
  let fullyCommitted ← field "fully_committed" bool fields
  let meshShape ← fieldOr none "mesh_shape" (option (vec (unsigned 64))) fields
  let shards ← fieldOr [] "shards" (vec Shard.read) fields
  return { key, objectType, dtype, globalShape, fullyCommitted, meshShape, shards }

/-- One search hit, untagged. -/
inductive SearchMatch
  | key (entry : KeyEntry)
  | volume (v : Volume)

def SearchMatch.read : Reader SearchMatch := fun written =>
  match KeyEntry.read written with
  | some entry => some (.key entry)
  | none => (Volume.read written).map .volume

/-! ## §2. Responses. -/

structure Totals where
  volumes : U64
  keys : U64
  bytes : ℚ
  partialDtensors : U64

def Totals.read : Reader Totals := record fun fields => do
  let volumes ← field "volumes" (unsigned 64) fields
  let keys ← field "keys" (unsigned 64) fields
  let bytes ← field "bytes" float fields
  let partialDtensors ← field "partial_dtensors" (unsigned 64) fields
  return { volumes, keys, bytes, partialDtensors }

structure VolumeGroup where
  group : String
  volumes : U64
  keys : U64
  bytes : ℚ
  transports : List (String × U64)
  reachable : U64

def VolumeGroup.read : Reader VolumeGroup := record fun fields => do
  let group ← field "group" string fields
  let volumes ← field "volumes" (unsigned 64) fields
  let keys ← field "keys" (unsigned 64) fields
  let bytes ← field "bytes" float fields
  let transports ← field "transports" (entries (unsigned 64)) fields
  let reachable ← field "reachable" (unsigned 64) fields
  return { group, volumes, keys, bytes, transports, reachable }

structure Histograms where
  shardCommitPct : List (U64 × U64)

def Histograms.read : Reader Histograms := record fun fields => do
  let shardCommitPct ← fieldOr [] "shard_commit_pct" (vec (pair (unsigned 64))) fields
  return { shardCommitPct }

structure Summary where
  schemaVersion : U32
  capturedAt : String
  storeName : String
  strategy : String
  totals : Totals
  volumeGroups : List VolumeGroup
  keyPrefixes : List KeyPrefix
  histograms : Histograms

def Summary.read : Reader Summary := record fun fields => do
  let schemaVersion ← field "schema_version" (unsigned 32) fields
  let capturedAt ← field "captured_at" string fields
  let storeName ← field "store_name" string fields
  let strategy ← field "strategy" string fields
  let totals ← field "totals" Totals.read fields
  let volumeGroups ← field "volume_groups" (vec VolumeGroup.read) fields
  let keyPrefixes ← field "key_prefixes" (vec KeyPrefix.read) fields
  let histograms ← fieldOr ⟨[]⟩ "histograms" Histograms.read fields
  return { schemaVersion, capturedAt, storeName, strategy, totals, volumeGroups, keyPrefixes,
           histograms }

/-- A page of a list response: its rows, and the cursor of the next page. -/
structure Page (β : Type) where
  rows : List β
  nextCursor : Option String

/-- `ExpandPrefixResponse`, `ListVolumesResponse` and `SearchResponse`: they differ
in their rows, and in what these are called. -/
def Page.read {β : Type} (name : String) (read : Reader β) : Reader (Page β) :=
  record fun fields => do
    let rows ← field name (vec read) fields
    let nextCursor ← fieldOr none "next_cursor" (option string) fields
    return { rows, nextCursor }

structure PeekResult where
  dtype : String
  shape : List U64
  min : ℚ
  max : ℚ
  mean : ℚ
  l2Norm : ℚ
  head : List ℚ

def PeekResult.read : Reader PeekResult := record fun fields => do
  let dtype ← field "dtype" string fields
  let shape ← field "shape" (vec (unsigned 64)) fields
  let min ← field "min" float fields
  let max ← field "max" float fields
  let mean ← field "mean" float fields
  let l2Norm ← field "l2_norm" float fields
  let head ← field "head" (vec float) fields
  return { dtype, shape, min, max, mean, l2Norm, head }

end Toso.Tui.Model
