/-
  Toso.StoreReader.Wire — the responses, and how each is written.

  A builder answers with a dictionary; `json.dumps` writes it on one line, strings
  in escaped sixteen-bit units and a float that is no number as `NaN` or
  `Infinity`.

  A tensor is what `ts.get` fetched: its elements as floats, the lowest and the
  highest taken with NaN passed on; its mean and its norm are torch's.

  Main results:
    * `dumps_dict` — a dictionary of the source is written field by field.
    * `extremes_finite` — the lowest and the highest element are finite exactly
      when every element is.
-/
import Toso.Lib.Wire
import Toso.StoreReader.Aggregator
import Toso.StoreReader.Pages

namespace Toso.StoreReader

open Lib Lib.Wire

/-! ## §1. `json.dumps`. -/

/-- A text as its code points. -/
def points (t : Text) : List ℕ := t.map Fin.val

namespace Json

/-- A dictionary under the names of the source. -/
def dict (fields : List (String × Json)) : Json := .obj (fields.map fun f => (text f.1, f.2))

mutual

/-- `json.dumps`. -/
def dumps : Json → Written
  | null => .null
  | bool b => .bool b
  | int n => .int n
  | float (.finite q) => .float q
  | float .nan => .nonstandard
  | float (.inf _) => .nonstandard
  | str t => .str (Utf16.encode (points t))
  | arr items => .arr (dumpsItems items)
  | obj fields => .obj (dumpsFields fields)

def dumpsItems : List Json → List Written
  | [] => []
  | item :: items => dumps item :: dumpsItems items

def dumpsFields : List (Text × Json) → List (List ℕ × Written)
  | [] => []
  | (name, value) :: fields => (Utf16.encode (points name), dumps value) :: dumpsFields fields

end

theorem dumps_arr (items : List Json) : (arr items).dumps = .arr (items.map dumps) := by
  show Written.arr (dumpsItems items) = _
  congr 1
  induction items with
  | nil => rfl
  | cons item items ih =>
      show dumps item :: dumpsItems items = _
      rw [ih]
      rfl

theorem points_text (s : String) : points (text s) = Utf16.ofString s := by
  unfold points text Utf16.ofString
  rw [List.map_map]
  exact List.map_congr_left fun c _ => codePoint_val c

/-- **A dictionary of the source** is written field by field. -/
theorem dumps_dict (fields : List (String × Json)) :
    (dict fields).dumps = .obj (named (fields.map fun f => (f.1, f.2.dumps))) := by
  show Written.obj (dumpsFields (fields.map fun f => (text f.1, f.2))) = _
  congr 1
  induction fields with
  | nil => rfl
  | cons f fields ih =>
      show (Utf16.encode (points (text f.1)), f.2.dumps) :: dumpsFields _ = _
      rw [ih, points_text]
      rfl

end Json

/-! ## §2. Dictionaries. -/

def Number.json : Number → Json
  | int n => .int n
  | float q => .float (.finite q)

/-- A value that may be `None`. -/
def optional {α : Type} (json : α → Json) (o : Option α) : Json := (o.map json).getD .null

/-- A list of integers. -/
def ints (l : List ℤ) : Json := .arr (l.map .int)

def Shard.dict (s : Shard) : Json := .dict
  [("volume_id", .str s.volumeId), ("coordinates", ints s.coordinates),
    ("offsets", ints s.offsets), ("local_shape", ints s.localShape)]

def KeyEntry.dict (e : KeyEntry) : Json := .dict
  [("key", .str e.key), ("object_type", .str e.objectType.tag), ("dtype", optional .str e.dtype),
    ("global_shape", optional ints e.globalShape), ("fully_committed", .bool e.fullyCommitted),
    ("mesh_shape", optional ints e.meshShape), ("shards", .arr (e.shards.map Shard.dict))]

def KeyPrefix.dict (p : KeyPrefix) : Json := .dict
  [("prefix", .str p.keyPrefix), ("keys", .int p.keys), ("objects", .int p.objects),
    ("tensors", .int p.tensors), ("dtensors", .int p.dtensors), ("partial", .int p.partialCount),
    ("bytes", p.bytes.json), ("is_leaf", .bool p.isLeaf)]

def Volume.dict (v : Volume) : Json := .dict
  [("volume_id", .str v.volumeId), ("hostname", .str v.hostname), ("transport", .null),
    ("num_keys", .int v.numKeys), ("bytes", v.bytes.json), ("reachable", .bool true)]

def Totals.dict (t : Totals) : Json := .dict
  [("volumes", .int t.volumes), ("keys", .int t.keys), ("bytes", t.bytes.json),
    ("partial_dtensors", .int t.partialDtensors)]

def VolumeGroup.dict (g : VolumeGroup) : Json := .dict
  [("group", .str g.group), ("volumes", .int g.volumes), ("keys", .int g.keys),
    ("bytes", g.bytes.json), ("transports", .dict []), ("reachable", .int g.reachable)]

/-- A `[bucket, count]` pair. -/
def bucketJson (b : ℕ × ℕ) : Json := .arr [.int b.1, .int b.2]

def Summary.dict (s : Summary) : Json := .dict
  [("schema_version", .int s.schemaVersion), ("captured_at", .str s.capturedAt),
    ("store_name", .str s.storeName), ("strategy", .str s.strategy), ("totals", s.totals.dict),
    ("volume_groups", .arr (s.volumeGroups.map VolumeGroup.dict)),
    ("key_prefixes", .arr (s.keyPrefixes.map KeyPrefix.dict)),
    ("histograms", .dict [("shard_commit_pct", .arr (s.shardCommitPct.map bucketJson))])]

def SearchMatch.dict : SearchMatch → Json
  | .key entry => entry.dict
  | .volume v => v.dict

/-- A page: its rows under their name, and `next_cursor`. -/
def pageDict {α : Type} (name : String) (dict : α → Json) (page : List α × Option Text) : Json :=
  .dict [(name, .arr (page.1.map dict)), ("next_cursor", optional .str page.2)]

/-! ## §3. Peeking. -/

/-- A fetched tensor, its elements as floats. -/
structure Tensor where
  dtype : DType
  shape : List ℤ
  flat : List PyFloat

/-- What `ts.get` fetched. -/
inductive Fetched
  | tensor (t : Tensor)
  | other

/-- Torch's mean and norm, rounded as they are. -/
structure Torch where
  mean : List PyFloat → PyFloat
  vectorNorm : List PyFloat → PyFloat

namespace PyFloat

/-- A float with a value. -/
def Finite : PyFloat → Prop
  | finite _ => True
  | nan => False
  | inf _ => False

/-- `a ≤ b`, of floats that are not NaN. -/
def le : PyFloat → PyFloat → Bool
  | inf true, _ => true
  | _, inf false => true
  | finite p, finite q => p ≤ q
  | _, _ => false

/-- The lower of two, or the higher; NaN is passed on. -/
def pick (low : Bool) (a b : PyFloat) : PyFloat :=
  if a = nan ∨ b = nan then nan
  else if a.le b = low then a else b

/-- `flat.min()` and `flat.max()`; of no elements both raise. -/
def extreme (low : Bool) : List PyFloat → Option PyFloat
  | [] => none
  | x :: rest => some (rest.foldl (pick low) x)

/-- What an extreme passes on: NaN, and its own infinity. -/
def Absorbing (low : Bool) (x : PyFloat) : Prop := x = nan ∨ x = inf low

theorem finite_iff {x : PyFloat} :
    x.Finite ↔ ¬ Absorbing true x ∧ ¬ Absorbing false x := by
  cases x with
  | finite q => simp [Finite, Absorbing]
  | nan => simp [Finite, Absorbing]
  | inf negative => cases negative <;> simp [Finite, Absorbing]

theorem absorbing_pick {low : Bool} {a b : PyFloat} (h : Absorbing low a ∨ Absorbing low b) :
    Absorbing low (pick low a b) := by
  unfold pick
  split
  · exact .inl rfl
  · next hnan =>
      push Not at hnan
      rcases h with (h | rfl) | h | rfl
      · exact absurd h hnan.1
      · cases low with
        | true => exact .inr (if_pos (by cases b <;> rfl))
        | false =>
            cases b with
            | finite q => exact .inr rfl
            | nan => exact absurd rfl hnan.2
            | inf negative => cases negative <;> exact .inr rfl
      · exact absurd h hnan.2
      · cases low with
        | true =>
            cases a with
            | finite q => exact .inr rfl
            | nan => exact absurd rfl hnan.1
            | inf negative => cases negative <;> exact .inr rfl
        | false =>
            refine .inr (if_neg ?_)
            cases a with
            | finite q => exact Bool.noConfusion
            | nan => exact absurd rfl hnan.1
            | inf negative => cases negative <;> exact Bool.noConfusion

theorem finite_pick {low : Bool} {a b : PyFloat} (ha : a.Finite) (hb : b.Finite) :
    (pick low a b).Finite := by
  unfold pick
  split
  · next hnan =>
      rcases hnan with rfl | rfl
      · exact ha.elim
      · exact hb.elim
  · split
    · exact ha
    · exact hb

/-- What is absorbing stays, from wherever the extreme is taken. -/
theorem absorbing_foldl {low : Bool} (rest : List PyFloat) : ∀ x : PyFloat,
    (∃ y ∈ x :: rest, Absorbing low y) → Absorbing low (rest.foldl (pick low) x) := by
  induction rest with
  | nil =>
      intro x ⟨y, hy, habsorbing⟩
      rw [List.mem_singleton.mp hy] at habsorbing
      exact habsorbing
  | cons z rest ih =>
      intro x ⟨y, hy, habsorbing⟩
      refine ih (pick low x z) ?_
      rcases List.mem_cons.mp hy with rfl | hy
      · exact ⟨_, List.mem_cons_self, absorbing_pick (.inl habsorbing)⟩
      · rcases List.mem_cons.mp hy with rfl | hy
        · exact ⟨_, List.mem_cons_self, absorbing_pick (.inr habsorbing)⟩
        · exact ⟨y, List.mem_cons_of_mem _ hy, habsorbing⟩

theorem finite_foldl {low : Bool} (rest : List PyFloat) : ∀ x : PyFloat,
    (∀ y ∈ x :: rest, y.Finite) → (rest.foldl (pick low) x).Finite := by
  induction rest with
  | nil => exact fun x h => h x List.mem_cons_self
  | cons z rest ih =>
      intro x h
      rw [List.forall_mem_cons, List.forall_mem_cons] at h
      exact ih _ (List.forall_mem_cons.mpr ⟨finite_pick h.1 h.2.1, h.2.2⟩)

/-- **The lowest and the highest element** are finite exactly when every element
is. -/
theorem extremes_finite {l : List PyFloat} {lowest highest : PyFloat}
    (hlow : extreme true l = some lowest) (hhigh : extreme false l = some highest) :
    (lowest.Finite ∧ highest.Finite) ↔ ∀ x ∈ l, x.Finite := by
  cases l with
  | nil => cases hlow
  | cons x rest =>
      cases hlow
      cases hhigh
      constructor
      · intro ⟨hlow, hhigh⟩ y hy
        refine finite_iff.mpr ⟨fun h => ?_, fun h => ?_⟩
        · exact (finite_iff.mp hlow).1 (absorbing_foldl rest x ⟨y, hy, h⟩)
        · exact (finite_iff.mp hhigh).2 (absorbing_foldl rest x ⟨y, hy, h⟩)
      · exact fun h => ⟨finite_foldl rest x h, finite_foldl rest x h⟩

end PyFloat

/-- The stats of `_peek_stats`. -/
structure Peek where
  dtype : Text
  shape : List ℤ
  min : PyFloat
  max : PyFloat
  mean : PyFloat
  l2Norm : PyFloat
  head : List PyFloat

def Peek.dict (p : Peek) : Json := .dict
  [("dtype", .str p.dtype), ("shape", ints p.shape), ("min", .float p.min), ("max", .float p.max),
    ("mean", .float p.mean), ("l2_norm", .float p.l2Norm), ("head", .arr (p.head.map .float))]

/-- `HEAD_ELEMENTS`. -/
def headElements : ℕ := 8

/-- `_peek_stats`, of a fetched tensor. -/
def peekStats (torch : Torch) (t : Tensor) : Except Exc Peek :=
  match PyFloat.extreme true t.flat, PyFloat.extreme false t.flat with
  | some min, some max => .ok
      { dtype := t.dtype.name
        shape := t.shape
        min := min
        max := max
        mean := torch.mean t.flat
        l2Norm := torch.vectorNorm t.flat
        head := t.flat.take headElements }
  | _, _ => .error .runtimeError

/-! ## §4. Every response. -/

/-- What the builders read of a store: `fetch` is `ts.get`, nothing where it raises,
and `strategyName` the name of the strategy's type. -/
structure Store where
  controller : Controller
  strategy : Strategy
  strategyName : Text
  fetch : Text → Option Fetched

/-- A response. -/
inductive Response
  | summary (s : Summary)
  | expandPrefix (page : List KeyPrefix × Option Text)
  | listVolumes (page : List Volume × Option Text)
  | key (entry : KeyEntry)
  | search (page : List SearchMatch × Option Text)
  | peek (p : Peek)

def Response.dict : Response → Json
  | summary s => s.dict
  | expandPrefix page => pageDict "children" KeyPrefix.dict page
  | listVolumes page => pageDict "volumes" Volume.dict page
  | key entry => entry.dict
  | search page => pageDict "matches" SearchMatch.dict page
  | peek p => p.dict

section

variable (U : Unicode) (spell : Json → Text) (torch : Torch) (store : Store)

/-- `build_summary`, at the instant `now`. -/
def buildSummary (now : String) : Summary :=
  let state := gatherState store.controller store.strategy
  buildSummaryDict (text now) (text "torchstore") store.strategyName state.records
    state.volumes state.groups

/-- `build_key`: only a string is located. -/
def buildKey (req : Request) : Except Exc KeyEntry :=
  match req.get "key" with
  | .str [] => .error (.keyError (text "key request missing `key`"))
  | .str key =>
      match collectKey store.strategy key (store.controller.locateVolumes key) with
      | some r => .ok r.keyEntry
      | none => .error (.keyError (text "key not found: " ++ key))
  | key =>
      if !key.truthy then .error (.keyError (text "key request missing `key`"))
      else if key.hashable then .error (.keyError (text "key not found: " ++ spell key))
      else .error .typeError

/-- `build_peek`: only a string is fetched. -/
def buildPeek (req : Request) : Except Exc Peek :=
  match req.get "key" with
  | .str [] => .error (.keyError (text "peek request missing `key`"))
  | .str key =>
      match store.fetch key with
      | some (.tensor t) => peekStats torch t
      | _ => .error (.keyError (text "no tensor stats for key: " ++ key))
  | key =>
      if !key.truthy then .error (.keyError (text "peek request missing `key`"))
      else .error (.keyError (text "no tensor stats for key: " ++ spell key))

/-- The builder of an operation. -/
def respond (now : String) (op : Aggregator.Op) (req : Request) : Except Exc Response :=
  let state := gatherState store.controller store.strategy
  match op with
  | .summary => .ok (.summary (buildSummary store now))
  | .expandPrefix => (buildExpandPrefix U spell state req).map .expandPrefix
  | .listVolumes => (buildListVolumes U state req).map .listVolumes
  | .key => (buildKey spell store req).map .key
  | .search => (buildSearch U state req).map .search
  | .peek => (buildPeek spell torch store req).map .peek

end

end Toso.StoreReader
