/-
  Toso.Realsim.DictDirectory — the directory a dict stands in for.

  The controller keeps its keys in a trie, and reads it as a mapping and through
  one filter, by prefix.  The dict answers both: the filter splits a key at the
  separator and matches the prefix token by token.  Separators are one character
  long.

  Main results:
    * `take_splitOn` — a prefix matches the key it spells, and the keys that go on
      after a separator.
    * `listed_under` — what the filter lists after any run of writes and deletes.
    * `rows_listed` — the rows of the store's reader count what the filter lists
      under them.
-/
import Toso.StoreReader.Trie

namespace Toso.Realsim

open Lib

/-! ## §1. The directory. -/

/-- A directory of keys over the characters `α`. -/
structure DictDirectory (α ν : Type*) [DecidableEq α] where
  data : Dict (List α) ν
  separator : α

namespace DictDirectory

variable {α ν : Type*} [DecidableEq α]

/-- `__getitem__`; a key that is not there raises. -/
def getitem (d : DictDirectory α ν) (key : List α) : Option ν := d.data.get? key

/-- `__setitem__`. -/
def setitem (d : DictDirectory α ν) (key : List α) (value : ν) : DictDirectory α ν :=
  { d with data := d.data.set key value }

/-- `__delitem__`; a key that is not there raises. -/
def delitem (d : DictDirectory α ν) (key : List α) : Option (DictDirectory α ν) :=
  (d.getitem key).map fun _ => { d with data := d.data.erase key }

/-- `__iter__`. -/
def iter (d : DictDirectory α ν) : List (List α) := d.data.keys

/-- `_PrefixKeysView.filter_by_prefix`. -/
def filterByPrefix (d : DictDirectory α ν) (pre : List α) : List (List α) :=
  let prefixTokens := pre.splitOn d.separator
  let n := prefixTokens.length
  d.iter.filter fun key => (key.splitOn d.separator).take n = prefixTokens

/-! ## §2. The filter. -/

/-- Two lists of tokens, joined. -/
theorem intercalate_append {β : Type*} (sep : β) {ls ms : List (List β)} (hl : ls ≠ [])
    (hm : ms ≠ []) :
    [sep].intercalate (ls ++ ms) = [sep].intercalate ls ++ sep :: [sep].intercalate ms := by
  induction ls with
  | nil => exact absurd rfl hl
  | cons l ls ih =>
      rw [List.cons_append, List.intercalate_cons_of_ne_nil (by simp [hm])]
      by_cases hrest : ls = []
      · subst hrest
        simp
      · rw [ih hrest, List.intercalate_cons_of_ne_nil hrest]
        simp

/-- **What a prefix matches**, token by token. -/
theorem take_splitOn (sep : α) (pre key : List α) :
    (key.splitOn sep).take (pre.splitOn sep).length = pre.splitOn sep ↔
      key = pre ∨ pre ++ [sep] <+: key := by
  constructor
  · intro h
    have hkey : [sep].intercalate (key.splitOn sep) = key := List.intercalate_splitOn sep
    rw [← List.take_append_drop (pre.splitOn sep).length (key.splitOn sep), h] at hkey
    by_cases hmore : (key.splitOn sep).drop (pre.splitOn sep).length = []
    · left
      rw [← hkey, hmore, List.append_nil, List.intercalate_splitOn]
    · right
      rw [intercalate_append sep (List.splitOn_ne_nil sep pre) hmore,
        List.intercalate_splitOn] at hkey
      exact ⟨_, by rw [← hkey, List.append_assoc, List.singleton_append]⟩
  · intro h
    rcases h with rfl | ⟨more, rfl⟩
    · exact List.take_length
    · rw [List.append_assoc, List.singleton_append, List.splitOn_append_cons_self,
        List.take_left]

theorem filterByPrefix_eq (d : DictDirectory α ν) (pre : List α) :
    d.filterByPrefix pre
      = d.data.keys.filter fun key => decide (key = pre ∨ pre ++ [d.separator] <+: key) :=
  List.filter_congr fun key _ => decide_eq_decide.mpr (take_splitOn d.separator pre key)

/-! ## §3. Writes and deletes. -/

/-- A write or a delete. -/
inductive Op (α ν : Type*)
  | set (key : List α) (value : ν)
  | del (key : List α)

/-- The key an operation is about. -/
def Op.key : Op α ν → List α
  | set key _ => key
  | del key => key

/-- What an operation leaves under its key. -/
def Op.left : Op α ν → Option ν
  | set _ value => some value
  | del _ => none

/-- One operation; a delete that raises changes nothing. -/
def apply (d : DictDirectory α ν) : Op α ν → DictDirectory α ν
  | .set key value => d.setitem key value
  | .del key => (d.delitem key).getD d

/-- What the last of the operations on a key left there. -/
def lastLeft (ops : List (Op α ν)) (key : List α) : Option ν :=
  (ops.reverse.find? fun op => op.key = key).bind Op.left

theorem getitem_apply (d : DictDirectory α ν) (op : Op α ν) (key : List α) :
    (d.apply op).getitem key = if op.key = key then op.left else d.getitem key := by
  cases op with
  | set k v => exact Dict.get?_set d.data k key v
  | del k =>
      show ((d.delitem k).getD d).getitem key = if k = key then none else d.getitem key
      unfold delitem
      cases hk : d.getitem k with
      | none =>
          by_cases h : k = key
          · rw [if_pos h, ← h]
            exact hk
          · rw [if_neg h]
            rfl
      | some v => exact Dict.get?_erase d.data k key

theorem separator_apply (d : DictDirectory α ν) (op : Op α ν) :
    (d.apply op).separator = d.separator := by
  cases op with
  | set k v => rfl
  | del k =>
      show ((d.delitem k).getD d).separator = d.separator
      unfold delitem
      cases d.getitem k <;> rfl

/-- The directory after a run, from an empty one. -/
def after (sep : α) (ops : List (Op α ν)) : DictDirectory α ν :=
  ops.foldl apply ⟨Dict.empty, sep⟩

theorem after_concat (sep : α) (ops : List (Op α ν)) (op : Op α ν) :
    after sep (ops ++ [op]) = (after sep ops).apply op := List.foldl_concat ..

theorem separator_after (sep : α) (ops : List (Op α ν)) : (after sep ops).separator = sep := by
  induction ops using List.reverseRecOn with
  | nil => rfl
  | append_singleton ops op ih => rw [after_concat, separator_apply, ih]

/-- A read gives what the last operation left. -/
theorem getitem_after (sep : α) (ops : List (Op α ν)) (key : List α) :
    (after sep ops).getitem key = lastLeft ops key := by
  induction ops using List.reverseRecOn with
  | nil => rfl
  | append_singleton ops op ih =>
      rw [after_concat, getitem_apply, ih]
      unfold lastLeft
      rw [List.reverse_concat, List.find?_cons]
      by_cases h : op.key = key <;> simp [h]

/-- **What the filter lists**, over every run of writes and deletes: the keys that are
there and are the prefix or go on after it, each of them once. -/
theorem listed_under (sep : α) (ops : List (Op α ν)) (pre : List α) :
    ((after sep ops).filterByPrefix pre).Nodup ∧
      ∀ key, key ∈ (after sep ops).filterByPrefix pre ↔
        (lastLeft ops key).isSome ∧ (key = pre ∨ pre ++ [sep] <+: key) := by
  constructor
  · exact (after sep ops).data.nodup.filter _
  · intro key
    rw [filterByPrefix_eq, List.mem_filter, decide_eq_true_iff, separator_after,
      ← getitem_after sep, Option.isSome_iff_exists, ← Dict.mem_def, Dict.mem_iff]
    rfl

/-! ## §4. The store's reader. -/

open StoreReader

section Reader

variable (locate : Text → Dict Text StorageInfo) (strategy : Strategy)

/-- A controller that names the keys of a directory, wherever it locates them. -/
def controller (d : DictDirectory CodePoint ν) : Controller := ⟨d.iter, locate⟩

/-- The keys that the directory lists under a prefix and that can be read. -/
def readableUnder (d : DictDirectory CodePoint ν) (pre : Text) : List Text :=
  (d.filterByPrefix pre).filter fun key => (collectKey strategy key (locate key)).isSome

/-- The members of a row, by their keys. -/
theorem members_listed (d : DictDirectory CodePoint ν) (hdot : d.separator = dot)
    {parent child : Text} {members : List KeyRecord}
    (h : (child, members) ∈ grouped (gatherState (d.controller locate) strategy).records parent) :
    (members.map KeyRecord.key).Perm (d.readableUnder locate strategy child) := by
  have hkeys : ∀ keys : List Text, (collectKeys strategy keys locate).map KeyRecord.key
      = keys.filter fun key => (collectKey strategy key (locate key)).isSome := by
    intro keys
    unfold collectKeys
    induction keys with
    | nil => rfl
    | cons key keys ih =>
        rw [List.filterMap_cons, List.filter_cons, ← ih]
        cases hr : collectKey strategy key (locate key) with
        | none => rfl
        | some r =>
            show r.key :: _ = key :: _
            rw [key_of_collectKey hr]
  have hfilter : members.map KeyRecord.key
      = ((gatherState (d.controller locate) strategy).records.map KeyRecord.key).filter fun key =>
          decide (key = child ∨ Continues child key) := by
    rw [members_eq h, List.filter_map]
    rfl
  rw [hfilter]
  show (List.filter _ (List.map _ (collectKeys strategy (d.iter.insertionSort _) locate))).Perm _
  rw [hkeys]
  unfold readableUnder
  rw [filterByPrefix_eq, hdot, List.filter_filter, List.filter_filter]
  refine ((List.perm_insertionSort _ d.iter).filter _).trans (List.Perm.of_eq ?_)
  exact List.filter_congr fun key _ => Bool.and_comm _ _

/-- **The rows of the reader**, over a directory after any run: a row counts the readable
keys that the filter lists under it, and is a leaf where that is its own key alone. -/
theorem rows_listed (ops : List (Op CodePoint ν)) (parent : Text) :
    ∀ row ∈ children (gatherState ((after dot ops).controller locate) strategy).records parent,
      row.keys = ((after dot ops).readableUnder locate strategy row.keyPrefix).length ∧
      (row.isLeaf = true ↔
        (after dot ops).readableUnder locate strategy row.keyPrefix = [row.keyPrefix]) := by
  intro row hrow
  rw [children_eq] at hrow
  obtain ⟨⟨child, members⟩, hgroup, rfl⟩ := List.mem_map.mp hrow
  have hperm := members_listed locate strategy _ (separator_after dot ops) hgroup
  constructor
  · show members.length = ((after dot ops).readableUnder locate strategy child).length
    rw [← hperm.length_eq, List.length_map]
  · show (prefixEntry child members).isLeaf = true ↔
      (after dot ops).readableUnder locate strategy child = [child]
    rw [isLeaf_iff]
    constructor
    · intro ⟨r, hmembers, hkey⟩
      subst hmembers
      rw [List.map_singleton, hkey] at hperm
      exact List.perm_singleton.mp hperm.symm
    · intro hlisted
      rw [hlisted, List.perm_singleton] at hperm
      exact List.map_eq_singleton_iff.mp hperm

end Reader

/-- Objects on one volume. -/
def onOneVolume (_ : Text) : Dict Text StorageInfo :=
  Dict.empty.set (text "v0") ⟨.object, []⟩

/-- Where every `get_meta` finds an object. -/
def objects : Strategy := ⟨Dict.empty, fun _ _ => some .obj⟩

/-- Two keys under one prefix; a third was deleted. -/
def dottedOps : List (Op CodePoint Unit) :=
  [.set (text "a.c") (), .set (text "ab") (), .set (text "a.b") (), .del (text "ab")]

theorem rows_listed_dotted :
    2 = ((after dot dottedOps).readableUnder onOneVolume objects (text "a")).length ∧
      (false = true ↔ (after dot dottedOps).readableUnder onOneVolume objects (text "a")
        = [text "a"]) :=
  rows_listed onOneVolume objects dottedOps [] ⟨text "a", 2, 2, 0, 0, 0, .float 0, false⟩
    (by decide +kernel)

end DictDirectory

end Toso.Realsim
