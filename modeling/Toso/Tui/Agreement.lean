/-
  Toso.Tui.Agreement — every response of every store, read as it was built.

  A response is read as itself exactly when its texts have no surrogates, its
  counts and sizes fit their unsigned fields and its floats are numbers.  Which
  responses a store has is decided by what it holds, so the condition is stated
  there: of the names, the located keys, the counts and the tensors.

  Main results:
    * `decoded_iff_fits` — one response.
    * `length_records`, `numKeys_eq` — the counts of the rows, as counts of keys.
    * `decoded_iff` — every response to every request.
-/
import Toso.Tui.Contract

namespace Toso.Contract

open Lib Lib.Wire StoreReader

/-! ## §1. One response. -/

/-- **A response decoded as it was built**: the type of its request reads the line,
and every field is the same. -/
def Decoded (r : Response) : Prop :=
  match r with
  | .summary s => ∃ m, document Tui.Model.Summary.read r.dict.dumps = some m ∧ SameSummary s m
  | .expandPrefix page =>
      ∃ m, document (Tui.Model.Page.read "children" Tui.Model.KeyPrefix.read) r.dict.dumps = some m ∧
        SamePage SameKeyPrefix page m
  | .listVolumes page =>
      ∃ m, document (Tui.Model.Page.read "volumes" Tui.Model.Volume.read) r.dict.dumps = some m ∧
        SamePage SameVolume page m
  | .key entry => ∃ m, document Tui.Model.KeyEntry.read r.dict.dumps = some m ∧ SameKeyEntry entry m
  | .search page =>
      ∃ m, document (Tui.Model.Page.read "matches" Tui.Model.SearchMatch.read) r.dict.dumps = some m ∧
        SamePage SameMatch page m
  | .peek p => ∃ m, document Tui.Model.PeekResult.read r.dict.dumps = some m ∧ SamePeek p m

/-- A response whose fields all fit. -/
def Fits : Response → Prop
  | .summary s => FitsSummary s
  | .expandPrefix page => FitsPage FitsKeyPrefix page
  | .listVolumes page => FitsPage FitsVolume page
  | .key entry => FitsKeyEntry entry
  | .search page => FitsPage FitsMatch page
  | .peek p => FitsPeek p

theorem decoded_iff_fits (r : Response) : Decoded r ↔ Fits r := by
  cases r with
  | summary s => exact carries_summary.read_iff s
  | expandPrefix page =>
      have hname : "children" ≠ "next_cursor" := by decide
      exact (carries_page hname carries_keyPrefix).read_iff page
  | listVolumes page => exact (carries_page (by decide) carries_volume).read_iff page
  | key entry => exact carries_keyEntry.read_iff entry
  | search page => exact (carries_page (by decide) carries_match).read_iff page
  | peek p => exact carries_peek.read_iff p

/-! ## §2. What a store is read as. -/

section

variable (store : Store)

/-- The type of a located key, and what `get_meta` answers for it. -/
def located (key : Text) : Option (ObjectType × Meta) :=
  match (store.controller.locateVolumes key).entries with
  | [] => none
  | (volumeId, info) :: _ =>
      (store.strategy.getMeta volumeId (pickMetaRequest key info.objectType info)).map
        fun answer => (info.objectType, answer)

/-- A key that is read. -/
def readable (key : Text) : Bool := (located store key).isSome

/-- The record of a key. -/
def recordOf (key : Text) (objectType : ObjectType) (answer : Meta) : KeyRecord :=
  let volumeMap := store.controller.locateVolumes key
  let (shape, dtype, nbytes) := match answer with
    | .obj => (none, none, 0)
    | .sized shape dtype => (some shape, some dtype.name,
        if shape = [] then 0 else ((shape.prod * dtype.itemsize : ℤ) : ℚ))
  { key := key
    objectType := objectType
    dtype := dtype
    globalShape := if objectType = .tensorSlice then shape else none
    meshShape := none
    fullyCommitted := isFullyCommitted objectType volumeMap
    shards := shardsForKey objectType volumeMap shape
    bytes := nbytes
    volumeIds := volumeMap.keys }

/-- The keys read on one volume. -/
def keysOn (volumeId : Text) : ℕ := store.controller.keys.countP fun key =>
  readable store key && decide (volumeId ∈ (store.controller.locateVolumes key).keys)

/-- The state a request is answered from. -/
abbrev stateOf : StoreState := gatherState store.controller store.strategy

theorem collectKey_eq (key : Text) :
    collectKey store.strategy key (store.controller.locateVolumes key)
      = (located store key).map fun x => recordOf store key x.1 x.2 := by
  unfold collectKey located keyMeta
  cases hentries : (store.controller.locateVolumes key).entries with
  | nil => rfl
  | cons entry rest =>
      dsimp only
      rw [Option.map_map, Option.map_map]
      rfl

theorem isSome_collectKey (key : Text) :
    (collectKey store.strategy key (store.controller.locateVolumes key)).isSome
      = readable store key := by
  rw [collectKey_eq, Option.isSome_map]
  rfl

theorem volumeIds_of_collectKey {key : Text} {r : KeyRecord}
    (h : collectKey store.strategy key (store.controller.locateVolumes key) = some r) :
    r.volumeIds = (store.controller.locateVolumes key).keys := by
  rw [collectKey_eq] at h
  obtain ⟨x, _, rfl⟩ := Option.map_eq_some_iff.mp h
  rfl

/-- A record is that of a key the controller names. -/
theorem mem_records {r : KeyRecord} : r ∈ (stateOf store).records ↔
    ∃ key ∈ store.controller.keys,
      collectKey store.strategy key (store.controller.locateVolumes key) = some r := by
  show r ∈ List.filterMap _ (store.controller.keys.insertionSort _) ↔ _
  rw [List.mem_filterMap]
  simp only [List.mem_insertionSort]

/-- **The records** are as many as the keys that are read. -/
theorem length_records :
    (stateOf store).records.length = store.controller.keys.countP (readable store) := by
  show (List.filterMap _ (store.controller.keys.insertionSort _)).length = _
  rw [List.length_filterMap_eq_countP, (List.perm_insertionSort _ _).countP_eq]
  exact List.countP_congr fun key _ => by rw [isSome_collectKey]

/-- A volume is placed once for each record on it. -/
theorem length_perVolume (records : List KeyRecord) (h : ∀ r ∈ records, r.volumeIds.Nodup)
    (volumeId : Text) : ((perVolume records).getD volumeId []).length
      = records.countP fun r => decide (volumeId ∈ r.volumeIds) := by
  unfold perVolume groupBy
  rw [getD_foldl_joinGroup]
  show (List.filter _ _).length = _
  rw [← List.countP_eq_length_filter, List.countP_flatMap]
  induction records with
  | nil => rfl
  | cons r records ih =>
      rw [List.forall_mem_cons] at h
      rw [List.map_cons, List.sum_cons, ih h.2, List.countP_cons, add_comm]
      congr 1
      show (r.volumeIds.map _).countP _ = _
      rw [List.countP_map]
      have hcount : r.volumeIds.countP (fun id => decide (id = volumeId))
          = r.volumeIds.count volumeId := List.countP_congr fun id _ => by simp
      show r.volumeIds.countP (fun id => decide (id = volumeId)) = _
      rw [hcount, h.1.count]
      simp

/-- **The keys of a volume's row** are the keys read on it. -/
theorem numKeys_eq {v : Volume} (h : v ∈ (stateOf store).volumes) :
    v.numKeys = keysOn store v.volumeId := by
  obtain ⟨entry, _, rfl⟩ := List.mem_map.mp h
  have hnodup : ∀ r ∈ (stateOf store).records, r.volumeIds.Nodup := by
    intro r hr
    obtain ⟨key, _, hread⟩ := (mem_records store).mp hr
    rw [volumeIds_of_collectKey store hread]
    exact (store.controller.locateVolumes key).nodup
  show (List.map _ ((perVolume (stateOf store).records).getD entry.1 [])).length = _
  rw [List.length_map, length_perVolume _ hnodup]
  show (List.filterMap _ (store.controller.keys.insertionSort _)).countP _ = _
  rw [List.countP_filterMap, (List.perm_insertionSort _ _).countP_eq]
  refine List.countP_congr fun key _ => ?_
  rw [← isSome_collectKey]
  cases hread : collectKey store.strategy key (store.controller.locateVolumes key) with
  | none => simp
  | some r => simp [volumeIds_of_collectKey store hread]

end

/-! ## §3. What has to be spelled. -/

/-- What the row of a located key spells: the key, its dtype, the shape where a
tensor has one, and where its shards are. -/
structure KeySpelled (store : Store) (key : Text) (objectType : ObjectType) (answer : Meta) :
    Prop where
  name : Sayable key
  dtype : ∀ size dtype, answer = .sized size dtype → Sayable dtype.name
  size : objectType ≠ .object → ∀ size dtype, answer = .sized size dtype → ∀ n ∈ size, Unsigned n
  tensor : objectType = .tensor →
    ∀ volumeId ∈ (store.controller.locateVolumes key).keys, Sayable volumeId
  slices : objectType = .tensorSlice →
    ∀ entry ∈ (store.controller.locateVolumes key).entries,
      ∀ slice ∈ entry.2.tensorSlices.filterMap id, Sayable entry.1 ∧
        (∀ n ∈ slice.coordinates, Unsigned n) ∧ (∀ n ∈ slice.offsets, Unsigned n) ∧
        ∀ n ∈ slice.localShape, Unsigned n

/-- What peeking at a tensor spells. -/
structure TensorSpelled (torch : Torch) (t : Tensor) : Prop where
  dtype : Sayable t.dtype.name
  shape : ∀ n ∈ t.shape, Unsigned n
  elements : ∀ x ∈ t.flat, x.Finite
  mean : (torch.mean t.flat).Finite
  vectorNorm : (torch.vectorNorm t.flat).Finite

/-- **A store that can be spelled**: no name in it has a surrogate, its counts and
sizes fit an unsigned field, and every tensor that can be peeked at holds numbers
and has a finite mean and norm. -/
structure Spelled (torch : Torch) (store : Store) : Prop where
  strategyName : Sayable store.strategyName
  volumes : ∀ entry ∈ store.strategy.volumeIdToHostname.entries,
    Sayable entry.1 ∧ Sayable entry.2
  volumeCount : store.strategy.volumeIdToHostname.entries.length < 2 ^ 64
  keyCount : store.controller.keys.countP (readable store) < 2 ^ 64
  placements : ∀ host, ((store.strategy.volumeIdToHostname.entries.filter (·.2 = host)).map
    fun entry => keysOn store entry.1).sum < 2 ^ 64
  keys : ∀ key, key ≠ [] ∨ key ∈ store.controller.keys → ∀ objectType answer,
    located store key = some (objectType, answer) → KeySpelled store key objectType answer
  tensors : ∀ key t, key ≠ [] → store.fetch key = some (.tensor t) → t.flat ≠ [] →
    TensorSpelled torch t

/-- **A store whose lists can be spelled**: what the rows of volumes and of keys say. -/
structure Listable (store : Store) : Prop where
  volumes : ∀ entry ∈ store.strategy.volumeIdToHostname.entries,
    Sayable entry.1 ∧ Sayable entry.2
  keyCount : store.controller.keys.countP (readable store) < 2 ^ 64
  keys : ∀ key ∈ store.controller.keys, ∀ objectType answer,
    located store key = some (objectType, answer) → KeySpelled store key objectType answer

theorem Spelled.listable {torch : Torch} {store : Store} (h : Spelled torch store) :
    Listable store :=
  ⟨h.volumes, h.keyCount, fun key hkey => h.keys key (.inr hkey)⟩

theorem sayable_map (cs : List Char) : Sayable (cs.map codePoint) := by
  intro n hn
  unfold points at hn
  rw [List.map_map] at hn
  obtain ⟨c, _, rfl⟩ := List.mem_map.mp hn
  show (codePoint c).val.isValidChar
  rw [codePoint_val]
  exact c.valid

theorem sayable_intText (n : ℤ) : Sayable (intText n) := by
  cases n with
  | ofNat n => exact sayable_map _
  | negSucc n => exact sayable_map ('-' :: Nat.toDigits 10 (n + 1))

theorem Sayable.subset {t u : Text} (h : Sayable t) (hsub : u ⊆ t) : Sayable u := by
  intro n hn
  obtain ⟨c, hc, rfl⟩ := List.mem_map.mp hn
  exact h _ (List.mem_map_of_mem (hsub hc))

theorem sayable_append {t u : Text} : Sayable (t ++ u) ↔ Sayable t ∧ Sayable u := by
  unfold Sayable points Utf16.Scalar
  rw [List.map_append, List.forall_mem_append]

/-- The row of a located key. -/
theorem fits_recordOf {store : Store} {key : Text} {objectType : ObjectType} {answer : Meta}
    (hlocated : located store key = some (objectType, answer)) :
    FitsKeyEntry (recordOf store key objectType answer).keyEntry ↔
      KeySpelled store key objectType answer := by
  constructor
  · intro h
    refine ⟨h.key, ?_, ?_, ?_, ?_⟩
    · rintro size dtype rfl
      exact h.dtype _ rfl
    · rintro htype size dtype rfl
      cases objectType with
      | object => exact absurd rfl htype
      | tensor =>
          -- a located key is on some volume, whose shard row has the size
          obtain ⟨volumeId, hvolume⟩ : ∃ volumeId,
              volumeId ∈ (store.controller.locateVolumes key).keys := by
            unfold located at hlocated
            unfold Dict.keys
            cases hentries : (store.controller.locateVolumes key).entries with
            | nil =>
                rw [hentries] at hlocated
                cases hlocated
            | cons entry rest => exact ⟨entry.1, List.mem_cons_self⟩
          exact (h.shards ⟨volumeId, [], [], size⟩ (List.mem_map.mpr ⟨_, hvolume, rfl⟩)).localShape
      | tensorSlice => exact h.globalShape size rfl
    · rintro rfl volumeId hvolume
      exact (h.shards _ (List.mem_map.mpr ⟨_, hvolume, rfl⟩)).volumeId
    · rintro rfl entry hentry slice hslice
      have hshard := h.shards _
        (List.mem_flatMap.mpr ⟨entry, hentry, List.mem_map.mpr ⟨slice, hslice, rfl⟩⟩)
      exact ⟨hshard.volumeId, hshard.coordinates, hshard.offsets, hshard.localShape⟩
  · intro h
    refine ⟨h.name, ?_, ?_, (fun _ hmesh => nomatch hmesh), ?_⟩
    · intro t ht
      cases answer with
      | obj => cases ht
      | sized size dtype =>
          cases ht
          exact h.dtype size dtype rfl
    · intro l hl
      cases answer with
      | obj =>
          have hnone : (if objectType = .tensorSlice then none else none) = some l := hl
          rw [ite_self] at hnone
          cases hnone
      | sized size dtype =>
          have hshape : (if objectType = .tensorSlice then some size else none) = some l := hl
          split at hshape
          · next htype =>
              cases hshape
              exact h.size (by rw [htype]; exact ObjectType.noConfusion) _ _ rfl
          · cases hshape
    · intro s hs
      cases objectType with
      | object => cases hs
      | tensor =>
          obtain ⟨volumeId, hvolume, rfl⟩ := List.mem_map.mp hs
          refine ⟨h.tensor rfl volumeId hvolume, List.forall_mem_nil _, List.forall_mem_nil _, ?_⟩
          cases answer with
          | obj => exact fun _ h => nomatch h
          | sized size dtype => exact h.size nofun size dtype rfl
      | tensorSlice =>
          obtain ⟨entry, hentry, hs⟩ := List.mem_flatMap.mp hs
          obtain ⟨slice, hslice, rfl⟩ := List.mem_map.mp hs
          obtain ⟨hid, hcoordinates, hoffsets, hshape⟩ := h.slices rfl entry hentry slice hslice
          exact ⟨hid, hcoordinates, hoffsets, hshape⟩

/-- The stats of a tensor. -/
theorem fits_peekStats {torch : Torch} {t : Tensor} {p : Peek}
    (h : peekStats torch t = .ok p) : FitsPeek p ↔ TensorSpelled torch t := by
  unfold peekStats at h
  cases hlow : PyFloat.extreme true t.flat with
  | none => rw [hlow] at h; cases h
  | some lowest =>
      cases hhigh : PyFloat.extreme false t.flat with
      | none => rw [hlow, hhigh] at h; cases h
      | some highest =>
          rw [hlow, hhigh] at h
          cases h
          have hextremes := PyFloat.extremes_finite hlow hhigh
          constructor
          · intro h
            exact ⟨h.dtype, h.shape, hextremes.mp ⟨h.min, h.max⟩, h.mean, h.l2Norm⟩
          · intro h
            have hfinite := hextremes.mpr h.elements
            exact ⟨h.dtype, h.shape, hfinite.1, hfinite.2, h.mean, h.vectorNorm,
              fun x hx => h.elements x (List.mem_of_mem_take hx)⟩

/-! ## §4. Pages. -/

section

variable {α : Type} {U : Unicode}

/-- A page of rows that fit has a cursor that fits. -/
theorem fits_paginate {Row : α → Prop} {items : List α} {limit cursor : Json}
    {page : List α × Option Text} (h : paginate U items limit cursor = .ok page)
    (hitems : ∀ a ∈ items, Row a) : FitsPage Row page := by
  unfold paginate at h
  cases hstart : decodeCursor U cursor with
  | error e => rw [hstart] at h; cases h
  | ok start =>
      cases hlimit : decodeLimit U limit with
      | error e => rw [hstart, hlimit] at h; cases h
      | ok lim =>
          rw [hstart, hlimit] at h
          cases h
          refine ⟨fun a ha => hitems a (List.mem_of_mem_take (List.mem_of_mem_drop ha)), ?_⟩
          intro t ht
          dsimp only at ht
          split at ht
          · cases ht
            exact sayable_intText _
          · cases ht

theorem fits_listResponse {Row : α → Prop} {s : Sorting α} {rows : List α} {req : Request}
    {page : List α × Option Text} (h : listResponse U s rows req = .ok page)
    (hrows : ∀ a ∈ rows, Row a) : FitsPage Row page := by
  unfold listResponse Sorting.sort at h
  dsimp only at h
  cases hkey : s.keyfn ((req.get "sort_by").orText s.default) with
  | error e => rw [hkey] at h; cases h
  | ok figure =>
      rw [hkey] at h
      refine fits_paginate h fun a ha => hrows a ?_
      exact (pySorted_perm _ _ _).mem_iff.mp ha

/-- A request for every row of a list answers with every row. -/
theorem listResponse_all (s : Sorting α) {rows : List α} {req : Request}
    (hsort : req.get "sort_by" = .null) (hlimit : req.get "limit" = .int rows.length)
    (hcursor : req.get "cursor" = .null) :
    ∃ page, listResponse U s rows req = .ok page ∧ ∀ a ∈ rows, a ∈ page.1 := by
  unfold listResponse Sorting.sort Sorting.keyfn
  rw [hsort, hlimit, hcursor]
  refine ⟨_, rfl, fun a ha => ?_⟩
  have hperm := fun figure => pySorted_perm
    (reverseOrder (Json.null.orText s.default) (req.get "order")) figure rows
  show a ∈ slice _ ((0 : ℕ) : ℤ) ((0 : ℕ) + (rows.length : ℤ))
  rw [slice_eq, List.drop_zero, List.take_of_length_le (hperm _).length_eq.le]
  exact (hperm _).mem_iff.mpr ha

/-- What is kept was there. -/
theorem mem_of_keep {matching : α → Except Exc Bool} (rows : List α) :
    ∀ kept, keep matching rows = .ok kept → ∀ a ∈ kept, a ∈ rows := by
  induction rows with
  | nil =>
      intro kept h a ha
      cases h
      exact ha
  | cons row rows ih =>
      intro kept h a ha
      unfold keep at h
      cases hrow : matching row with
      | error e => rw [hrow] at h; cases h
      | ok here =>
          cases hrest : keep matching rows with
          | error e => rw [hrow, hrest] at h; cases h
          | ok others =>
              rw [hrow, hrest] at h
              cases h
              have hothers := ih others hrest a
              split at ha
              · rcases List.mem_cons.mp ha with rfl | ha
                · exact List.mem_cons_self
                · exact List.mem_cons_of_mem _ (hothers ha)
              · exact List.mem_cons_of_mem _ (hothers ha)

/-- What matches everything keeps everything. -/
theorem keep_all {matching : α → Except Exc Bool} (rows : List α)
    (h : ∀ a, matching a = .ok true) : keep matching rows = .ok rows := by
  induction rows with
  | nil => rfl
  | cons row rows ih =>
      unfold keep
      rw [h, ih]
      rfl

end

/-! ## §5. Rows of a store. -/

section

variable {torch : Torch} {store : Store}

/-- Every volume has its row. -/
theorem mem_volumes {volumeId hostname : Text}
    (h : (volumeId, hostname) ∈ store.strategy.volumeIdToHostname.entries) :
    ∃ v ∈ (stateOf store).volumes, v.volumeId = volumeId ∧ v.hostname = hostname :=
  ⟨_, List.mem_map.mpr ⟨_, h, rfl⟩, rfl, rfl⟩

theorem length_volumes : (stateOf store).volumes.length
    = store.strategy.volumeIdToHostname.entries.length := List.length_map _

/-- The keys placed on the volumes of a host. -/
theorem sum_numKeys (host : Text) :
    (((stateOf store).volumes.filter (·.hostname = host)).map Volume.numKeys).sum
      = ((store.strategy.volumeIdToHostname.entries.filter (·.2 = host)).map
          fun entry => keysOn store entry.1).sum := by
  have hrow : ∀ v ∈ (stateOf store).volumes.filter (·.hostname = host),
      v.numKeys = keysOn store v.volumeId :=
    fun v hv => numKeys_eq store (List.mem_of_mem_filter hv)
  rw [List.map_congr_left hrow]
  show (List.map _ (List.filter _ (List.map _ _))).sum = _
  rw [List.filter_map, List.map_map]
  rfl

/-- The group of a volume is its host's. -/
theorem mem_groups {group : Text} {members : List Volume} :
    (group, members) ∈ (stateOf store).groups.entries ↔
      ∃ v ∈ (stateOf store).volumes, text "host:" ++ v.hostname = group ∧
        members = (stateOf store).volumes.filter (·.hostname = v.hostname) := by
  rw [← Dict.get?_eq_some_iff]
  show (groupBy _ _).get? group = some members ↔ _
  rw [groupBy_get?, List.mem_map]
  have hfilter : ∀ v : Volume, text "host:" ++ v.hostname = group →
      ((stateOf store).volumes.filter fun w => text "host:" ++ w.hostname = group)
        = (stateOf store).volumes.filter (·.hostname = v.hostname) := by
    intro v hv
    subst hv
    exact List.filter_congr fun w _ => decide_eq_decide.mpr (List.append_right_inj _)
  constructor
  · intro ⟨⟨v, hv, hgroup⟩, hmembers⟩
    exact ⟨v, hv, hgroup, hmembers.trans (hfilter v hgroup)⟩
  · intro ⟨v, hv, hgroup, hmembers⟩
    exact ⟨⟨v, hv, hgroup⟩, hmembers.trans (hfilter v hgroup).symm⟩

/-- Every record of a listable store has a row that fits. -/
theorem Listable.record (h : Listable store) {r : KeyRecord}
    (hr : r ∈ (stateOf store).records) : FitsKeyEntry r.keyEntry := by
  obtain ⟨key, hkey, hread⟩ := (mem_records store).mp hr
  rw [collectKey_eq] at hread
  obtain ⟨⟨objectType, answer⟩, hlocated, rfl⟩ := Option.map_eq_some_iff.mp hread
  exact (fits_recordOf hlocated).mpr (h.keys key hkey objectType answer hlocated)

theorem Listable.recordCount (h : Listable store) :
    (stateOf store).records.length < 2 ^ 64 := by
  rw [length_records]
  exact h.keyCount

/-- A volume has at most the keys there are. -/
theorem Listable.volume (h : Listable store) {v : Volume}
    (hv : v ∈ (stateOf store).volumes) : FitsVolume v := by
  obtain ⟨entry, hentry, rfl⟩ := List.mem_map.mp hv
  refine ⟨(h.volumes entry hentry).1, (h.volumes entry hentry).2, ?_⟩
  rw [numKeys_eq store hv]
  refine lt_of_le_of_lt (List.countP_mono_left fun key _ hread => ?_) h.keyCount
  exact (Bool.and_eq_true_iff.mp hread).1

/-- A child one level below a prefix is a beginning of a key. -/
theorem childOf_begins {parent : Text} {r : KeyRecord} (h : parentDot parent <+: r.key) :
    childOf parent r <+: r.key := by
  obtain ⟨rest, hkey⟩ := h
  unfold childOf
  rw [← hkey, List.drop_left]
  exact List.prefix_append_right_inj _ |>.mpr (List.takeWhile_prefix _)

theorem Listable.child (h : Listable store) {parent : Text} {p : KeyPrefix}
    (hp : p ∈ children (stateOf store).records parent) : FitsKeyPrefix p := by
  rw [children_eq] at hp
  obtain ⟨⟨child, members⟩, hgroup, rfl⟩ := List.mem_map.mp hp
  obtain ⟨⟨r, hbelow, hchild⟩, hmembers⟩ := mem_grouped.mp hgroup
  obtain ⟨hr, hparent⟩ := List.mem_filter.mp hbelow
  have hlength : members.length < 2 ^ 64 := by
    refine lt_of_le_of_lt ?_ h.recordCount
    rw [hmembers]
    exact (List.length_filter_le _ _).trans (List.length_filter_le _ _)
  have hcount : ∀ f : KeyRecord → Bool, members.countP f < 2 ^ 64 :=
    fun f => lt_of_le_of_lt (List.countP_le_length) hlength
  have hprefix : parentDot parent <+: r.key := by
    rcases of_decide_eq_true hparent with rfl | hparent
    · exact List.nil_prefix
    · exact hparent
  have hspelled : Sayable child := by
    rw [← hchild]
    exact (h.record hr).key.subset (childOf_begins hprefix).subset
  exact ⟨hspelled, hlength, hcount _, hcount _, hcount _, hcount _⟩

theorem Spelled.group (h : Spelled torch store) {group : Text} {members : List Volume}
    (hgroup : (group, members) ∈ (stateOf store).groups.entries) :
    FitsVolumeGroup (volumeGroup group members) := by
  obtain ⟨v, hv, rfl, rfl⟩ := mem_groups.mp hgroup
  have hlength : ((stateOf store).volumes.filter (·.hostname = v.hostname)).length < 2 ^ 64 := by
    refine lt_of_le_of_lt (List.length_filter_le _ _) ?_
    rw [length_volumes]
    exact h.volumeCount
  refine ⟨sayable_append.mpr ⟨sayable_map _, (h.listable.volume hv).hostname⟩, hlength, ?_, hlength⟩
  show (List.map Volume.numKeys _).sum < 2 ^ 64
  rw [sum_numKeys]
  exact h.placements v.hostname

theorem Spelled.summary (h : Spelled torch store) (now : String) :
    FitsSummary (buildSummary store now) := by
  have hpartial : (stateOf store).records.countP KeyRecord.isPartial < 2 ^ 64 :=
    lt_of_le_of_lt List.countP_le_length h.listable.recordCount
  have hversion : schemaVersion < 2 ^ 32 := by decide
  refine ⟨hversion, sayable_map _, sayable_map _, h.strategyName, ⟨?_, h.listable.recordCount, hpartial⟩,
    ?_, fun p hp => h.listable.child hp, ?_⟩
  · show (stateOf store).volumes.length < 2 ^ 64
    rw [length_volumes]
    exact h.volumeCount
  · intro g hg
    obtain ⟨⟨group, members⟩, hgroup, rfl⟩ := List.mem_map.mp hg
    exact h.group ((List.perm_insertionSort _ _).mem_iff.mp hgroup)
  · intro b hb
    have hcommitted : (stateOf store).records.length
        - (stateOf store).records.countP KeyRecord.isPartial < 2 ^ 64 :=
      lt_of_le_of_lt (Nat.sub_le _ _) h.listable.recordCount
    rcases List.mem_append.mp hb with hb | hb
    · split at hb
      · cases hb
      · rw [List.mem_singleton.mp hb]
        exact ⟨(by norm_num : 100 < 2 ^ 64), hcommitted⟩
    · split at hb
      · cases hb
      · rw [List.mem_singleton.mp hb]
        exact ⟨(by norm_num : 0 < 2 ^ 64), hpartial⟩

/-- A group of a request is a group of volumes. -/
theorem mem_of_membersOf {group : Json} {members : List Volume}
    (h : membersOf (stateOf store) group = .ok members) {v : Volume} (hv : v ∈ members) :
    v ∈ (stateOf store).volumes := by
  unfold membersOf at h
  split at h
  · next t =>
      cases h
      unfold Dict.getD at hv
      cases hgroup : (stateOf store).groups.get? t with
      | none => rw [hgroup] at hv; cases hv
      | some members =>
          rw [hgroup] at hv
          obtain ⟨w, _, _, rfl⟩ := mem_groups.mp ((Dict.get?_eq_some_iff _ _ _).mp hgroup)
          exact List.mem_of_mem_filter hv
  · split at h
    · cases h
      cases hv
    · cases h

theorem Spelled.keyEntry (h : Spelled torch store) {spell : Json → Text} {req : Request}
    {entry : KeyEntry} (hentry : buildKey spell store req = .ok entry) : FitsKeyEntry entry := by
  unfold buildKey at hentry
  split at hentry
  · cases hentry
  · next key hkey _ =>
      rw [collectKey_eq] at hentry
      cases hlocated : located store key with
      | none => rw [hlocated] at hentry; cases hentry
      | some found =>
          rw [hlocated] at hentry
          cases hentry
          exact (fits_recordOf hlocated).mpr (h.keys key (.inl hkey) _ _ hlocated)
  · split at hentry
    · cases hentry
    · split at hentry <;> cases hentry

theorem Spelled.peek (h : Spelled torch store) {spell : Json → Text} {req : Request} {p : Peek}
    (hp : buildPeek spell torch store req = .ok p) : FitsPeek p := by
  unfold buildPeek at hp
  split at hp
  · cases hp
  · next key hkey _ =>
      split at hp
      · next t hfetch =>
          refine (fits_peekStats hp).mpr (h.tensors key t hkey hfetch ?_)
          intro hnil
          unfold peekStats at hp
          rw [hnil] at hp
          cases hp
      · cases hp
  · split at hp <;> cases hp

theorem fits_mapPage {α : Type} {Row : α → Prop} {f : α → SearchMatch}
    (h : ∀ a, Row a → FitsMatch (f a)) {answer : Except Exc (List α × Option Text)}
    {page : List SearchMatch × Option Text} (hpage : answer.map (mapPage f) = .ok page)
    (hrows : ∀ page', answer = .ok page' → FitsPage Row page') : FitsPage FitsMatch page := by
  cases answer with
  | error e => cases hpage
  | ok page' =>
      cases hpage
      refine ⟨fun m hm => ?_, (hrows page' rfl).nextCursor⟩
      obtain ⟨a, ha, rfl⟩ := List.mem_map.mp hm
      exact h a ((hrows page' rfl).rows a ha)

theorem Listable.search (h : Listable store) {U : Unicode} {req : Request}
    {page : List SearchMatch × Option Text}
    (hpage : buildSearch U (stateOf store) req = .ok page) : FitsPage FitsMatch page := by
  unfold buildSearch at hpage
  dsimp only at hpage
  split at hpage
  · unfold volumeMatches at hpage
    cases hkept : keep _ (stateOf store).groups.values.flatten with
    | error e => rw [hkept] at hpage; cases hpage
    | ok rows =>
        rw [hkept] at hpage
        refine fits_mapPage (fun _ hv => hv) hpage fun page' hpage' => ?_
        refine fits_listResponse hpage' fun v hv => h.volume ?_
        obtain ⟨members, hmembers, hv⟩ := List.mem_flatten.mp (mem_of_keep _ _ hkept v hv)
        obtain ⟨⟨group, _⟩, hgroup, rfl⟩ := List.mem_map.mp hmembers
        obtain ⟨w, _, _, rfl⟩ := mem_groups.mp hgroup
        exact List.mem_of_mem_filter hv
  · unfold keyMatches at hpage
    cases hkept : keep _ (stateOf store).records with
    | error e => rw [hkept] at hpage; cases hpage
    | ok rows =>
        rw [hkept] at hpage
        refine fits_mapPage (fun _ he => he) hpage fun page' hpage' => ?_
        refine fits_listResponse hpage' fun e he => ?_
        obtain ⟨r, hr, rfl⟩ := List.mem_map.mp he
        exact h.record (mem_of_keep _ _ hkept r hr)

end

/-! ## §6. Every response. -/

section

variable (U : Unicode) (spell : Json → Text) (torch : Torch) (store : Store)

theorem get_cons (name : String) (value : Json) (req : Request) :
    Request.get ((text name, value) :: req) name = value := by
  unfold Request.get Request.get?
  rw [List.find?_cons_of_pos (by simp)]
  rfl

theorem get_cons_of_ne {name other : String} (h : text name ≠ text other) (value : Json)
    (req : Request) : Request.get ((text name, value) :: req) other = req.get other := by
  unfold Request.get Request.get?
  rw [List.find?_cons_of_neg (by simpa using h)]

theorem patternIn_nil (t : Text) : patternIn (.str []) t = .ok true :=
  congrArg Except.ok (decide_eq_true List.nil_infix)

/-- A search without a pattern, of at most `n` rows. -/
def searchAll (kind : String) (n : ℕ) : Request :=
  [(text "limit", .int n), (text "kind", .str (text kind))]

theorem get_searchAll {kind : String} {n : ℕ} {name : String} (hlimit : text "limit" ≠ text name)
    (hkind : text "kind" ≠ text name) : (searchAll kind n).get name = .null :=
  (get_cons_of_ne hlimit _ _).trans (get_cons_of_ne hkind _ _)

/-- Every row is on the page of a search for all. -/
theorem listResponse_searchAll {α : Type} (s : Sorting α) (kind : String) (rows : List α) :
    ∃ page, listResponse U s rows (searchAll kind rows.length) = .ok page ∧
      ∀ a ∈ rows, a ∈ page.1 :=
  listResponse_all s (get_searchAll (by decide) (by decide)) (get_cons _ _ _)
    (get_searchAll (by decide) (by decide))

theorem pattern_searchAll (kind : String) (n : ℕ) :
    ((searchAll kind n).get "pattern").orText "" = .str [] := by
  rw [get_searchAll (by decide) (by decide)]
  rfl

theorem searchesVolumes_searchAll (kind : String) (n : ℕ) :
    (searchAll kind n).searchesVolumes = decide (text kind = text "volume") := by
  have hkind : (searchAll kind n).get? "kind" = some (.str (text kind)) := by
    unfold Request.get? searchAll
    have hne : text "limit" ≠ text "kind" := by decide
    rw [List.find?_cons_of_neg (by simpa using hne), List.find?_cons_of_pos (by simp)]
    rfl
  unfold Request.searchesVolumes
  rw [hkind]
  rfl

/-- A search finds every key. -/
theorem search_keys : ∃ n page, buildSearch U (stateOf store) (searchAll "key" n) = .ok page ∧
    ∀ r ∈ (stateOf store).records, .key r.keyEntry ∈ page.1 := by
  have hmatches : keyMatches (stateOf store) (.str [])
      = .ok ((stateOf store).records.map KeyRecord.keyEntry) := by
    have hall : keep (fun r : KeyRecord => patternIn (.str []) r.key) (stateOf store).records
        = .ok (stateOf store).records := keep_all _ fun r => patternIn_nil r.key
    unfold keyMatches
    rw [hall]
    rfl
  obtain ⟨page, hpage, hall⟩ := listResponse_searchAll U sortKeyMatches "key"
    ((stateOf store).records.map KeyRecord.keyEntry)
  refine ⟨((stateOf store).records.map KeyRecord.keyEntry).length, mapPage .key page, ?_,
    fun r hr => List.mem_map_of_mem (hall _ (List.mem_map_of_mem hr))⟩
  unfold buildSearch
  dsimp only
  rw [searchesVolumes_searchAll, if_neg (by decide), pattern_searchAll, hmatches]
  dsimp only [Except.bind]
  rw [hpage]
  rfl

/-- And every volume. -/
theorem search_volumes : ∃ n page,
    buildSearch U (stateOf store) (searchAll "volume" n) = .ok page ∧
      ∀ v ∈ (stateOf store).volumes, .volume v ∈ page.1 := by
  have hmatches : volumeMatches (stateOf store) (.str [])
      = .ok (stateOf store).groups.values.flatten := by
    unfold volumeMatches
    refine keep_all _ fun v => ?_
    rw [patternIn_nil]
    rfl
  obtain ⟨page, hpage, hall⟩ := listResponse_searchAll U sortVolumes "volume"
    (stateOf store).groups.values.flatten
  refine ⟨(stateOf store).groups.values.flatten.length, mapPage .volume page, ?_, fun v hv => ?_⟩
  · unfold buildSearch
    dsimp only
    rw [searchesVolumes_searchAll, if_pos (by decide), pattern_searchAll, hmatches]
    dsimp only [Except.bind]
    rw [hpage]
    rfl
  · have hgroup := mem_groups.mpr ⟨v, hv, rfl, rfl⟩
    have hmember : v ∈ (stateOf store).volumes.filter (·.hostname = v.hostname) :=
      List.mem_filter.mpr ⟨hv, decide_eq_true rfl⟩
    exact List.mem_map_of_mem
      (hall v (List.mem_flatten.mpr ⟨_, List.mem_map.mpr ⟨_, hgroup, rfl⟩, hmember⟩))

/-- Asking for a key that is read answers with its row. -/
theorem respond_key (now : String) {key : Text} (hkey : key ≠ []) {objectType : ObjectType}
    {answer : Meta} (hlocated : located store key = some (objectType, answer)) :
    respond U spell torch store now .key [(text "key", .str key)]
      = .ok (.key (recordOf store key objectType answer).keyEntry) := by
  have hread : buildKey spell store [(text "key", .str key)]
      = .ok (recordOf store key objectType answer).keyEntry := by
    unfold buildKey
    rw [get_cons]
    cases key with
    | nil => exact absurd rfl hkey
    | cons c key =>
        dsimp only
        rw [collectKey_eq, hlocated]
        rfl
  show (buildKey spell store _).map Response.key = _
  rw [hread]
  rfl

/-- Peeking at a tensor answers with its stats. -/
theorem respond_peek (now : String) {key : Text} (hkey : key ≠ []) {t : Tensor}
    (hfetch : store.fetch key = some (.tensor t)) :
    respond U spell torch store now .peek [(text "key", .str key)]
      = (peekStats torch t).map .peek := by
  show (buildPeek spell torch store _).map Response.peek = _
  unfold buildPeek
  rw [get_cons]
  cases key with
  | nil => exact absurd rfl hkey
  | cons c key =>
      dsimp only
      rw [hfetch]

section

variable {U spell torch store} {now : String} {op : Aggregator.Op} {req : Request}
  {r : Response}

/-- A response is built by its builder. -/
theorem of_map_response {α : Type} {answer : Except Exc α} {f : α → Response}
    (h : answer.map f = .ok r) : ∃ a, answer = .ok a ∧ f a = r := by
  cases answer with
  | error e => cases h
  | ok a =>
      cases h
      exact ⟨a, rfl, rfl⟩

/-- The pages of a listable store fit. -/
theorem Listable.fits (h : Listable store)
    (hop : op = .expandPrefix ∨ op = .listVolumes ∨ op = .search)
    (hrespond : respond U spell torch store now op req = .ok r) : Fits r := by
  rcases hop with rfl | rfl | rfl
  · obtain ⟨page, hpage, rfl⟩ := of_map_response hrespond
    exact fits_listResponse hpage fun p hp => h.child hp
  · obtain ⟨page, hpage, rfl⟩ := of_map_response hrespond
    unfold buildListVolumes at hpage
    cases hmembers : membersOf (stateOf store) ((req.get "group").orText "") with
    | error e => rw [hmembers] at hpage; cases hpage
    | ok members =>
        rw [hmembers] at hpage
        exact fits_listResponse hpage fun v hv => h.volume (mem_of_membersOf hmembers hv)
  · obtain ⟨page, hpage, rfl⟩ := of_map_response hrespond
    exact h.search hpage

/-- What a spelled store answers fits. -/
theorem Spelled.fits (h : Spelled torch store)
    (hrespond : respond U spell torch store now op req = .ok r) : Fits r := by
  cases op with
  | summary =>
      cases hrespond
      exact h.summary now
  | expandPrefix => exact h.listable.fits (.inl rfl) hrespond
  | listVolumes => exact h.listable.fits (.inr (.inl rfl)) hrespond
  | key =>
      obtain ⟨entry, hentry, rfl⟩ := of_map_response hrespond
      exact h.keyEntry hentry
  | search => exact h.listable.fits (.inr (.inr rfl)) hrespond
  | peek =>
      obtain ⟨p, hp, rfl⟩ := of_map_response hrespond
      exact h.peek hp

end

/-- **Every response decoded as it was built**: over every store, every response
that a builder gives to any request at any instant is read by the terminal UI as
the type of the request with every field the same, and a search row as a key just
where it was built from one, if and only if the store can be spelled. -/
theorem decoded_iff : (∀ now op req r,
    respond U spell torch store now op req = .ok r → Decoded r) ↔ Spelled torch store := by
  constructor
  · intro h
    have hfits : ∀ now op req r, respond U spell torch store now op req = .ok r → Fits r :=
      fun now op req r hrespond => (decoded_iff_fits r).mp (h now op req r hrespond)
    have hsummary : FitsSummary (buildSummary store "") := hfits "" .summary [] _ rfl
    have hvolumes : ∀ v ∈ (stateOf store).volumes, FitsVolume v := by
      obtain ⟨n, page, hpage, hall⟩ := search_volumes U store
      have hfits := hfits "" .search (searchAll "volume" n) (.search page)
        (by rw [respond, hpage]; rfl)
      exact fun v hv => hfits.rows _ (hall v hv)
    have hrecords : ∀ r ∈ (stateOf store).records, FitsKeyEntry r.keyEntry := by
      obtain ⟨n, page, hpage, hall⟩ := search_keys U store
      have hfits := hfits "" .search (searchAll "key" n) (.search page)
        (by rw [respond, hpage]; rfl)
      exact fun r hr => hfits.rows _ (hall r hr)
    refine ⟨hsummary.strategy, ?_, ?_, ?_, ?_, ?_, ?_⟩
    · intro entry hentry
      obtain ⟨v, hv, hid, hhost⟩ : ∃ v ∈ (stateOf store).volumes, v.volumeId = entry.1 ∧
          v.hostname = entry.2 := mem_volumes hentry
      rw [← hid, ← hhost]
      exact ⟨(hvolumes v hv).volumeId, (hvolumes v hv).hostname⟩
    · have hcount : (stateOf store).volumes.length < 2 ^ 64 := hsummary.totals.volumes
      rw [length_volumes] at hcount
      exact hcount
    · have hcount : (stateOf store).records.length < 2 ^ 64 := hsummary.totals.keys
      rw [length_records] at hcount
      exact hcount
    · intro host
      rw [← sum_numKeys]
      cases hhost : (stateOf store).volumes.filter (·.hostname = host) with
      | nil => exact Nat.two_pow_pos 64
      | cons v rest =>
          -- a host with a volume has its group in the summary
          obtain ⟨hv, hname⟩ := List.mem_filter.mp (hhost ▸ List.mem_cons_self)
          have hgroup := mem_groups.mpr ⟨v, hv, rfl, rfl⟩
          have hfits := hsummary.volumeGroups _ (List.mem_map.mpr
            ⟨_, (List.perm_insertionSort _ _).mem_iff.mpr hgroup, rfl⟩)
          rw [← hhost, ← of_decide_eq_true hname]
          exact hfits.keys
    · intro key hkey objectType answer hlocated
      rw [← fits_recordOf hlocated]
      rcases hkey with hkey | hkey
      · exact hfits "" .key _ _ (respond_key U spell torch store "" hkey hlocated)
      · refine hrecords _ ((mem_records store).mpr ⟨key, hkey, ?_⟩)
        rw [collectKey_eq, hlocated]
        rfl
    · intro key t hkey hfetch hflat
      obtain ⟨p, hp⟩ : ∃ p, peekStats torch t = .ok p := by
        unfold peekStats
        cases hcases : t.flat with
        | nil => exact absurd hcases hflat
        | cons x rest => exact ⟨_, rfl⟩
      have hrespond := respond_peek U spell torch store "" hkey hfetch
      rw [hp] at hrespond
      exact (fits_peekStats hp).mp (hfits "" .peek _ _ hrespond)
  · intro h now op req r hrespond
    exact (decoded_iff_fits r).mpr (h.fits hrespond)

end

/-- One tensor, with one element that is no number. -/
def nanTensor : Tensor := ⟨⟨text "float32", 4⟩, [1], [.nan]⟩

/-- A store that holds it under one key. -/
def nanStore : Store where
  controller :=
    { keys := [text "w"]
      locateVolumes := fun key =>
        if key = text "w" then
          Dict.ofKeys [text "volume"] (List.nodup_singleton _) fun _ => ⟨.tensor, []⟩
        else Dict.empty }
  strategy :=
    { volumeIdToHostname :=
        Dict.ofKeys [text "volume"] (List.nodup_singleton _) fun _ => text "host0"
      getMeta := fun _ _ => some (.sized nanTensor.shape nanTensor.dtype) }
  strategyName := text "LocalRankStrategy"
  fetch key := if key = text "w" then some (.tensor nanTensor) else none

/-- Peeking at it answers with stats that the terminal UI cannot read. -/
theorem nan_not_decoded : ¬ ∀ now op req r, respond ascii (fun _ => [])
    ⟨fun _ => .nan, fun _ => .nan⟩ nanStore now op req = .ok r → Decoded r := by
  intro h
  have hkey : text "w" ≠ [] := by decide
  have hfetch : nanStore.fetch (text "w") = some (.tensor nanTensor) := by
    unfold nanStore
    dsimp only
    rw [if_pos rfl]
  have hrespond := respond_peek ascii (fun _ => []) ⟨fun _ => .nan, fun _ => .nan⟩ nanStore ""
    hkey hfetch
  have hfits := (decoded_iff_fits _).mp (h "" .peek _ _ hrespond)
  exact hfits.min

end Toso.Contract
