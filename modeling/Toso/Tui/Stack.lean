/-
  Toso.Tui.Stack — the terminal UI against the aggregator.

  A command is written as a request object, the aggregator answers it from the store,
  and its line is read as the message the reducer consumes.  What becomes of a request
  is one of two things: its own answer, or a failure.  The store does not change, and a
  request object arrives as it was written.

  Main results:
    * `listResponse_eq` — a page request is answered with the slice its cursor names.
    * `Stack.answer_serves` — of what the client reads, with the store's own lists as the
      lists of the server.
    * `Stack.stack_sliced` — the lists of the UI over the aggregator, over every run.
-/
import Toso.Tui.Agreement
import Toso.Tui.Paging
import Toso.StoreReader.Aggregator

namespace Toso.Tui

open Lib Lib.Wire StoreReader Contract

/-! ## §1. What a command asks. -/

/-- A string of the client, as it is read. -/
def word (s : String) : Json := .str (text s)

/-- An optional string; `None` is null. -/
def wordOrNull (o : Option String) : Json := (o.map word).getD .null

/-- The sort keys, in `snake_case`. -/
def SortKey.word : SortKey → String
  | .partialFirst => "partial"
  | .bytes => "bytes"
  | .reachable => "reachable"
  | .keys => "keys"
  | .name => "name"

def Order.word : Order → String
  | .asc => "asc"
  | .desc => "desc"

def SearchKind.word : SearchKind → String
  | .key => "key"
  | .volume => "volume"

/-- The fields every page request ends with. -/
def pageFields (cursor : Option String) (sort : SortKey) (order : Order) : Request :=
  [(text "limit", .int pageLimit), (text "cursor", wordOrNull cursor),
    (text "sort_by", word sort.word), (text "order", word order.word)]

/-- `run_cmd` up to the provider: the request a command is written as, tagged by its `op`. -/
def Issued.request (q : Issued) : Request :=
  match q.cmd with
  | .fetchSummary => [(text "op", word "summary")]
  | .expandPrefix pre cursor _ =>
      (text "op", word "expand_prefix") :: (text "prefix", word pre) ::
        pageFields cursor q.sort q.order
  | .listVolumes group cursor _ =>
      (text "op", word "list_volumes") :: (text "group", word group) ::
        pageFields cursor q.sort q.order
  | .fetchKey key _ => [(text "op", word "key"), (text "key", word key)]
  | .search kind pattern cursor _ =>
      (text "op", word "search") :: (text "kind", word kind.word) ::
        (text "pattern", word pattern) :: pageFields cursor q.sort q.order
  | .peek key coordinates _ =>
      [(text "op", word "peek"), (text "key", word key),
        (text "coordinates", (coordinates.map fun l => ints (l.map Int.ofNat)).getD .null)]

/-! ## §2. What it is answered. -/

/-- What the aggregator is made of besides its builders. -/
structure Stack where
  unicode : Unicode
  /-- What an f-string makes of a value, and what `!r` does. -/
  spell : Json → Text
  repr : Json → Except Aggregator.Raised Text
  /-- `str(e)`. -/
  message : Exc → Text
  torch : Torch
  store : Store
  /-- What the client says of a line it cannot read. -/
  unread : Written → String

namespace Stack

variable (k : Stack)

/-- An exception, as the guard of a request sees it. -/
def raised : Exc → Aggregator.Raised
  | .keyError message => .keyError message
  | .typeError => .other (text "TypeError") (k.message .typeError)
  | .valueError => .other (text "ValueError") (k.message .valueError)
  | .overflowError => .other (text "OverflowError") (k.message .overflowError)
  | .runtimeError => .other (text "RuntimeError") (k.message .runtimeError)

/-- What the builder of a request's operation builds at `now`. -/
def built (now : String) (req : Request) : Except Aggregator.Raised Json :=
  match Aggregator.opOf (req.get "op") with
  | none => .ok .null
  | some op =>
      match respond k.unicode k.spell k.torch k.store now op req with
      | .error e => .error (k.raised e)
      | .ok r => .ok r.dict

/-- The line a request is answered with. -/
def line (now : String) (req : Request) : Written :=
  (Aggregator.guarded (Aggregator.dispatch k.repr req (k.built now req))).dumps

end Stack

/-! ## §3. How it is read. -/

/-- The fields of a record that the reducer reads. -/
def ofKeyPrefix (r : Model.KeyPrefix) : KeyPrefix := ⟨r.keyPrefix, r.isLeaf⟩

def ofVolume (r : Model.Volume) : Volume := ⟨r.volumeId⟩

def ofObjectType : Model.ObjectType → ObjectType
  | .object => .object
  | .tensor => .tensor
  | .tensorSlice => .tensorSlice

def ofShard (r : Model.Shard) : Shard := ⟨r.coordinates.map BitVec.toNat⟩

def ofKeyEntry (r : Model.KeyEntry) : KeyEntry :=
  ⟨r.key, ofObjectType r.objectType, r.shards.map ofShard⟩

def ofMatch : Model.SearchMatch → SearchMatch
  | .key entry => .key (ofKeyEntry entry)
  | .volume v => .volume (ofVolume v)

def ofSummary (r : Model.Summary) : Summary :=
  ⟨r.volumeGroups.map fun g => ⟨g.group⟩, r.keyPrefixes.map ofKeyPrefix⟩

def ofPeek (r : Model.PeekResult) : PeekResult := ⟨r.dtype, r.shape.map BitVec.toNat⟩

namespace Stack

variable (k : Stack)

/-- `parse_response`. -/
def parse {β : Type} (read : Reader β) (line : Written) : Except String β :=
  match document read line with
  | none => .error (k.unread line)
  | some value => .ok value

/-- The message a command comes back with, once its line is there. -/
def reply (q : Issued) (line : Written) : Msg :=
  match q.cmd with
  | .fetchSummary => .summaryLoaded ((k.parse Model.Summary.read line).map ofSummary)
  | .expandPrefix _ _ id => .prefixPage id
      ((k.parse (Model.Page.read "children" Model.KeyPrefix.read) line).map fun page =>
        ⟨page.rows.map ofKeyPrefix, page.nextCursor⟩)
  | .listVolumes _ _ id => .volumesPage id
      ((k.parse (Model.Page.read "volumes" Model.Volume.read) line).map fun page =>
        ⟨page.rows.map ofVolume, page.nextCursor⟩)
  | .fetchKey _ id => .keyLoaded id ((k.parse Model.KeyEntry.read line).map ofKeyEntry)
  | .search _ _ _ id => .searchResults id
      ((k.parse (Model.Page.read "matches" Model.SearchMatch.read) line).map fun page =>
        ⟨page.rows.map ofMatch, page.nextCursor⟩)
  | .peek _ _ id => .peekLoaded id ((k.parse Model.PeekResult.read line).map ofPeek)

/-- The same message, of a request that failed. -/
def failed (q : Issued) (e : String) : Msg :=
  match q.cmd with
  | .fetchSummary => .summaryLoaded (.error e)
  | .expandPrefix _ _ id => .prefixPage id (.error e)
  | .listVolumes _ _ id => .volumesPage id (.error e)
  | .fetchKey _ id => .keyLoaded id (.error e)
  | .search _ _ _ id => .searchResults id (.error e)
  | .peek _ _ id => .peekLoaded id (.error e)

/-- A command's own answer at `now`. -/
def answer (now : String) (q : Issued) : Msg := k.reply q (k.line now q.request)

end Stack

/-! ## §4. Texts of both sides. -/

/-- The string of a text without surrogates. -/
def spoken (t : Text) : String := String.ofList ((points t).map Char.ofNat)

theorem spoken_eq {t : Text} {s : String} (h : Said t s) : s = spoken t := by
  unfold spoken
  rw [← show Utf16.ofString s = points t from h]
  unfold Utf16.ofString
  rw [Utf16.map_ofNat_toNat, String.ofList_toList]

/-- Texts that a string can hold are told apart by their strings. -/
theorem spoken_inj {t u : Text} (ht : Sayable t) (hu : Sayable u) (h : spoken t = spoken u) :
    t = u := by
  have hlist := congrArg (fun s => Utf16.ofString s) h
  unfold spoken Utf16.ofString at hlist
  simp only [String.toList_ofList] at hlist
  rw [Utf16.map_toNat_ofNat ht, Utf16.map_toNat_ofNat hu] at hlist
  exact List.map_injective_iff.mpr Fin.val_injective hlist

theorem spoken_text (s : String) : spoken (text s) = s := by
  refine (spoken_eq ?_).symm
  exact (Json.points_text s).symm

theorem text_repr (n : ℕ) : text (Nat.repr n) = intText n := by
  show (Nat.repr n).toList.map codePoint = (Nat.toDigits 10 n).map codePoint
  rw [Nat.toList_repr]

theorem text_eq_nil {s : String} : text s = [] ↔ s = "" := by
  unfold text
  rw [List.map_eq_nil_iff, String.toList_eq_nil_iff]

/-- A string that stands for itself where the default is for the empty one. -/
theorem orText_word {s default : String} (h : s = "" → default = "") :
    (word s).orText default = word s := by
  unfold Json.orText
  split
  · rfl
  · next hfalsy =>
      have hnil : text s = [] := by simpa [word, Json.truthy] using hfalsy
      rw [word, hnil, h (text_eq_nil.mp hnil)]
      rfl

/-! ## §5. Lists of both sides. -/

section

variable {α β γ : Type}

/-- The figure a sort key stands for. -/
def figureOf (s : Sorting α) (sort : SortKey) : α → Figure :=
  ((s.table.find? fun entry => (word sort.word).isText (text entry.1)).map Prod.snd).getD
    s.fallback

/-- Rows in the order the aggregator lists them. -/
def arranged (s : Sorting α) (sort : SortKey) (order : Order) (rows : List α) : List α :=
  pySorted (reverseOrder (word sort.word) (word order.word)) (figureOf s sort) rows

theorem arranged_perm (s : Sorting α) (sort : SortKey) (order : Order) (rows : List α) :
    (arranged s sort order rows).Perm rows := pySorted_perm _ _ _

theorem sort_eq (s : Sorting α) (sort : SortKey) (order : Order) (rows : List α) :
    s.sort rows (word sort.word) (word order.word) = .ok (arranged s sort order rows) := by
  have hkey : (word sort.word).orText s.default = word sort.word := by
    refine orText_word fun h => ?_
    cases sort <;> exact absurd h (by decide)
  unfold Sorting.sort
  rw [hkey]
  rfl

/-- The cursors of the source. -/
def cursors (U : Unicode) : Cursors String where
  name := Nat.repr
  row s :=
    match decodeCursor U (word s) with
    | .ok n => n.toNat
    | .error _ => 0
  row_name n := by
    rw [word, text_repr, decodeCursor_intText]
    exact Int.toNat_natCast n

/-- A string is some row's cursor. -/
theorem decodeCursor_word (U : Unicode) (s : String) :
    decodeCursor U (word s) = .ok ((cursors U).row s) := by
  have hsome : ∃ n : ℤ, 0 ≤ n ∧ decodeCursor U (word s) = .ok n := by
    unfold decodeCursor
    split
    · cases hint : pyInt U (text s) with
      | none =>
          have hread : (word s).toInt U = .error .valueError := by
            simp only [word, Json.toInt, hint]
          rw [hread]
          exact ⟨0, le_refl 0, rfl⟩
      | some n =>
          have hread : (word s).toInt U = .ok n := by
            simp only [word, Json.toInt, hint]
          rw [hread]
          exact ⟨max 0 n, le_max_left 0 n, rfl⟩
    · exact ⟨0, le_refl 0, rfl⟩
  obtain ⟨n, hpos, hn⟩ := hsome
  have hrow : (cursors U).row s = n.toNat := by
    simp only [cursors, hn]
  rw [hn, hrow]
  exact congrArg Except.ok (Int.toNat_of_nonneg hpos).symm

theorem decodeCursor_start (U : Unicode) (cursor : Option String) :
    decodeCursor U (wordOrNull cursor) = .ok ((cursors U).start cursor) := by
  cases cursor with
  | none => rfl
  | some s => exact decodeCursor_word U s

/-- The request asks for a page. -/
structure Asks (req : Request) (cursor : Option String) (sort : SortKey) (order : Order) :
    Prop where
  limit : req.get "limit" = .int pageLimit
  cursor : req.get "cursor" = wordOrNull cursor
  sortBy : req.get "sort_by" = word sort.word
  order : req.get "order" = word order.word

theorem asks_pageFields (cursor : Option String) (sort : SortKey) (order : Order) :
    Asks (pageFields cursor sort order) cursor sort order where
  limit := get_cons _ _ _
  cursor := (get_cons_of_ne (by decide) _ _).trans (get_cons _ _ _)
  sortBy := (get_cons_of_ne (by decide) _ _).trans
    ((get_cons_of_ne (by decide) _ _).trans (get_cons _ _ _))
  order := (get_cons_of_ne (by decide) _ _).trans
    ((get_cons_of_ne (by decide) _ _).trans
      ((get_cons_of_ne (by decide) _ _).trans (get_cons _ _ _)))

/-- A field more. -/
theorem Asks.cons {req : Request} {cursor : Option String} {sort : SortKey} {order : Order}
    (h : Asks req cursor sort order) {name : String} (value : Json)
    (hname : ∀ other ∈ ["limit", "cursor", "sort_by", "order"], text name ≠ text other) :
    Asks ((text name, value) :: req) cursor sort order where
  limit := (get_cons_of_ne (hname _ (by simp)) _ _).trans h.limit
  cursor := (get_cons_of_ne (hname _ (by simp)) _ _).trans h.cursor
  sortBy := (get_cons_of_ne (hname _ (by simp)) _ _).trans h.sortBy
  order := (get_cons_of_ne (hname _ (by simp)) _ _).trans h.order

/-- A page as it is written. -/
def written (page : List α × Option String) : List α × Option Text := (page.1, page.2.map text)

/-- **A page request** is answered with the slice its cursor names. -/
theorem listResponse_eq (U : Unicode) (s : Sorting α) (rows : List α) {req : Request}
    {cursor : Option String} {sort : SortKey} {order : Order} (h : Asks req cursor sort order) :
    listResponse U s rows req
      = .ok (written ((cursors U).page pageLimit (arranged s sort order rows) cursor)) := by
  unfold listResponse
  rw [h.limit, h.cursor, h.sortBy, h.order, sort_eq]
  show paginate U _ _ _ = _
  rw [paginate_eq U (decodeCursor_start U cursor) rfl]
  unfold written Cursors.page
  rw [slice_eq]
  congr 2
  by_cases hmore : (cursors U).start cursor + pageLimit < (arranged s sort order rows).length
  · rw [if_pos hmore, if_pos (by exact_mod_cast hmore), Option.map_some]
    exact congrArg some (text_repr _).symm
  · rw [if_neg hmore, if_neg (by exact_mod_cast hmore), Option.map_none]

theorem mapPage_written (f : α → β) (C : Cursors String) (limit : ℕ) (full : List α)
    (cursor : Option String) : mapPage f (written (C.page limit full cursor))
      = written (C.page limit (full.map f) cursor) := by
  rw [Cursors.page_map]
  rfl

/-- Rows that are the same are read as the same. -/
theorem map_of_same {Same : α → β → Prop} {ofRow : β → γ} {row : α → γ}
    (hsame : ∀ a r, Same a r → ofRow r = row a) {l : List α} {l' : List β}
    (h : List.Forall₂ Same l l') : l'.map ofRow = l.map row := by
  induction h with
  | nil => rfl
  | cons hhead _ ih => rw [List.map_cons, List.map_cons, hsame _ _ hhead, ih]

/-- **The page the client reads** is that slice of the list it would read. -/
theorem read_page {Same : α → β → Prop} {ofRow : β → γ} {row : α → γ}
    (hsame : ∀ a r, Same a r → ofRow r = row a) {C : Cursors String} {limit : ℕ} {full : List α}
    {cursor : Option String} {m : Model.Page β}
    (h : SamePage Same (written (C.page limit full cursor)) m) :
    (m.rows.map ofRow, m.nextCursor) = C.page limit (full.map row) cursor := by
  obtain ⟨rows, next⟩ := m
  rw [Cursors.page_map, map_of_same hsame h.rows]
  refine Prod.ext rfl ?_
  have hnext := h.nextCursor
  show next = (C.page limit full cursor).2
  unfold written at hnext
  dsimp only at hnext
  cases hcursor : (C.page limit full cursor).2 with
  | none =>
      rw [hcursor] at hnext
      cases hnext
      rfl
  | some s =>
      rw [hcursor] at hnext
      cases hnext with
      | some hsaid => rw [spoken_eq hsaid, spoken_text]

end

/-! ## §6. Rows of both sides. -/

/-- The rows of the aggregator, as the client keeps them. -/
def keyRow (p : StoreReader.KeyPrefix) : KeyPrefix := ⟨spoken p.keyPrefix, p.isLeaf⟩

def volumeRow (v : StoreReader.Volume) : Volume := ⟨spoken v.volumeId⟩

def typeRow : StoreReader.ObjectType → ObjectType
  | .object => .object
  | .tensor => .tensor
  | .tensorSlice => .tensorSlice

def shardRow (s : StoreReader.Shard) : Shard := ⟨s.coordinates.map Int.toNat⟩

def entryRow (e : StoreReader.KeyEntry) : KeyEntry :=
  ⟨spoken e.key, typeRow e.objectType, e.shards.map shardRow⟩

def matchRow : StoreReader.SearchMatch → SearchMatch
  | .key e => .key (entryRow e)
  | .volume v => .volume (volumeRow v)

theorem keyRow_eq {p : StoreReader.KeyPrefix} {r : Model.KeyPrefix} (h : SameKeyPrefix p r) :
    ofKeyPrefix r = keyRow p := by
  unfold ofKeyPrefix keyRow
  rw [spoken_eq h.keyPrefix, h.isLeaf]

theorem volumeRow_eq {v : StoreReader.Volume} {r : Model.Volume} (h : SameVolume v r) :
    ofVolume r = volumeRow v := by
  unfold ofVolume volumeRow
  rw [spoken_eq h.volumeId]

theorem shardRow_eq {s : StoreReader.Shard} {r : Model.Shard} (h : SameShard s r) :
    ofShard r = shardRow s := by
  refine congrArg Shard.mk (map_of_same (fun n b hcount => ?_) h.coordinates)
  rw [← show _ = n from hcount, Int.toNat_natCast]

theorem entryRow_eq {e : StoreReader.KeyEntry} {r : Model.KeyEntry} (h : SameKeyEntry e r) :
    ofKeyEntry r = entryRow e := by
  have htype : ofObjectType r.objectType = typeRow e.objectType := by
    have hsame := h.objectType
    cases htype : e.objectType <;> rw [htype] at hsame <;> rw [show r.objectType = _ from hsame] <;>
      rfl
  unfold ofKeyEntry entryRow
  rw [spoken_eq h.key, htype, map_of_same (fun _ _ hshard => shardRow_eq hshard) h.shards]

theorem matchRow_eq {e : StoreReader.SearchMatch} {r : Model.SearchMatch} (h : SameMatch e r) :
    ofMatch r = matchRow e := by
  cases h with
  | key h => exact congrArg SearchMatch.key (entryRow_eq h)
  | volume h => exact congrArg SearchMatch.volume (volumeRow_eq h)

/-! ## §7. The store as a server. -/

/-- The rows of a list, under every sort and order. -/
def Listing.ofRows {α β : Type} (s : Sorting α) (rows : List α) (row : α → β)
    (h : (rows.map row).Nodup) : Listing β where
  sorted sort order := (arranged s sort order rows).map row
  nodup sort order := (((arranged_perm s sort order rows).map row).nodup_iff).mpr h
  perm sort order sort' order' :=
    ((arranged_perm s sort order rows).trans (arranged_perm s sort' order' rows).symm).map row

/-- Rows with distinct texts that can be spelled are distinct rows. -/
theorem nodup_rows {α β : Type} {rows : List α} {row : α → β} {t : α → Text} (name : β → String)
    (hname : ∀ a, name (row a) = spoken (t a)) (hspelled : ∀ a ∈ rows, Sayable (t a))
    (h : (rows.map t).Nodup) : (rows.map row).Nodup := by
  refine List.Nodup.of_map name ?_
  have hnames : (rows.map row).map name = (rows.map t).map spoken := by
    rw [List.map_map, List.map_map]
    exact List.map_congr_left fun a _ => hname a
  rw [hnames]
  refine h.map_on fun x hx y hy hxy => ?_
  obtain ⟨a, ha, rfl⟩ := List.mem_map.mp hx
  obtain ⟨b, hb, rfl⟩ := List.mem_map.mp hy
  exact spoken_inj (hspelled a ha) (hspelled b hb) hxy

/-- No child is listed twice. -/
theorem nodup_children (records : List KeyRecord) (parent : Text) :
    ((children records parent).map StoreReader.KeyPrefix.keyPrefix).Nodup := by
  rw [children_eq, List.map_map]
  show ((grouped records parent).map Prod.fst).Nodup
  have hperm : (grouped records parent).Perm (groupBy (childOf parent) (below records parent)).entries :=
    List.perm_insertionSort _ _
  exact ((hperm.map _).nodup_iff).mpr (Dict.nodup _)

section

variable (store : Store)

/-- Nor a volume. -/
theorem nodup_volumes :
    ((stateOf store).volumes.map StoreReader.Volume.volumeId).Nodup := by
  have hids : (stateOf store).volumes.map StoreReader.Volume.volumeId
      = store.strategy.volumeIdToHostname.entries.map Prod.fst := by
    show (List.map _ (List.map _ _)) = _
    rw [List.map_map]
    rfl
  rw [hids]
  exact Dict.nodup _

/-- The volumes of a group. -/
def memberRows (group : String) : List StoreReader.Volume :=
  (stateOf store).groups.getD (text group) []

theorem memberRows_eq (group : String) : memberRows store group
    = (stateOf store).volumes.filter fun v => text "host:" ++ v.hostname = text group := by
  show (groupBy _ _).getD _ [] = _
  unfold groupBy
  rw [getD_foldl_joinGroup]
  rfl

/-- The volumes a search finds. -/
def volumeHits (pattern : String) : List StoreReader.Volume :=
  (stateOf store).groups.values.flatten.filter fun v =>
    text pattern <:+: v.volumeId || text pattern <:+: v.hostname

theorem volumes_perm : (stateOf store).groups.values.flatten.Perm (stateOf store).volumes :=
  groupBy_perm _ _ (List.Perm.refl _)

/-- The keys a search finds. -/
def keyHits (pattern : String) : List StoreReader.KeyEntry :=
  ((stateOf store).records.filter fun r => text pattern <:+: r.key).map KeyRecord.keyEntry

/-- What a search keeps, where no match raises. -/
theorem keep_eq {α : Type} {matching : α → Except Exc Bool} {p : α → Bool} (rows : List α)
    (h : ∀ a, matching a = .ok (p a)) : keep matching rows = .ok (rows.filter p) := by
  induction rows with
  | nil => rfl
  | cons row rows ih =>
      unfold keep
      rw [h, ih, List.filter_cons]
      rfl

theorem keyMatches_eq (pattern : String) :
    keyMatches (stateOf store) (word pattern) = .ok (keyHits store pattern) := by
  have hkept : keep (fun r : KeyRecord => patternIn (word pattern) r.key) (stateOf store).records
      = .ok ((stateOf store).records.filter fun r => text pattern <:+: r.key) :=
    keep_eq _ fun _ => rfl
  unfold keyMatches
  rw [hkept]
  rfl

theorem volumeMatches_eq (pattern : String) :
    volumeMatches (stateOf store) (word pattern) = .ok (volumeHits store pattern) := by
  unfold volumeMatches
  refine keep_eq _ fun v => ?_
  show (if decide (text pattern <:+: v.volumeId) = true then pure true else _) = _
  cases decide (text pattern <:+: v.volumeId) <;> rfl

variable {store} (h : Listable store)

include h

theorem nodup_childRows (parent : Text) :
    ((children (stateOf store).records parent).map keyRow).Nodup :=
  nodup_rows KeyPrefix.name (fun _ => rfl) (fun _ hp => (h.child hp).keyPrefix)
    (nodup_children _ _)

theorem nodup_memberRows (group : String) : ((memberRows store group).map volumeRow).Nodup := by
  rw [memberRows_eq]
  exact nodup_rows Volume.volumeId (fun _ => rfl)
    (fun v hv => (h.volume (List.mem_of_mem_filter hv)).volumeId)
    ((nodup_volumes store).sublist (List.filter_sublist.map _))

theorem nodup_volumeHits (pattern : String) :
    ((volumeHits store pattern).map (matchRow ∘ .volume)).Nodup := by
  have hids := ((volumes_perm store).map StoreReader.Volume.volumeId).nodup_iff.mpr
    (nodup_volumes store)
  have hrows : ((volumeHits store pattern).map volumeRow).Nodup :=
    nodup_rows Volume.volumeId (fun _ => rfl)
      (fun v hv => (h.volume ((volumes_perm store).mem_iff.mp (List.mem_of_mem_filter hv))).volumeId)
      (hids.sublist (List.filter_sublist.map _))
  have hmap := hrows.map fun _ _ hab => SearchMatch.volume.inj hab
  rwa [List.map_map] at hmap

theorem nodup_keyHits (hk : store.controller.keys.Nodup) (pattern : String) :
    ((keyHits store pattern).map (matchRow ∘ .key)).Nodup := by
  have hkeys : ((keyHits store pattern).map StoreReader.KeyEntry.key).Nodup := by
    unfold keyHits
    rw [List.map_map]
    exact (nodup_gatherState store.strategy hk).sublist (List.filter_sublist.map _)
  have hrows : ((keyHits store pattern).map entryRow).Nodup := by
    refine nodup_rows KeyEntry.key (fun _ => rfl) (fun e he => ?_) hkeys
    obtain ⟨r, hr, rfl⟩ := List.mem_map.mp he
    exact (h.record (List.mem_of_mem_filter hr)).key
  have hmap := hrows.map fun _ _ hab => SearchMatch.key.inj hab
  rwa [List.map_map] at hmap

end

namespace Stack

variable (k : Stack)

/-- A stack whose lists can be spelled, with no key listed twice. -/
structure Lists : Prop where
  listable : Listable k.store
  keys : k.store.controller.keys.Nodup

variable {k}

/-- The store as a server: every level's list as the aggregator arranges its rows. -/
def Lists.server (h : k.Lists) : Server where
  children pre := .ofRows sortPrefixes (children (stateOf k.store).records (text pre)) keyRow
    (nodup_childRows h.listable _)
  volumes group := .ofRows sortVolumes (memberRows k.store group) volumeRow
    (nodup_memberRows h.listable group)
  hits kind pattern :=
    match kind with
    | .key => .ofRows sortKeyMatches (keyHits k.store pattern) (matchRow ∘ .key)
        (nodup_keyHits h.listable h.keys pattern)
    | .volume => .ofRows sortVolumes (volumeHits k.store pattern) (matchRow ∘ .volume)
        (nodup_volumeHits h.listable pattern)
  cursors := cursors k.unicode

/-- What the aggregator builds of a request is its line. -/
theorem line_eq {now : String} {req : Request} {op : Aggregator.Op} {r : Response}
    (hop : Aggregator.opOf (req.get "op") = some op)
    (hr : respond k.unicode k.spell k.torch k.store now op req = .ok r) :
    k.line now req = r.dict.dumps := by
  have hbuilt : k.built now req = .ok r.dict := by
    unfold built
    rw [hop]
    dsimp only
    rw [hr]
  unfold line Aggregator.dispatch
  rw [hop, hbuilt]
  rfl

/-- A page of a listable store is read as it was built. -/
theorem decoded_of_respond (h : k.Lists) {now : String} {op : Aggregator.Op} {req : Request}
    {r : Response} (hpage : op = .expandPrefix ∨ op = .listVolumes ∨ op = .search)
    (hr : respond k.unicode k.spell k.torch k.store now op req = .ok r) : Decoded r :=
  (decoded_iff_fits r).mpr (h.listable.fits hpage hr)

section

variable (h : k.Lists) (now pre group pattern : String) (cursor : Option String) (id : ℕ)
  (sort : SortKey) (order : Order)

include h

/-- The children of a prefix. -/
theorem serves_expandPrefix : h.server.Serves ⟨.expandPrefix pre cursor id, sort, order⟩
    (k.answer now ⟨.expandPrefix pre cursor id, sort, order⟩) := by
  let req := Issued.request ⟨.expandPrefix pre cursor id, sort, order⟩
  have hasks : Asks req cursor sort order :=
    ((asks_pageFields cursor sort order).cons _ (by decide)).cons _ (by decide)
  have hop : Aggregator.opOf (req.get "op") = some .expandPrefix := by
    rw [show req.get "op" = word "expand_prefix" from get_cons _ _ _]
    decide
  have hparent : parentOf k.spell req = text pre := by
    have hget : req.get "prefix" = word pre :=
      (get_cons_of_ne (by decide) _ _).trans (get_cons _ _ _)
    unfold parentOf
    rw [hget, orText_word fun _ => rfl]
    rfl
  have hr : respond k.unicode k.spell k.torch k.store now .expandPrefix req
      = .ok (.expandPrefix (written ((cursors k.unicode).page pageLimit
          (arranged sortPrefixes sort order (children (stateOf k.store).records (text pre)))
          cursor))) := by
    show (buildExpandPrefix _ _ _ req).map _ = _
    unfold buildExpandPrefix
    rw [hparent, listResponse_eq k.unicode _ _ hasks]
    rfl
  obtain ⟨m, hm, hsame⟩ := decoded_of_respond h (.inl rfl) hr
  have hanswer : k.answer now ⟨.expandPrefix pre cursor id, sort, order⟩
      = .prefixPage id (.ok ⟨m.rows.map ofKeyPrefix, m.nextCursor⟩) := by
    show Msg.prefixPage id ((k.parse _ (k.line now req)).map _) = _
    rw [line_eq hop hr, parse, hm]
    rfl
  rw [hanswer]
  exact read_page (fun _ _ hrow => keyRow_eq hrow) hsame

/-- The volumes of a group. -/
theorem serves_listVolumes : h.server.Serves ⟨.listVolumes group cursor id, sort, order⟩
    (k.answer now ⟨.listVolumes group cursor id, sort, order⟩) := by
  let req := Issued.request ⟨.listVolumes group cursor id, sort, order⟩
  have hasks : Asks req cursor sort order :=
    ((asks_pageFields cursor sort order).cons _ (by decide)).cons _ (by decide)
  have hop : Aggregator.opOf (req.get "op") = some .listVolumes := by
    rw [show req.get "op" = word "list_volumes" from get_cons _ _ _]
    decide
  have hgroup : (req.get "group").orText "" = word group := by
    have hget : req.get "group" = word group :=
      (get_cons_of_ne (by decide) _ _).trans (get_cons _ _ _)
    rw [hget, orText_word fun _ => rfl]
  have hr : respond k.unicode k.spell k.torch k.store now .listVolumes req
      = .ok (.listVolumes (written ((cursors k.unicode).page pageLimit
          (arranged sortVolumes sort order (memberRows k.store group)) cursor))) := by
    show (buildListVolumes _ _ req).map _ = _
    unfold buildListVolumes
    rw [hgroup]
    show (listResponse _ _ (memberRows k.store group) req).map _ = _
    rw [listResponse_eq k.unicode _ _ hasks]
    rfl
  obtain ⟨m, hm, hsame⟩ := decoded_of_respond h (.inr (.inl rfl)) hr
  have hanswer : k.answer now ⟨.listVolumes group cursor id, sort, order⟩
      = .volumesPage id (.ok ⟨m.rows.map ofVolume, m.nextCursor⟩) := by
    show Msg.volumesPage id ((k.parse _ (k.line now req)).map _) = _
    rw [line_eq hop hr, parse, hm]
    rfl
  rw [hanswer]
  exact read_page (fun _ _ hrow => volumeRow_eq hrow) hsame

/-- The hits of a search. -/
theorem serves_search (kind : SearchKind) :
    h.server.Serves ⟨.search kind pattern cursor id, sort, order⟩
      (k.answer now ⟨.search kind pattern cursor id, sort, order⟩) := by
  let req := Issued.request ⟨.search kind pattern cursor id, sort, order⟩
  have hasks : Asks req cursor sort order :=
    (((asks_pageFields cursor sort order).cons _ (by decide)).cons _ (by decide)).cons _ (by decide)
  have hop : Aggregator.opOf (req.get "op") = some .search := by
    rw [show req.get "op" = word "search" from get_cons _ _ _]
    decide
  have hpattern : (req.get "pattern").orText "" = word pattern := by
    have hget : req.get "pattern" = word pattern :=
      (get_cons_of_ne (by decide) _ _).trans
        ((get_cons_of_ne (by decide) _ _).trans (get_cons _ _ _))
    rw [hget, orText_word fun _ => rfl]
  have hkind : req.searchesVolumes = decide (kind = .volume) := by
    have hne : text "op" ≠ text "kind" := by decide
    have hget : req.get? "kind" = some (word kind.word) := by
      unfold Request.get?
      show (List.find? _ (_ :: _ :: _)).map _ = _
      rw [List.find?_cons_of_neg (by simpa using hne), List.find?_cons_of_pos (by simp)]
      rfl
    unfold Request.searchesVolumes
    rw [hget]
    cases kind <;> decide
  -- the rows it lists, whichever kind it looks for
  let full : List StoreReader.SearchMatch := match kind with
    | .key => (arranged sortKeyMatches sort order (keyHits k.store pattern)).map .key
    | .volume => (arranged sortVolumes sort order (volumeHits k.store pattern)).map .volume
  have hr : respond k.unicode k.spell k.torch k.store now .search req
      = .ok (.search (written ((cursors k.unicode).page pageLimit full cursor))) := by
    show (buildSearch _ _ req).map _ = _
    unfold buildSearch
    dsimp only
    rw [hkind, hpattern]
    cases kind with
    | key =>
        rw [if_neg (by decide), keyMatches_eq]
        show ((listResponse _ _ (keyHits k.store pattern) req).map _).map _ = _
        rw [listResponse_eq k.unicode _ _ hasks]
        exact congrArg (fun page => Except.ok (Response.search page)) (mapPage_written _ _ _ _ _)
    | volume =>
        rw [if_pos (by decide), volumeMatches_eq]
        show ((listResponse _ _ (volumeHits k.store pattern) req).map _).map _ = _
        rw [listResponse_eq k.unicode _ _ hasks]
        exact congrArg (fun page => Except.ok (Response.search page)) (mapPage_written _ _ _ _ _)
  obtain ⟨m, hm, hsame⟩ := decoded_of_respond h (.inr (.inr rfl)) hr
  have hanswer : k.answer now ⟨.search kind pattern cursor id, sort, order⟩
      = .searchResults id (.ok ⟨m.rows.map ofMatch, m.nextCursor⟩) := by
    show Msg.searchResults id ((k.parse _ (k.line now req)).map _) = _
    rw [line_eq hop hr, parse, hm]
    rfl
  have hfull : full.map matchRow = ((h.server.hits kind pattern).sorted sort order) := by
    cases kind <;> exact List.map_map
  rw [hanswer]
  show (_, _) = (cursors k.unicode).page pageLimit _ cursor
  rw [← hfull]
  exact read_page (fun _ _ hrow => matchRow_eq hrow) hsame

end

/-- **A page that is answered** is the slice of the store's own list. -/
theorem answer_serves (h : k.Lists) (now : String) (q : Issued) :
    h.server.Serves q (k.answer now q) := by
  obtain ⟨cmd, sort, order⟩ := q
  cases cmd with
  | expandPrefix pre cursor id => exact serves_expandPrefix h now pre cursor id sort order
  | listVolumes group cursor id => exact serves_listVolumes h now group cursor id sort order
  | search kind pattern cursor id => exact serves_search h now pattern cursor id sort order kind
  | fetchSummary | fetchKey _ _ | peek _ _ _ => trivial

/-! ## §8. The loop over the aggregator. -/

theorem failed_serves (srv : Server) (q : Issued) (e : String) : srv.Serves q (failed q e) := by
  obtain ⟨cmd, sort, order⟩ := q
  cases cmd <;> trivial

end Stack

/-- What happens next, of the whole: a response is that of a command under way, taken at
some instant, or that command fails. -/
inductive StackEvent
  | input (rows : ℕ) (k : KeyEvent)
  | resize (rows : ℕ)
  | tick
  | answered (rows : ℕ) (i : ℕ) (now : String)
  | failed (rows : ℕ) (i : ℕ) (error : String)

namespace Stack

variable (k : Stack)

/-- What the loop sees of it. -/
def event (s : Session) : StackEvent → Option Event
  | .input rows key => some (.input rows key)
  | .resize rows => some (.resize rows)
  | .tick => some .tick
  | .answered rows i now => s.flying[i]?.map fun q => .answer rows i (k.answer now q)
  | .failed rows i error => s.flying[i]?.map fun q => .answer rows i (failed q error)

def next (s : Session) (e : StackEvent) : Option Session := (k.event s e).bind s.next

/-- Every run of the loop against the aggregator. -/
def machine : Machine Session StackEvent := .ofPartial (· = Session.start) k.next

variable {k}

/-- What the loop sees is what the store can bring about. -/
theorem event_honest (h : k.Lists) {s : Session} {e : StackEvent} {e' : Event}
    (he : k.event s e = some e') : h.server.Honest s e' := by
  cases e with
  | input | resize | tick =>
      cases he
      trivial
  | answered rows i now =>
      obtain ⟨q, hq, rfl⟩ := Option.map_eq_some_iff.mp he
      intro q' hq'
      rw [hq] at hq'
      cases hq'
      exact answer_serves h now q
  | failed rows i error =>
      obtain ⟨q, hq, rfl⟩ := Option.map_eq_some_iff.mp he
      intro q' hq'
      rw [hq] at hq'
      cases hq'
      exact failed_serves h.server q error

/-- **The condition on a step**, for the lists of the store. -/
def Steady (h : k.Lists) (s : Session) (e : StackEvent) : Prop :=
  ∀ e' ∈ k.event s e, s.Steady h.server e'

/-- **What the client shows is the store**: over every run of the terminal UI against the
aggregator, with answers in any order at any time and any of them failed, where no list is
re-sorted under a page and each next page is the same under both orders, every list is
the beginning of the store's own list of its level under one order, with no row repeated. -/
theorem stack_sliced (h : k.Lists) {s : Session}
    (hs : (k.machine.guarded (Steady h)).Reachable s) : s.Sliced h.server := by
  have hrun : (h.server.machine.guarded fun s e => s.Steady h.server e).Reachable s := by
    refine Machine.Reachable.simulated (M := k.machine.guarded (Steady h)) ?_ ?_ hs
    · exact fun _ h0 => h0
    intro s e t hst
    obtain ⟨hsteady, hst⟩ := hst
    obtain ⟨e', he, hnext⟩ := Option.bind_eq_some_iff.mp hst
    exact ⟨e', hsteady e' he, event_honest h he, hnext⟩
  exact Session.lists_sliced hrun

end Stack

/-! ## §9. Two keys. -/

/-- A store of two objects on one volume. -/
def twoObjectStore : Store where
  controller :=
    { keys := [text "w1", text "w0"]
      locateVolumes := fun key =>
        if key = text "w1" ∨ key = text "w0" then
          Dict.ofKeys [text "v0"] (List.nodup_singleton _) fun _ => ⟨.object, []⟩
        else Dict.empty }
  strategy :=
    { volumeIdToHostname :=
        Dict.ofKeys [text "v0"] (List.nodup_singleton _) fun _ => text "host0"
      getMeta := fun _ _ => some .obj }
  strategyName := text "LocalRankStrategy"
  fetch _ := none

/-- The aggregator over it. -/
def twoObjectStack : Stack where
  unicode := ascii
  spell _ := []
  repr _ := .ok []
  message _ := []
  torch := ⟨fun _ => .finite 0, fun _ => .finite 0⟩
  store := twoObjectStore
  unread _ := "parsing aggregator response"

/-- A key of it is an object. -/
theorem located_twoObjects {key : Text} {objectType : StoreReader.ObjectType} {answer : Meta}
    (h : located twoObjectStore key = some (objectType, answer)) :
    (key = text "w1" ∨ key = text "w0") ∧ objectType = .object ∧ answer = .obj := by
  by_cases hkey : key = text "w1" ∨ key = text "w0"
  · have hvolumes : twoObjectStore.controller.locateVolumes key
        = Dict.ofKeys [text "v0"] (List.nodup_singleton _) fun _ => ⟨.object, []⟩ :=
      if_pos hkey
    unfold located at h
    rw [hvolumes] at h
    cases h
    exact ⟨hkey, rfl, rfl⟩
  · have hvolumes : twoObjectStore.controller.locateVolumes key = Dict.empty := if_neg hkey
    unfold located at h
    rw [hvolumes] at h
    cases h

theorem twoObjects_list : twoObjectStack.Lists where
  listable :=
    { volumes := by
        intro entry hentry
        cases List.mem_singleton.mp hentry
        exact ⟨sayable_map _, sayable_map _⟩
      keyCount := lt_of_le_of_lt List.countP_le_length (by decide)
      keys := by
        intro key _ objectType answer hlocated
        obtain ⟨hkey, rfl, rfl⟩ := located_twoObjects hlocated
        have hname : Sayable key := by
          rcases hkey with rfl | rfl
          · exact sayable_map _
          · exact sayable_map _
        exact ⟨hname, nofun, nofun, nofun, nofun⟩ }
  keys := by decide

instance {k : Stack} (h : k.Lists) (s : Session) (e : StackEvent) :
    Decidable (Stack.Steady h s e) :=
  inferInstanceAs (Decidable (∀ e' ∈ k.event s e, s.Steady h.server e'))

/-- Filter for "w"; cycle the sort when the page has come, and let the new one come. -/
def filtered : List StackEvent :=
  [.input 24 ⟨.char '/', false⟩, .input 24 ⟨.char 'w', false⟩, .input 24 ⟨.enter, false⟩,
    .answered 24 0 "", .input 24 ⟨.char 's', false⟩, .answered 24 0 ""]

/-- By bytes, as by name, the last key comes first. -/
theorem stack_sliced_two : ∃ t, t.shown = [none, some (results ["w1", "w0"])] ∧
    (twoObjectStack.machine.guarded (Stack.Steady twoObjects_list)).Reachable t ∧
      t.Sliced twoObjects_list.server := by
  have hdone : (Machine.replay (Machine.guardedNext (Stack.Steady twoObjects_list)
      twoObjectStack.next) Session.start filtered).map Session.shown
        = some [none, some (results ["w1", "w0"])] := by
    decide +kernel
  obtain ⟨t, ht, hshown⟩ := Option.map_eq_some_iff.mp hdone
  have hreach := Machine.Reachable.of_guarded_replay (M := twoObjectStack.machine)
    (fun _ _ _ hst => hst) _ (.init rfl) ht
  exact ⟨t, hshown, hreach, Stack.stack_sliced twoObjects_list hreach⟩

end Toso.Tui
