/-
  Toso.StoreReader.Pages — sorted lists, page by page.

  Every list response sorts its rows and cuts a window out of them; the cursor
  of the next window is the row it starts at, spelled as a string, and is there
  while that row is before the end.  A cursor is clamped to the list, a limit is
  not: one that is not positive cuts an empty window, and names a next one that
  starts no later.

  Main results:
    * `pySorted_perm` — a sorted list, in either direction.
    * `follows_from` — at a positive limit the pages are the rest of the list.
    * `lists_paged_iff` — following the cursors of any list response reads its
      sorted rows, exactly when the limit advances.
-/
import Toso.StoreReader.Records
import Mathlib.Data.Sum.Order

namespace Toso.StoreReader

open Lib

/-! ## §1. Windows. -/

/-- `DEFAULT_LIMIT`. -/
def defaultLimit : ℤ := 200

/-- `_decode_cursor`: a cursor that is no number reads as the start; only an
infinite one raises. -/
def decodeCursor (U : Unicode) (cursor : Json) : Except Exc ℤ :=
  if cursor.truthy then
    match cursor.toInt U with
    | .ok n => .ok (max 0 n)
    | .error .overflowError => .error .overflowError
    | .error _ => .ok 0
  else .ok 0

/-- `int(limit)`, or the default. -/
def decodeLimit (U : Unicode) : Json → Except Exc ℤ
  | .null => .ok defaultLimit
  | limit => limit.toInt U

/-- Where a slice bound falls in a list of `n`: a negative one counts from the
end. -/
def sliceBound (n : ℕ) (i : ℤ) : ℕ := if i < 0 then (i + n).toNat else min i.toNat n

/-- `items[start:stop]`. -/
def slice {α : Type} (items : List α) (start stop : ℤ) : List α :=
  (items.take (sliceBound items.length stop)).drop (sliceBound items.length start)

/-- `_paginate`. -/
def paginate {α : Type} (U : Unicode) (items : List α) (limit cursor : Json) :
    Except Exc (List α × Option Text) := do
  let start ← decodeCursor U cursor
  let lim ← decodeLimit U limit
  return (slice items start (start + lim),
    if start + lim < items.length then some (intText (start + lim)) else none)

/-! ## §2. Orders. -/

/-- What a row is sorted by: a number or a string. -/
abbrev Figure := ℚ ⊕ₗ Text

def Figure.num (q : ℚ) : Figure := toLex (.inl q)

def Figure.name (t : Text) : Figure := toLex (.inr t)

/-- `sorted(rows, key=figure, reverse=reverse)`: stable in both directions. -/
def pySorted {α : Type} (descending : Bool) (figure : α → Figure) (rows : List α) : List α :=
  if descending then rows.insertionSort fun a b => figure b ≤ figure a
  else rows.insertionSort fun a b => figure a ≤ figure b

/-- `_reverse`. -/
def reverseOrder (key order : Json) : Bool :=
  if order.isText (text "asc") then false
  else if order.isText (text "desc") then true
  else !key.isText (text "name")

/-- How one kind of row is sorted: `keyfns`, the name and the function they fall
back to. -/
structure Sorting (α : Type) where
  table : List (String × (α → Figure))
  default : String
  fallback : α → Figure

/-- `keyfns.get(key, fallback)`. -/
def Sorting.keyfn {α : Type} (s : Sorting α) (key : Json) : Except Exc (α → Figure) :=
  if key.hashable then
    .ok (((s.table.find? fun entry => key.isText (text entry.1)).map Prod.snd).getD s.fallback)
  else .error .typeError

/-- A sort function of the source. -/
def Sorting.sort {α : Type} (s : Sorting α) (rows : List α) (sortBy order : Json) :
    Except Exc (List α) :=
  let key := sortBy.orText s.default
  (s.keyfn key).map fun figure => pySorted (reverseOrder key order) figure rows

/-- `_sort_prefixes`. -/
def sortPrefixes : Sorting KeyPrefix where
  table := [("partial", fun c => .num c.partialCount), ("keys", fun c => .num c.keys),
    ("bytes", fun c => .num c.keys), ("reachable", fun c => .num c.keys),
    ("name", fun c => .name c.keyPrefix)]
  default := "partial"
  fallback := fun c => .num c.partialCount

/-- `_sort_volumes`. -/
def sortVolumes : Sorting Volume where
  table := [("bytes", fun v => .num v.bytes.value), ("keys", fun v => .num v.numKeys),
    ("reachable", fun _ => .num 1), ("partial", fun v => .num v.numKeys),
    ("name", fun v => .name v.volumeId)]
  default := "bytes"
  fallback := fun v => .num v.bytes.value

/-- `_sort_key_matches`. -/
def sortKeyMatches : Sorting KeyEntry where
  table := [("partial", fun m => .num (!m.fullyCommitted).toNat), ("name", fun m => .name m.key),
    ("keys", fun m => .name m.key), ("bytes", fun m => .name m.key),
    ("reachable", fun m => .num m.fullyCommitted.toNat)]
  default := "partial"
  fallback := fun m => .num (!m.fullyCommitted).toNat

theorem pySorted_perm {α : Type} (descending : Bool) (figure : α → Figure) (rows : List α) :
    (pySorted descending figure rows).Perm rows := by
  unfold pySorted
  split
  · exact List.perm_insertionSort _ _
  · exact List.perm_insertionSort _ _

/-! ## §3. The list responses. -/

/-- A sorted window of some rows, as a request asks for it. -/
def listResponse {α : Type} (U : Unicode) (s : Sorting α) (rows : List α) (req : Request) :
    Except Exc (List α × Option Text) := do
  let sorted ← s.sort rows (req.get "sort_by") (req.get "order")
  paginate U sorted (req.get "limit") (req.get "cursor")

/-- The prefix of an `expand_prefix` request; `spell` is what an f-string makes of
a value that is no string. -/
def parentOf (spell : Json → Text) (req : Request) : Text :=
  match (req.get "prefix").orText "" with
  | .str t => t
  | value => spell value

/-- `build_expand_prefix`. -/
def buildExpandPrefix (U : Unicode) (spell : Json → Text) (state : StoreState) (req : Request) :
    Except Exc (List KeyPrefix × Option Text) :=
  listResponse U sortPrefixes (children state.records (parentOf spell req)) req

/-- `state.groups.get(group, [])`. -/
def membersOf (state : StoreState) (group : Json) : Except Exc (List Volume) :=
  match group with
  | .str t => .ok (state.groups.getD t [])
  | _ => if group.hashable then .ok [] else .error .typeError

/-- `build_list_volumes`. -/
def buildListVolumes (U : Unicode) (state : StoreState) (req : Request) :
    Except Exc (List Volume × Option Text) :=
  (membersOf state ((req.get "group").orText "")).bind fun members =>
    listResponse U sortVolumes members req

/-- `pattern in t`. -/
def patternIn (pattern : Json) (t : Text) : Except Exc Bool :=
  match pattern with
  | .str p => .ok (p <:+: t)
  | _ => .error .typeError

/-- `[row for row in rows if matches(row)]`. -/
def keep {α : Type} (matching : α → Except Exc Bool) : List α → Except Exc (List α)
  | [] => .ok []
  | row :: rest => do
      let here ← matching row
      let others ← keep matching rest
      return if here then row :: others else others

/-- The matches of a `search` over volumes. -/
def volumeMatches (state : StoreState) (pattern : Json) : Except Exc (List Volume) :=
  keep (fun v => do
    let inId ← patternIn pattern v.volumeId
    if inId then return true else patternIn pattern v.hostname) state.groups.values.flatten

/-- The matches of a `search` over keys. -/
def keyMatches (state : StoreState) (pattern : Json) : Except Exc (List KeyEntry) :=
  (keep (fun r => patternIn pattern r.key) state.records).map (List.map KeyRecord.keyEntry)

/-- A row of a `search` response. -/
inductive SearchMatch
  | key (entry : KeyEntry)
  | volume (v : Volume)
  deriving DecidableEq

/-- A page under another type of rows. -/
def mapPage {α β : Type} (f : α → β) (page : List α × Option Text) : List β × Option Text :=
  (page.1.map f, page.2)

/-- `kind == "volume"`; without a `kind` keys are searched. -/
def Request.searchesVolumes (req : Request) : Bool :=
  ((req.get? "kind").getD (.str (text "key"))).isText (text "volume")

/-- `build_search`. -/
def buildSearch (U : Unicode) (state : StoreState) (req : Request) :
    Except Exc (List SearchMatch × Option Text) :=
  let pattern := (req.get "pattern").orText ""
  if req.searchesVolumes then
    (volumeMatches state pattern).bind fun rows =>
      (listResponse U sortVolumes rows req).map (mapPage .volume)
  else
    (keyMatches state pattern).bind fun rows =>
      (listResponse U sortKeyMatches rows req).map (mapPage .key)

/-! ## §4. Following the cursors. -/

/-- The same request with another cursor. -/
def Request.setCursor (req : Request) (cursor : Json) : Request :=
  (text "cursor", cursor) :: req

/-- `Follows respond cursor pages`: the pages answered from a cursor on, each but
the last with the cursor of the next. -/
inductive Follows {α : Type} (respond : Json → Except Exc (List α × Option Text)) :
    Json → List (List α) → Prop
  | last {cursor : Json} {page : List α} :
      respond cursor = .ok (page, none) → Follows respond cursor [page]
  | more {cursor : Json} {page : List α} {next : Text} {pages : List (List α)} :
      respond cursor = .ok (page, some next) → Follows respond (.str next) pages →
      Follows respond cursor (page :: pages)

/-- A limit that advances: a positive one, or zero where there is nothing to
list. -/
def Advances {α : Type} (U : Unicode) (items : List α) (limit : Json) : Prop :=
  ∃ lim, decodeLimit U limit = .ok lim ∧ (0 < lim ∨ lim = 0 ∧ items = [])

section Follow

variable {α : Type} (U : Unicode)

theorem intText_ne_nil (n : ℤ) : intText n ≠ [] := by
  cases n with
  | ofNat n =>
      unfold intText natText
      simp
  | negSucc n => exact List.cons_ne_nil _ _

/-- **A cursor of the source** decodes to the row it names, clamped. -/
theorem decodeCursor_intText (n : ℤ) : decodeCursor U (.str (intText n)) = .ok (max 0 n) := by
  have htruthy : (Json.str (intText n)).truthy = true := by
    simp [Json.truthy, intText_ne_nil]
  have hint : (Json.str (intText n)).toInt U = .ok n := by
    unfold Json.toInt
    simp only [pyInt_intText]
  unfold decodeCursor
  rw [if_pos htruthy, hint]

variable {items : List α} {limit : Json}

/-- A page, once its cursor and its limit are read. -/
theorem paginate_eq {cursor : Json} {start lim : ℤ} (hc : decodeCursor U cursor = .ok start)
    (hl : decodeLimit U limit = .ok lim) :
    paginate U items limit cursor = .ok (slice items start (start + lim),
      if start + lim < items.length then some (intText (start + lim)) else none) := by
  unfold paginate
  rw [hc, hl]
  rfl

theorem slice_eq (start n : ℕ) : slice items start (start + n) = (items.drop start).take n := by
  have hbound : ∀ i : ℕ, sliceBound items.length (i : ℤ) = min i items.length := by
    intro i
    unfold sliceBound
    rw [if_neg (by omega), Int.toNat_natCast]
  unfold slice
  rw [← Nat.cast_add, hbound, hbound, List.drop_take]
  rcases le_total start items.length with h | h
  · rw [min_eq_left h]
    rcases le_total (start + n) items.length with h' | h'
    · rw [min_eq_left h', Nat.add_sub_cancel_left]
    · rw [min_eq_right h', List.take_of_length_le (by simp), List.take_of_length_le]
      simp only [List.length_drop]
      omega
  · rw [min_eq_right h, List.drop_eq_nil_of_le h, List.drop_length, List.take_nil, List.take_nil]

/-- **From a row on**, a positive limit reads the rest of the list. -/
theorem follows_from {lim : ℤ} (hl : decodeLimit U limit = .ok lim) (hlim : 0 < lim) (n : ℕ) :
    ∀ (start : ℕ) (cursor : Json), items.length - start ≤ n →
      decodeCursor U cursor = .ok start →
      ∃ pages, Follows (paginate U items limit) cursor pages ∧
        pages.flatten = items.drop start := by
  obtain ⟨step, rfl⟩ := Int.eq_ofNat_of_zero_le hlim.le
  induction n with
  | zero =>
      intro start cursor hleft hc
      refine ⟨[(items.drop start).take step], .last ?_, ?_⟩
      · rw [paginate_eq U hc hl, slice_eq, if_neg (by omega)]
      · rw [List.flatten_singleton, List.drop_eq_nil_of_le (by omega), List.take_nil]
  | succ n ih =>
      intro start cursor hleft hc
      have hpage : paginate U items limit cursor = _ := paginate_eq U hc hl
      rw [slice_eq] at hpage
      by_cases hmore : (start : ℤ) + step < items.length
      · rw [if_pos hmore] at hpage
        have hnext : decodeCursor U (.str (intText (start + step))) = .ok ((start + step : ℕ) : ℤ) := by
          rw [decodeCursor_intText, max_eq_right (by omega)]
          push_cast
          rfl
        obtain ⟨pages, hpages, hflat⟩ := ih (start + step) _ (by omega) hnext
        refine ⟨_, .more hpage hpages, ?_⟩
        rw [List.flatten_cons, hflat, ← List.drop_drop, List.take_append_drop]
      · rw [if_neg hmore] at hpage
        refine ⟨_, .last hpage, ?_⟩
        rw [List.flatten_singleton, List.take_of_length_le]
        simp only [List.length_drop]
        omega

/-- A limit that does not advance asks for the start again, forever. -/
theorem not_follows_start (h : ¬ Advances U items limit) {cursor : Json} {pages : List (List α)}
    (hfollows : Follows (paginate U items limit) cursor pages) :
    decodeCursor U cursor ≠ .ok 0 := by
  cases hl : decodeLimit U limit with
  | error e =>
      intro hc
      have hraise : paginate U items limit cursor = .error e := by
        unfold paginate
        rw [hc, hl]
        rfl
      cases hfollows with
      | last hpage => rw [hraise] at hpage; cases hpage
      | more hpage _ => rw [hraise] at hpage; cases hpage
  | ok lim =>
      -- either the limit is negative, or it is zero and the list is not empty
      have hbehind : lim ≤ 0 ∧ 0 + lim < items.length := by
        have hlim : lim ≤ 0 := by
          by_contra hpos
          exact h ⟨lim, hl, .inl (by omega)⟩
        refine ⟨hlim, ?_⟩
        by_contra hend
        refine h ⟨lim, hl, .inr ⟨by omega, List.length_eq_zero_iff.mp (by omega)⟩⟩
      induction hfollows with
      | last hpage =>
          intro hc
          rw [paginate_eq U hc hl, if_pos hbehind.2] at hpage
          cases hpage
      | more hpage _ ih =>
          intro hc
          rw [paginate_eq U hc hl, if_pos hbehind.2] at hpage
          cases hpage
          refine ih ?_
          rw [decodeCursor_intText, max_eq_left (by omega)]

/-- `Paged respond sorted`: the pages from the first on end, and put together they
are the sorted list. -/
def Paged {α : Type} (respond : Json → Except Exc (List α × Option Text))
    (sorted : Except Exc (List α)) : Prop :=
  ∃ pages, Follows respond .null pages ∧ sorted = .ok pages.flatten

theorem paginate_paged_iff :
    Paged (paginate U items limit) (.ok items) ↔ Advances U items limit := by
  constructor
  · intro ⟨pages, hpages, _⟩
    by_contra h
    exact not_follows_start U h hpages rfl
  · intro ⟨lim, hl, hlim⟩
    rcases hlim with hlim | ⟨rfl, rfl⟩
    · obtain ⟨pages, hpages, hflat⟩ : ∃ pages, Follows (paginate U items limit) .null pages ∧
          pages.flatten = items.drop 0 := follows_from U hl hlim items.length 0 .null (by omega) rfl
      exact ⟨pages, hpages, by rw [hflat, List.drop_zero]⟩
    · refine ⟨[[]], .last ?_, rfl⟩
      rw [paginate_eq U rfl hl]
      rfl

end Follow

/-! ## §5. Every list response. -/

theorem get?_setCursor_of_ne (req : Request) (cursor : Json) {name : String}
    (h : text "cursor" ≠ text name) : (req.setCursor cursor).get? name = req.get? name := by
  unfold Request.get? Request.setCursor
  rw [List.find?_cons_of_neg (by simpa using h)]

@[simp] theorem searchesVolumes_setCursor (req : Request) (cursor : Json) :
    (req.setCursor cursor).searchesVolumes = req.searchesVolumes := by
  unfold Request.searchesVolumes
  rw [get?_setCursor_of_ne req cursor (by decide)]

@[simp] theorem get_setCursor (req : Request) (cursor : Json) :
    (req.setCursor cursor).get "cursor" = cursor := by
  unfold Request.get Request.get? Request.setCursor
  rw [List.find?_cons_of_pos (by simp)]
  rfl

theorem get_setCursor_of_ne (req : Request) (cursor : Json) {name : String}
    (h : text "cursor" ≠ text name) : (req.setCursor cursor).get name = req.get name := by
  unfold Request.get
  rw [get?_setCursor_of_ne req cursor h]

/-- Following a response is following what it is made of. -/
theorem follows_congr {α : Type} {respond other : Json → Except Exc (List α × Option Text)}
    (h : ∀ cursor, respond cursor = other cursor) (sorted : Except Exc (List α)) :
    Paged respond sorted ↔ Paged other sorted := by
  rw [funext h]

/-- What raises has no pages. -/
theorem not_paged_error {α : Type} {e : Exc} {sorted : Except Exc (List α)} :
    ¬ Paged (fun _ => .error e) sorted := by
  intro ⟨pages, hpages, _⟩
  cases hpages with
  | last hpage => cases hpage
  | more hpage _ => cases hpage

/-- The rows of a request can be sorted, and its limit advances. -/
def Pageable {α : Type} (U : Unicode) (s : Sorting α) (rows : List α) (req : Request) : Prop :=
  ((req.get "sort_by").orText s.default).hashable = true ∧ Advances U rows (req.get "limit")

/-- The sorted rows of a request. -/
def sortedRows {α : Type} (s : Sorting α) (rows : List α) (req : Request) :
    Except Exc (List α) :=
  s.sort rows (req.get "sort_by") (req.get "order")

/-- **One list**, sorted and cut. -/
theorem listResponse_paged_iff {α : Type} (U : Unicode) (s : Sorting α) (rows : List α)
    (req : Request) :
    Paged (fun cursor => listResponse U s rows (req.setCursor cursor)) (sortedRows s rows req) ↔
      Pageable U s rows req := by
  have hresponse : ∀ cursor, listResponse U s rows (req.setCursor cursor)
      = (sortedRows s rows req).bind fun sorted => paginate U sorted (req.get "limit") cursor := by
    intro cursor
    unfold listResponse
    rw [get_setCursor, get_setCursor_of_ne req cursor (by decide),
      get_setCursor_of_ne req cursor (by decide), get_setCursor_of_ne req cursor (by decide)]
    rfl
  rw [follows_congr hresponse]
  unfold Pageable
  by_cases hkey : ((req.get "sort_by").orText s.default).hashable = true
  · obtain ⟨figure, hsorted⟩ : ∃ figure, sortedRows s rows req = .ok
        (pySorted (reverseOrder ((req.get "sort_by").orText s.default) (req.get "order"))
          figure rows) := by
      unfold sortedRows Sorting.sort Sorting.keyfn
      dsimp only
      rw [if_pos hkey]
      exact ⟨_, rfl⟩
    have hempty : ∀ descending, pySorted descending figure rows = [] ↔ rows = [] := by
      intro descending
      rw [← List.length_eq_zero_iff, (pySorted_perm descending figure rows).length_eq,
        List.length_eq_zero_iff]
    rw [hsorted]
    show Paged (paginate U _ (req.get "limit")) _ ↔ _
    rw [paginate_paged_iff, and_iff_right hkey]
    unfold Advances
    rw [hempty]
  · have hraise : sortedRows s rows req = .error .typeError := by
      unfold sortedRows Sorting.sort Sorting.keyfn
      dsimp only
      rw [if_neg hkey]
      rfl
    rw [hraise]
    exact iff_of_false not_paged_error fun h => hkey h.1

/-- Pages of mapped rows are mapped pages. -/
theorem paged_map {α β : Type} {f : α → β} (hf : Function.Injective f)
    {respond : Json → Except Exc (List α × Option Text)} {sorted : Except Exc (List α)} :
    Paged (fun cursor => (respond cursor).map (mapPage f)) (sorted.map (List.map f)) ↔
      Paged respond sorted := by
  constructor
  · intro ⟨pages, hpages, hsorted⟩
    obtain ⟨pages', hpages', rfl⟩ : ∃ pages', Follows respond .null pages' ∧
        pages'.map (List.map f) = pages := by
      clear hsorted
      generalize Json.null = cursor at hpages
      induction hpages with
      | @last cursor page hpage =>
          cases hr : respond cursor with
          | error e => rw [hr] at hpage; cases hpage
          | ok answer =>
              obtain ⟨rows, next⟩ := answer
              rw [hr] at hpage
              cases hpage
              exact ⟨[rows], .last hr, rfl⟩
      | @more cursor page next pages hpage _ ih =>
          obtain ⟨pages', hpages', rfl⟩ := ih
          cases hr : respond cursor with
          | error e => rw [hr] at hpage; cases hpage
          | ok answer =>
              obtain ⟨rows, next⟩ := answer
              rw [hr] at hpage
              cases hpage
              exact ⟨rows :: pages', .more hr hpages', rfl⟩
    refine ⟨pages', hpages', ?_⟩
    cases hrows : sorted with
    | error e => rw [hrows] at hsorted; cases hsorted
    | ok rows =>
        rw [hrows, ← List.map_flatten] at hsorted
        injection hsorted with hsorted
        rw [List.map_injective_iff.mpr hf hsorted]
  · intro ⟨pages, hpages, hsorted⟩
    refine ⟨pages.map (List.map f), ?_, ?_⟩
    · clear hsorted
      generalize Json.null = cursor at hpages
      induction hpages with
      | last hpage => exact .last (by rw [hpage]; rfl)
      | more hpage _ ih => exact .more (by rw [hpage]; rfl) ih
    · rw [hsorted, ← List.map_flatten]
      rfl

/-- **Nothing lost, nothing repeated**: of every list response, over any state and
for any request that selects its rows, following `next_cursor` from the first page
ends with the sorted rows, each once, if and only if the rows can be sorted and
the limit is positive, or zero with no rows. -/
theorem lists_paged_iff (U : Unicode) (spell : Json → Text) (state : StoreState)
    (req : Request) :
    (Paged (fun cursor => buildExpandPrefix U spell state (req.setCursor cursor))
        (sortedRows sortPrefixes (children state.records (parentOf spell req)) req) ↔
      Pageable U sortPrefixes (children state.records (parentOf spell req)) req) ∧
    (∀ rows, membersOf state ((req.get "group").orText "") = .ok rows →
      (Paged (fun cursor => buildListVolumes U state (req.setCursor cursor))
          (sortedRows sortVolumes rows req) ↔ Pageable U sortVolumes rows req)) ∧
    (∀ rows, req.searchesVolumes = true →
      volumeMatches state ((req.get "pattern").orText "") = .ok rows →
      (Paged (fun cursor => buildSearch U state (req.setCursor cursor))
          ((sortedRows sortVolumes rows req).map (List.map .volume)) ↔
        Pageable U sortVolumes rows req)) ∧
    (∀ rows, req.searchesVolumes = false →
      keyMatches state ((req.get "pattern").orText "") = .ok rows →
      (Paged (fun cursor => buildSearch U state (req.setCursor cursor))
          ((sortedRows sortKeyMatches rows req).map (List.map .key)) ↔
        Pageable U sortKeyMatches rows req)) := by
  refine ⟨?_, ?_, ?_, ?_⟩
  · rw [← listResponse_paged_iff]
    refine follows_congr (fun cursor => ?_) _
    unfold buildExpandPrefix parentOf
    rw [get_setCursor_of_ne req cursor (by decide)]
  · intro rows hrows
    rw [← listResponse_paged_iff]
    refine follows_congr (fun cursor => ?_) _
    unfold buildListVolumes
    rw [get_setCursor_of_ne req cursor (by decide), hrows]
    rfl
  · intro rows hkind hrows
    rw [← listResponse_paged_iff, ← paged_map (f := SearchMatch.volume) fun a b h => by cases h; rfl]
    refine follows_congr (fun cursor => ?_) _
    unfold buildSearch
    rw [searchesVolumes_setCursor, get_setCursor_of_ne req cursor (by decide)]
    dsimp only
    rw [if_pos hkind, hrows]
    rfl
  · intro rows hkind hrows
    rw [← listResponse_paged_iff, ← paged_map (f := SearchMatch.key) fun a b h => by cases h; rfl]
    refine follows_congr (fun cursor => ?_) _
    unfold buildSearch
    rw [searchesVolumes_setCursor, get_setCursor_of_ne req cursor (by decide)]
    dsimp only
    rw [if_neg (by simp [hkind]), hrows]
    rfl

/-- Two objects. -/
def twoObjects : StoreState := ⟨[objectAt "a", objectAt "b"], [], Dict.empty⟩

/-- Without a limit a search reads both. -/
theorem twoObjects_paged :
    Paged (fun cursor => buildSearch ascii twoObjects (Request.setCursor [] cursor))
      ((sortedRows sortKeyMatches (twoObjects.records.map KeyRecord.keyEntry) []).map
        (List.map .key)) :=
  ((lists_paged_iff ascii (fun _ => []) twoObjects []).2.2.2 _ rfl (by decide)).mpr
    ⟨rfl, _, rfl, .inl (by decide)⟩

/-- A limit of zero: the first page is empty, and its cursor names it again. -/
theorem zero_limit_never_ends :
    ¬ Paged (fun cursor => buildExpandPrefix ascii (fun _ => []) twoObjects
        (Request.setCursor [(text "limit", .int 0)] cursor))
      (sortedRows sortPrefixes (children twoObjects.records []) [(text "limit", .int 0)]) := by
  have hpages := listResponse_paged_iff ascii sortPrefixes (children twoObjects.records [])
    [(text "limit", .int 0)]
  intro h
  obtain ⟨_, lim, hlim, hadvances⟩ := hpages.mp h
  cases hlim
  rcases hadvances with hpos | ⟨_, hnil⟩
  · exact absurd hpos (by decide)
  · exact absurd hnil (by decide)

end Toso.StoreReader
