/-
  Toso.Tui.LazyList — a windowed, cursor-paginated list.

  The pages loaded so far, the cursor of the next one, whether a page is in
  flight, and the selected row, which may be the trailing "load more" row.

  Main results:
    * `Placed` — the cursor is on a row, and a list without a next page waits for
      one only while it is empty; every operation keeps it.
    * `Placed.inView` — the visible slice is in range at every height and shows the
      selected item.
-/
import Mathlib.Data.List.Basic
import Mathlib.Algebra.Order.Group.Nat

namespace Toso.Tui

/-! ## §1. The list. -/

/-- `LazyList<T>`. -/
structure LazyList (α : Type*) where
  items : List α
  /-- `some` if more pages exist behind this cursor, `none` if fully loaded. -/
  nextCursor : Option String
  loaded : Bool
  pending : Bool
  cursor : ℕ
  deriving DecidableEq, Repr

namespace LazyList

variable {α β : Type*}

def new : LazyList α := ⟨[], none, false, false, 0⟩

def hasMore (l : LazyList α) : Bool := l.nextCursor.isSome

/-- A trailing row: a spinner, or "load more". -/
def hasTrailing (l : LazyList α) : Bool := l.pending || l.nextCursor.isSome

def rowCount (l : LazyList α) : ℕ := l.items.length + l.hasTrailing.toNat

def onMoreRow (l : LazyList α) : Bool := l.hasTrailing && l.cursor == l.items.length

def selected (l : LazyList α) : Option α := l.items[l.cursor]?

def clampCursor (l : LazyList α) : LazyList α :=
  if l.rowCount = 0 then { l with cursor := 0 }
  else if l.rowCount ≤ l.cursor then { l with cursor := l.rowCount - 1 }
  else l

/-- A page request was dispatched. -/
def beginPage (l : LazyList α) : LazyList α := { l with pending := true }

/-- A page arrived. -/
def appendPage (l : LazyList α) (items : List α) (nextCursor : Option String) : LazyList α :=
  clampCursor { l with
    items := l.items ++ items, nextCursor := nextCursor, pending := false, loaded := true }

/-- A page request failed: what is there stays, the cursor where it is. -/
def failPage (l : LazyList α) : LazyList α := { l with pending := false, loaded := true }

def setCursor (l : LazyList α) (cursor : ℕ) : LazyList α := clampCursor { l with cursor := cursor }

def selectUp (l : LazyList α) : LazyList α := { l with cursor := l.cursor - 1 }

def selectDown (l : LazyList α) : LazyList α :=
  if l.cursor + 1 < l.rowCount then { l with cursor := l.cursor + 1 } else l

def selectTop (l : LazyList α) : LazyList α := { l with cursor := 0 }

def selectBottom (l : LazyList α) : LazyList α := { l with cursor := l.rowCount - 1 }

def pageDown (height : ℕ) (l : LazyList α) : LazyList α :=
  { l with cursor := min (l.cursor + max height 1) (l.rowCount - 1) }

def pageUp (height : ℕ) (l : LazyList α) : LazyList α :=
  { l with cursor := l.cursor - max height 1 }

/-- The top row of the window that keeps the cursor visible. -/
def viewOffset (l : LazyList α) (height : ℕ) : ℕ :=
  if height = 0 ∨ l.cursor < height then 0 else l.cursor + 1 - height

/-- The visible slice with its top row; `none` is the panic of a slice whose start
lies behind its end. -/
def window (l : LazyList α) (height : ℕ) : Option (ℕ × List α) :=
  let offset := l.viewOffset height
  let stop := min (offset + height) l.items.length
  if offset ≤ stop then some (offset, (l.items.take stop).drop offset) else none

/-- The same list with its entries seen through `f`. -/
def map (f : α → β) (l : LazyList α) : LazyList β := { l with items := l.items.map f }

/-! ## §2. The cursor is on a row. -/

/-- The cursor is below the row count, 0 when there are no rows. -/
def OnRow (l : LazyList α) : Prop := l.cursor < l.rowCount ∨ l.rowCount = 0 ∧ l.cursor = 0

/-- A cursor on a row; and a list that waits for a page has a next page or nothing
yet. -/
structure Placed (l : LazyList α) : Prop where
  onRow : l.OnRow
  waits : l.pending = true → l.nextCursor.isSome = true ∨ l.items = []

theorem cursor_clamped (l : LazyList α) : l.clampCursor.OnRow := by
  unfold clampCursor
  split
  case isTrue hzero => exact Or.inr ⟨hzero, rfl⟩
  case isFalse hzero =>
    left
    split
    case isTrue hover =>
      show l.rowCount - 1 < l.rowCount
      omega
    case isFalse hunder => exact Nat.lt_of_not_le hunder

@[simp] theorem clampCursor_items (l : LazyList α) : l.clampCursor.items = l.items := by
  unfold clampCursor
  split_ifs <;> rfl

@[simp] theorem clampCursor_nextCursor (l : LazyList α) :
    l.clampCursor.nextCursor = l.nextCursor := by
  unfold clampCursor
  split_ifs <;> rfl

@[simp] theorem clampCursor_pending (l : LazyList α) : l.clampCursor.pending = l.pending := by
  unfold clampCursor
  split_ifs <;> rfl

/-- The first page of a list is under way. -/
theorem placed_begun : Placed (new : LazyList α).beginPage :=
  ⟨Or.inl Nat.one_pos, fun _ => Or.inr rfl⟩

theorem placed_appendPage (l : LazyList α) (items : List α) (next : Option String) :
    Placed (l.appendPage items next) := by
  refine ⟨cursor_clamped _, fun h => ?_⟩
  simp [appendPage] at h

namespace Placed

variable {l : LazyList α}

/-- Asking for the next page adds no row: the trailing one is there. -/
theorem beginPage (h : Placed l) (hmore : l.hasMore = true) : Placed l.beginPage := by
  have hrows : l.beginPage.rowCount = l.rowCount := by
    simp [rowCount, hasTrailing, LazyList.beginPage, show l.nextCursor.isSome = true from hmore]
  refine ⟨?_, fun _ => Or.inl hmore⟩
  unfold OnRow
  rw [hrows]
  exact h.onRow

/-- A failed page takes the spinner away: that is a row only of an empty list. -/
theorem failPage (h : Placed l) : Placed l.failPage := by
  refine ⟨?_, fun hp => nomatch hp⟩
  unfold OnRow
  cases hmore : l.nextCursor.isSome with
  | true =>
      have hrows : l.failPage.rowCount = l.rowCount := by
        simp [rowCount, hasTrailing, LazyList.failPage, hmore]
      rw [hrows]
      exact h.onRow
  | false =>
      have hon : l.cursor < l.rowCount ∨ l.rowCount = 0 ∧ l.cursor = 0 := h.onRow
      cases hp : l.pending with
      | false =>
          simpa [rowCount, hasTrailing, LazyList.failPage, hmore, hp] using hon
      | true =>
          have hnil : l.items = [] := (h.waits hp).resolve_left (by simp [hmore])
          right
          simp only [rowCount, hasTrailing, hnil, hp] at hon
          refine ⟨by simp [rowCount, hasTrailing, LazyList.failPage, hnil, hmore], ?_⟩
          show l.cursor = 0
          simp at hon
          omega

/-- A cursor put anywhere up to where it was, or below the last row. -/
theorem moved (h : Placed l) {c : ℕ} (hc : c ≤ l.cursor ∨ c ≤ l.rowCount - 1) :
    Placed { l with cursor := c } := by
  refine ⟨?_, h.waits⟩
  show c < l.rowCount ∨ l.rowCount = 0 ∧ c = 0
  have hon : l.cursor < l.rowCount ∨ l.rowCount = 0 ∧ l.cursor = 0 := h.onRow
  omega

theorem selectUp (h : Placed l) : Placed l.selectUp := h.moved (Or.inl (Nat.sub_le _ _))

theorem selectDown (h : Placed l) : Placed l.selectDown := by
  unfold LazyList.selectDown
  split
  case isTrue hlt => exact h.moved (Or.inr (by omega))
  case isFalse => exact h

theorem selectTop (h : Placed l) : Placed l.selectTop := h.moved (Or.inl (Nat.zero_le _))

theorem selectBottom (h : Placed l) : Placed l.selectBottom := h.moved (Or.inr le_rfl)

theorem pageDown (h : Placed l) (height : ℕ) : Placed (l.pageDown height) :=
  h.moved (Or.inr (Nat.min_le_right _ _))

theorem pageUp (h : Placed l) (height : ℕ) : Placed (l.pageUp height) :=
  h.moved (Or.inl (Nat.sub_le _ _))

end Placed

theorem placed_setCursor {l : LazyList α} (h : Placed l) (c : ℕ) : Placed (l.setCursor c) := by
  refine ⟨cursor_clamped _, fun hp => ?_⟩
  simpa [setCursor] using h.waits (by simpa [setCursor] using hp)

/-! ## §3. The window. -/

/-- The window is a slice of the items, and the cursor's row is in it if that row is
an item. -/
def InView (l : LazyList α) (height : ℕ) : Prop :=
  ∃ offset slice, l.window height = some (offset, slice) ∧
    offset + slice.length ≤ l.items.length ∧
    (∀ i, i < slice.length → slice[i]? = l.items[offset + i]?) ∧
    ∀ a, l.selected = some a → offset ≤ l.cursor ∧ slice[l.cursor - offset]? = some a

theorem Placed.cursor_le {l : LazyList α} (h : Placed l) : l.cursor ≤ l.items.length := by
  have hon : l.cursor < l.rowCount ∨ l.rowCount = 0 ∧ l.cursor = 0 := h.onRow
  have hrows : l.rowCount ≤ l.items.length + 1 := Nat.add_le_add_left (Bool.toNat_le _) _
  omega

/-- **The window is in range and shows the selected item.** -/
theorem Placed.inView {l : LazyList α} (h : Placed l) {height : ℕ} (hpos : 1 ≤ height) :
    l.InView height := by
  have hoff : l.viewOffset height ≤ l.cursor := by
    unfold viewOffset
    split <;> omega
  have hshown : l.cursor < l.viewOffset height + height := by
    unfold viewOffset
    split <;> omega
  have hle : l.viewOffset height ≤ min (l.viewOffset height + height) l.items.length :=
    Nat.le_min.2 ⟨Nat.le_add_right _ _, hoff.trans h.cursor_le⟩
  have hget : ∀ i, l.viewOffset height + i < min (l.viewOffset height + height) l.items.length →
      ((l.items.take (min (l.viewOffset height + height) l.items.length)).drop
        (l.viewOffset height))[i]? = l.items[l.viewOffset height + i]? := fun i hi => by
    rw [List.getElem?_drop, List.getElem?_take_of_lt hi]
  refine ⟨l.viewOffset height, _, if_pos hle, ?_, fun i hi => hget i ?_, fun a ha => ⟨hoff, ?_⟩⟩
  · rw [List.length_drop, List.length_take]
    omega
  · rw [List.length_drop, List.length_take] at hi
    omega
  · have hlt : l.cursor < l.items.length := (List.getElem?_eq_some_iff.1 ha).1
    rw [hget _ (by omega), Nat.add_sub_cancel' hoff]
    exact ha

end LazyList

end Toso.Tui
