/-
  Toso.Lib.Paging — reading a list page by page, through cursors.

  A server cuts a list in pages and names the row a page ends before by a cursor;
  a reader holds the pages it got, appended, and the cursor of the next one.

  Main results:
    * `Read.page` — a page asked for with the reader's cursor extends what it has
      read, without a gap or a repetition.
    * `Read.nodup` — no entry is read twice.
-/
import Mathlib.Data.List.Basic
import Mathlib.Data.List.Nodup

namespace Lib

variable {α γ : Type*}

/-- Names of rows. -/
structure Cursors (γ : Type*) where
  name : ℕ → γ
  row : γ → ℕ
  row_name : ∀ n, row (name n) = n

theorem Cursors.name_injective (C : Cursors γ) : Function.Injective C.name :=
  Function.LeftInverse.injective C.row_name

/-- The row an optional cursor names; without one the list is read from its start. -/
def Cursors.start (C : Cursors γ) (cursor : Option γ) : ℕ := cursor.elim 0 C.row

/-- The page of `full` from a cursor, with the cursor of the next one if there is any. -/
def Cursors.page (C : Cursors γ) (limit : ℕ) (full : List α) (cursor : Option γ) :
    List α × Option γ :=
  ((full.drop (C.start cursor)).take limit,
    if C.start cursor + limit < full.length then some (C.name (C.start cursor + limit)) else none)

/-- The pages of a list seen through `f`. -/
theorem Cursors.page_map {β : Type*} (C : Cursors γ) (limit : ℕ) (f : α → β) (full : List α)
    (cursor : Option γ) : C.page limit (full.map f) cursor
      = ((C.page limit full cursor).1.map f, (C.page limit full cursor).2) := by
  simp [Cursors.page, List.map_take, List.map_drop]

/-- `items` are the first entries of `full`, and the cursor names the row after them. -/
structure Read (C : Cursors γ) (full items : List α) (next : Option γ) : Prop where
  isPrefix : items <+: full
  row : ∀ c, next = some c → C.row c = items.length

namespace Read

variable {C : Cursors γ} {full items : List α} {next : Option γ}

/-- Nothing is read yet. -/
theorem nil (C : Cursors γ) (full : List α) : Read C full [] none :=
  ⟨List.nil_prefix, fun _ h => nomatch h⟩

/-- **The next page continues where the reader is.** -/
theorem page (h : Read C full items next) (hnil : next = none → items = []) (limit : ℕ) :
    Read C full (items ++ (C.page limit full next).1) (C.page limit full next).2 := by
  have hstart : C.start next = items.length := by
    cases next with
    | none =>
        rw [hnil rfl]
        rfl
    | some c => exact h.row c rfl
  have hitems : items = full.take items.length := List.prefix_iff_eq_take.1 h.isPrefix
  refine ⟨?_, fun c hc => ?_⟩
  · show items ++ (full.drop (C.start next)).take limit <+: full
    rw [hstart]
    nth_rewrite 1 [hitems]
    rw [← List.take_add]
    exact List.take_prefix _ _
  · -- A next page means that this one is full.
    simp only [Cursors.page] at hc ⊢
    split_ifs at hc with hlt
    cases hc
    rw [C.row_name, hstart, List.length_append, List.length_take, List.length_drop]
    rw [hstart] at hlt
    omega

theorem nodup (h : Read C full items next) (hfull : full.Nodup) : items.Nodup :=
  hfull.sublist h.isPrefix.sublist

end Read

end Lib
