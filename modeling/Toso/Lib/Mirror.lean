/-
  Toso.Lib.Mirror — a set, and a record of it kept somewhere else.

  What one party holds is recorded by another.  An element is held first and
  recorded later, and goes in either order: given up first and struck later, or
  struck first and given up later.  In between it is on the way, and three sets
  say which elements are.  The record is right about everything that is not on
  the way, as long as nothing comes in while it is going out, or goes out while
  it is coming in.

  Main results:
    * `Sound.hold`, `Sound.enter` — the two halves of coming in.
    * `Sound.give`, `Sound.strike` — the two halves of going out, in either order.
    * `Sound.agree` — with nothing on the way the record is the set.
-/
import Mathlib.Data.Set.Basic

namespace Lib

/-- What is held, what is recorded, and what is on the way. -/
structure Mirror (α : Type*) where
  held : Set α
  recorded : Set α
  /-- Held, and still to be recorded. -/
  adding : Set α
  /-- Given up, and still to be struck. -/
  removing : Set α
  /-- Struck, and still to be given up. -/
  struck : Set α

namespace Mirror

variable {α : Type*}

/-- **The record is right** about what is not on the way. -/
structure Sound (m : Mirror α) : Prop where
  settled : ∀ a, a ∉ m.adding → a ∉ m.removing → a ∉ m.struck → (a ∈ m.held ↔ a ∈ m.recorded)
  adding : ∀ a ∈ m.adding, a ∈ m.held
  removing : ∀ a ∈ m.removing, a ∉ m.held
  struck : ∀ a ∈ m.struck, a ∉ m.recorded
  /-- Nothing comes in and goes out at once. -/
  apart : ∀ a ∈ m.adding, a ∉ m.removing ∧ a ∉ m.struck

/-- **With nothing on the way the record is the set.** -/
theorem Sound.agree {m : Mirror α} (h : m.Sound) (hadding : m.adding = ∅)
    (hremoving : m.removing = ∅) (hstruck : m.struck = ∅) (a : α) :
    a ∈ m.held ↔ a ∈ m.recorded := by
  apply h.settled
  · rw [hadding]
    exact Set.notMem_empty a
  · rw [hremoving]
    exact Set.notMem_empty a
  · rw [hstruck]
    exact Set.notMem_empty a

section Steps

variable {m n : Mirror α} {S : Set α}

/-- Nothing of this changed. -/
theorem Sound.same (h : m.Sound) (hheld : n.held = m.held) (hrecorded : n.recorded = m.recorded)
    (hadding : n.adding = m.adding) (hremoving : n.removing = m.removing)
    (hstruck : n.struck = m.struck) : n.Sound := by
  obtain ⟨held, recorded, adding, removing, struck⟩ := n
  subst hheld hrecorded hadding hremoving hstruck
  exact h

/-- The first half of coming in: `S` is held, and will be recorded or is already. -/
theorem Sound.hold (h : m.Sound) (hheld : ∀ a, a ∈ n.held ↔ a ∈ m.held ∨ a ∈ S)
    (hrecorded : n.recorded = m.recorded) (hgrow : ∀ a ∈ m.adding, a ∈ n.adding)
    (hadding : ∀ a ∈ n.adding, a ∈ m.adding ∨ a ∈ S)
    (hS : ∀ a ∈ S, a ∈ n.adding ∨ a ∈ m.recorded) (hremoving : n.removing = m.removing)
    (hstruck : n.struck = m.struck) (hapart : ∀ a ∈ S, a ∉ m.removing ∧ a ∉ m.struck) :
    n.Sound := by
  constructor
  case settled =>
    intro a ha hr hh
    rw [hremoving] at hr
    rw [hstruck] at hh
    rw [hheld, hrecorded]
    by_cases haS : a ∈ S
    · have hin : a ∈ m.recorded := (hS a haS).resolve_left ha
      exact ⟨fun _ => hin, fun _ => .inr haS⟩
    · rw [or_iff_left haS]
      exact h.settled a (fun hm => ha (hgrow a hm)) hr hh
  case adding =>
    intro a ha
    rw [hheld]
    exact (hadding a ha).imp_left (h.adding a)
  case removing =>
    intro a ha hin
    rw [hremoving] at ha
    rcases (hheld a).mp hin with hin | haS
    · exact h.removing a ha hin
    · exact (hapart a haS).1 ha
  case struck =>
    rw [hstruck, hrecorded]
    exact h.struck
  case apart =>
    intro a ha
    rw [hremoving, hstruck]
    rcases hadding a ha with ha | haS
    · exact h.apart a ha
    · exact hapart a haS

/-- The second half of coming in: `S` is recorded.  What else stops coming in must
have been recorded before. -/
theorem Sound.enter (h : m.Sound) (hheld : n.held = m.held)
    (hrecorded : ∀ a, a ∈ n.recorded ↔ a ∈ m.recorded ∨ a ∈ S) (hS : ∀ a ∈ S, a ∈ m.adding)
    (hadding : ∀ a ∈ n.adding, a ∈ m.adding)
    (hleft : ∀ a ∈ m.adding, a ∈ n.adding ∨ a ∈ n.recorded)
    (hremoving : n.removing = m.removing) (hstruck : n.struck = m.struck) : n.Sound := by
  constructor
  case settled =>
    intro a ha hr hh
    rw [hremoving] at hr
    rw [hstruck] at hh
    rw [hheld]
    by_cases hm : a ∈ m.adding
    · have hin : a ∈ n.recorded := (hleft a hm).resolve_left ha
      exact ⟨fun _ => hin, fun _ => h.adding a hm⟩
    · rw [hrecorded, or_iff_left fun haS => hm (hS a haS)]
      exact h.settled a hm hr hh
  case adding =>
    intro a ha
    rw [hheld]
    exact h.adding a (hadding a ha)
  case removing =>
    rw [hremoving, hheld]
    exact h.removing
  case struck =>
    intro a ha hin
    rw [hstruck] at ha
    rcases (hrecorded a).mp hin with hin | haS
    · exact h.struck a ha hin
    · exact (h.apart a (hS a haS)).2 ha
  case apart =>
    intro a ha
    rw [hremoving, hstruck]
    exact h.apart a (hadding a ha)

/-- `S` is given up: what of it is still recorded will be struck. -/
theorem Sound.give (h : m.Sound) (hheld : ∀ a, a ∈ n.held ↔ a ∈ m.held ∧ a ∉ S)
    (hrecorded : n.recorded = m.recorded) (hadding : n.adding = m.adding)
    (hapart : ∀ a ∈ S, a ∉ m.adding) (hgrow : ∀ a ∈ m.removing, a ∈ n.removing)
    (hremoving : ∀ a ∈ n.removing, a ∈ m.removing ∨ a ∈ S)
    (hS : ∀ a ∈ S, a ∈ n.removing ∨ a ∉ m.recorded) (hstruck : ∀ a ∈ n.struck, a ∈ m.struck)
    (hleft : ∀ a ∈ m.struck, a ∈ n.struck ∨ a ∈ S) : n.Sound := by
  constructor
  case settled =>
    intro a ha hr hh
    rw [hadding] at ha
    rw [hheld, hrecorded]
    by_cases haS : a ∈ S
    · have hout : a ∉ m.recorded := (hS a haS).resolve_left hr
      exact ⟨fun hin => absurd haS hin.2, fun hin => absurd hin hout⟩
    · rw [and_iff_left haS]
      refine h.settled a ha (fun hm => hr (hgrow a hm)) fun hm => ?_
      rcases hleft a hm with hm | haS'
      · exact hh hm
      · exact haS haS'
  case adding =>
    intro a ha
    rw [hadding] at ha
    rw [hheld]
    exact ⟨h.adding a ha, fun haS => hapart a haS ha⟩
  case removing =>
    intro a ha hin
    rw [hheld] at hin
    rcases hremoving a ha with ha | haS
    · exact h.removing a ha hin.1
    · exact hin.2 haS
  case struck =>
    intro a ha
    rw [hrecorded]
    exact h.struck a (hstruck a ha)
  case apart =>
    intro a ha
    rw [hadding] at ha
    refine ⟨fun hr => ?_, fun hh => (h.apart a ha).2 (hstruck a hh)⟩
    rcases hremoving a hr with hr | haS
    · exact (h.apart a ha).1 hr
    · exact hapart a haS ha

/-- `S` is struck: what of it is still held will be given up. -/
theorem Sound.strike (h : m.Sound) (hheld : n.held = m.held)
    (hrecorded : ∀ a, a ∈ n.recorded ↔ a ∈ m.recorded ∧ a ∉ S) (hadding : n.adding = m.adding)
    (hapart : ∀ a ∈ S, a ∉ m.adding) (hremoving : ∀ a ∈ n.removing, a ∈ m.removing)
    (hleft : ∀ a ∈ m.removing, a ∈ n.removing ∨ a ∈ S) (hgrow : ∀ a ∈ m.struck, a ∈ n.struck)
    (hstruck : ∀ a ∈ n.struck, a ∈ m.struck ∨ a ∈ S)
    (hS : ∀ a ∈ S, a ∈ n.struck ∨ a ∉ m.held) : n.Sound := by
  constructor
  case settled =>
    intro a ha hr hh
    rw [hadding] at ha
    rw [hheld, hrecorded]
    by_cases haS : a ∈ S
    · have hout : a ∉ m.held := (hS a haS).resolve_left hh
      exact ⟨fun hin => absurd hin hout, fun hin => absurd haS hin.2⟩
    · rw [and_iff_left haS]
      refine h.settled a ha (fun hm => ?_) fun hm => hh (hgrow a hm)
      rcases hleft a hm with hm | haS'
      · exact hr hm
      · exact haS haS'
  case adding =>
    intro a ha
    rw [hadding] at ha
    rw [hheld]
    exact h.adding a ha
  case removing =>
    intro a ha
    rw [hheld]
    exact h.removing a (hremoving a ha)
  case struck =>
    intro a ha hin
    rw [hrecorded] at hin
    rcases hstruck a ha with ha | haS
    · exact h.struck a ha hin.1
    · exact hin.2 haS
  case apart =>
    intro a ha
    rw [hadding] at ha
    refine ⟨fun hr => (h.apart a ha).1 (hremoving a hr), fun hh => ?_⟩
    rcases hstruck a hh with hh | haS
    · exact (h.apart a ha).2 hh
    · exact hapart a haS ha

end Steps

end Mirror

end Lib
