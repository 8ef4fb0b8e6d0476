/-
  Toso.Lib.Fallback — asking alternatives in order until one decides.

  Some answers abstain.  A list of alternatives is asked from the left, each
  only once those before it abstained, and a list that runs out answers with a
  seed.  The alternatives are computations of any lawful monad, so what asking
  one does besides answering is part of what is proved.

  Main results:
    * `firstOf_append` — the alternatives of an appended list are asked only
      when the first list abstained.
    * `firstOf_flatten` — an alternative that stands for a list of alternatives
      can be replaced by that list.
-/
import Mathlib.Data.List.Forall2

namespace Lib

universe u v

variable {m : Type u → Type v} [Monad m] {α : Type u} (Abstains : α → Prop)
  [DecidablePred Abstains] (seed : α)

/-- Keep an answer that decides, and ask `next` past one that abstains. -/
def fallThrough (next : m α) (answer : α) : m α :=
  if Abstains answer then next else pure answer

/-- The first answer that does not abstain, and the seed if there is none. -/
def firstOf : List (m α) → m α
  | [] => pure seed
  | ask :: rest => ask >>= fallThrough Abstains (firstOf rest)

/-- `ask` stands for `group`: nothing behind it can tell them apart. -/
def StandsFor (ask : m α) (group : List (m α)) : Prop :=
  ∀ next : m α, ask >>= fallThrough Abstains next
    = firstOf Abstains seed group >>= fallThrough Abstains next

variable [LawfulMonad m] {seed}

theorem fallThrough_seed (hseed : Abstains seed) (next : m α) :
    pure seed >>= fallThrough Abstains next = next := by
  rw [pure_bind]
  exact if_pos hseed

theorem fallThrough_assoc (answer : α) (next last : m α) :
    fallThrough Abstains next answer >>= fallThrough Abstains last
      = fallThrough Abstains (next >>= fallThrough Abstains last) answer := by
  unfold fallThrough
  by_cases h : Abstains answer
  · rw [if_pos h, if_pos h]
  · rw [if_neg h, if_neg h, pure_bind, if_neg h]

/-- What follows is asked only when what comes first abstained. -/
theorem firstOf_append (hseed : Abstains seed) (first rest : List (m α)) :
    firstOf Abstains seed (first ++ rest)
      = firstOf Abstains seed first >>= fallThrough Abstains (firstOf Abstains seed rest) := by
  induction first with
  | nil =>
      show firstOf Abstains seed rest = pure seed >>= _
      rw [fallThrough_seed Abstains hseed]
  | cons ask first ih =>
      show ask >>= fallThrough Abstains (firstOf Abstains seed (first ++ rest))
        = (ask >>= fallThrough Abstains (firstOf Abstains seed first)) >>= _
      rw [ih, bind_assoc]
      congr 1
      funext answer
      exact (fallThrough_assoc Abstains answer _ _).symm

/-- An alternative stands for itself, whatever it abstains with. -/
theorem standsFor_self (hseed : Abstains seed) (ask : m α) :
    StandsFor Abstains seed ask [ask] := by
  intro next
  show _ = (ask >>= fallThrough Abstains (pure seed)) >>= _
  rw [bind_assoc]
  congr 1
  funext answer
  rw [fallThrough_assoc, fallThrough_seed Abstains hseed]

/-- **Alternatives that stand for groups** are the alternatives of all the
groups. -/
theorem firstOf_flatten (hseed : Abstains seed) {asks : List (m α)}
    {groups : List (List (m α))} (h : List.Forall₂ (StandsFor Abstains seed) asks groups) :
    firstOf Abstains seed asks = firstOf Abstains seed groups.flatten := by
  induction h with
  | nil => rfl
  | @cons ask group asks groups hask _ ih =>
      show ask >>= fallThrough Abstains (firstOf Abstains seed asks)
        = firstOf Abstains seed (group ++ groups.flatten)
      rw [firstOf_append Abstains hseed, ← ih]
      exact hask _

end Lib
