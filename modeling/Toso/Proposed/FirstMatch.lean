/-
  Toso.Proposed.FirstMatch — chains of chains of selectors.

  A selector carries the type of its subject and answers when asked; asking one
  may read and change the world it is attached to, and is recorded.  `FirstMatch`
  asks its links in order, and is itself a selector, so chains nest.

  The subject types are values compared by equality; `anyType` is the subject of
  a chain without links.  The constructor's refusal carries the subjects its
  message lists.

  Main results:
    * `construct_spec` — a tree of chains over one subject is built, and stands
      for its links.
    * `consults_select` — whom a flat chain asks, and what it answers.
    * `Tree.firstMatch_lawful` — a nested chain answers and asks as the flat list
      of its links, and idle links add nothing but being asked.
-/
import Toso.Lib.Fallback
import Toso.Proposed.Selection

namespace Toso.Proposed

open Lib

universe u

/-! ## §1. Asking. -/

/-- A computation that asks selectors: what it answers or raises, the world it
leaves, and whom it asked, in order. -/
def Consult (W κ : Type*) (α : Type u) := W → Except SelectionError α × W × List κ

namespace Consult

variable {W κ : Type*} {α β γ : Type u}

/-- What follows an outcome: nothing after a raise. -/
def after (f : α → Consult W κ β) :
    Except SelectionError α × W × List κ → Except SelectionError β × W × List κ
  | (.error e, w, asked) => (.error e, w, asked)
  | (.ok a, w, asked) => ((f a w).1, (f a w).2.1, asked ++ (f a w).2.2)

instance : Monad (Consult W κ) where
  pure a := fun w => (.ok a, w, [])
  bind x f := fun w => after f (x w)

theorem run_bind (x : Consult W κ α) (f : α → Consult W κ β) (w : W) :
    (x >>= f) w = after f (x w) := rfl

theorem after_pure (outcome : Except SelectionError α × W × List κ) :
    after pure outcome = outcome := by
  rcases outcome with ⟨_ | a, w, asked⟩
  · rfl
  · show (Except.ok a, w, asked ++ []) = _
    rw [List.append_nil]

theorem after_after (f : α → Consult W κ β) (g : β → Consult W κ γ)
    (outcome : Except SelectionError α × W × List κ) :
    after g (after f outcome) = after (fun a => f a >>= g) outcome := by
  rcases outcome with ⟨_ | a, w, asked⟩
  · rfl
  · show after g ((f a w).1, (f a w).2.1, asked ++ (f a w).2.2)
      = ((after g (f a w)).1, (after g (f a w)).2.1, asked ++ (after g (f a w)).2.2)
    rcases f a w with ⟨_ | b, w', asked'⟩
    · rfl
    · exact congrArg (fun l => (_, _, l)) (List.append_assoc asked asked' _)

instance : LawfulMonad (Consult W κ) :=
  LawfulMonad.mk' (Consult W κ) (fun x => funext fun w => after_pure (x w))
    (fun _ _ => rfl) (fun x f g => funext fun w => after_after f g (x w))

end Consult

/-! ## §2. Selectors and the chain of them. -/

theorem abstains_abstain {ι δ ο ρ : Type*} :
    (Selection.abstain : Selection ι δ ο ρ).Abstains := rfl

variable {W κ τ σ ν ι δ ο ρ : Type*}

/-- `Selector`: the type of its subject, and what asking it does. -/
structure Ranking (W κ τ σ ν ι δ ο ρ : Type*) where
  subjectType : τ
  select : σ → ν → Consult W κ (Selection ι δ ο ρ)

/-- A selector that is no chain, by name. -/
structure Link (W κ τ σ ν ι δ ο ρ : Type*) where
  name : κ
  subjectType : τ
  rank : σ → ν → W → Except SelectionError (Selection ι δ ο ρ) × W

/-- Asking a link is recorded under its name. -/
def Link.ranking (link : Link W κ τ σ ν ι δ ο ρ) : Ranking W κ τ σ ν ι δ ο ρ where
  subjectType := link.subjectType
  select subject requester w :=
    ((link.rank subject requester w).1, (link.rank subject requester w).2, [link.name])

namespace FirstMatch

/-- The loop of `select`. -/
def selectFrom (subject : σ) (requester : ν) :
    Selection ι δ ο ρ → List (Ranking W κ τ σ ν ι δ ο ρ) → Consult W κ (Selection ι δ ο ρ)
  | answer, [] => pure answer
  | answer, selector :: rest => do
      let mine ← selector.select subject requester
      let answer := mine.otherwise answer
      if answer.Abstains then selectFrom subject requester answer rest else pure answer

/-- `select`: seeded with the abstention. -/
def select (selectors : List (Ranking W κ τ σ ν ι δ ο ρ)) (subject : σ) (requester : ν) :
    Consult W κ (Selection ι δ ο ρ) :=
  selectFrom subject requester .abstain selectors

variable [DecidableEq τ]

/-- The set of the links' subjects. -/
def subjects (selectors : List (Ranking W κ τ σ ν ι δ ο ρ)) : List τ :=
  (selectors.map Ranking.subjectType).dedup

/-- `__init__`: the links must agree on one subject, which the chain takes as
its own; a `TypeError` lists the subjects otherwise. -/
def new (anyType : τ) (selectors : List (Ranking W κ τ σ ν ι δ ο ρ)) :
    Except (List τ) (Ranking W κ τ σ ν ι δ ο ρ) :=
  match subjects selectors with
  | [] => .ok ⟨anyType, select selectors⟩
  | [subject] => .ok ⟨subject, select selectors⟩
  | several => .error several

omit [DecidableEq τ] in
/-- The loop falls through the links. -/
theorem selectFrom_eq (subject : σ) (requester : ν) {answer : Selection ι δ ο ρ}
    (hanswer : answer.Abstains) (selectors : List (Ranking W κ τ σ ν ι δ ο ρ)) :
    selectFrom subject requester answer selectors = firstOf Selection.Abstains answer
      (selectors.map fun selector => selector.select subject requester) := by
  induction selectors with
  | nil => rfl
  | cons selector rest ih =>
      show selector.select subject requester >>= _ = selector.select subject requester >>= _
      congr 1
      funext mine
      unfold fallThrough Selection.otherwise
      by_cases h : mine.Abstains
      · rw [if_pos h]
        simp only [if_pos h, if_pos hanswer]
        exact ih
      · simp only [if_neg h]

omit [DecidableEq τ] in
/-- Selecting is falling through the links. -/
theorem select_eq (selectors : List (Ranking W κ τ σ ν ι δ ο ρ)) (subject : σ)
    (requester : ν) :
    select selectors subject requester = firstOf Selection.Abstains Selection.abstain
      (selectors.map fun selector => selector.select subject requester) :=
  selectFrom_eq subject requester abstains_abstain selectors

/-- A chain over one subject is built. -/
theorem new_ok {anyType subject : τ} {selectors : List (Ranking W κ τ σ ν ι δ ο ρ)}
    (h : ∀ selector ∈ selectors, selector.subjectType = subject) :
    new anyType selectors
      = .ok ⟨if selectors = [] then anyType else subject, select selectors⟩ := by
  unfold new subjects
  cases selectors with
  | nil => rfl
  | cons selector rest =>
      have hall : (selector :: rest).map Ranking.subjectType
          = List.replicate (rest.length + 1) subject := by
        refine List.eq_replicate_iff.mpr ⟨by simp, ?_⟩
        intro type htype
        obtain ⟨s, hs, rfl⟩ := List.mem_map.mp htype
        exact h s hs
      rw [hall, List.replicate_dedup (by omega), if_neg (List.cons_ne_nil _ _)]

/-- Only a chain over one subject is built. -/
theorem subject_of_new {anyType : τ} {selectors : List (Ranking W κ τ σ ν ι δ ο ρ)}
    {built : Ranking W κ τ σ ν ι δ ο ρ} (h : new anyType selectors = .ok built) :
    ∀ selector ∈ selectors, selector.subjectType = built.subjectType := by
  intro selector hselector
  have hmem : selector.subjectType ∈ subjects selectors :=
    List.mem_dedup.mpr (List.mem_map_of_mem hselector)
  unfold new at h
  cases hsubjects : subjects selectors with
  | nil =>
      rw [hsubjects] at hmem
      exact absurd hmem List.not_mem_nil
  | cons subject several =>
      rw [hsubjects] at h hmem
      cases several with
      | nil =>
          cases h
          exact List.mem_singleton.mp hmem
      | cons _ _ => cases h

end FirstMatch

/-! ## §3. Whom a flat chain asks. -/

/-- An answer that a chain stops at: a raise, or a selection that does not
abstain, every holder in directory order included. -/
def Decides : Except SelectionError (Selection ι δ ο ρ) → Prop
  | .error _ => True
  | .ok answer => ¬ answer.Abstains

/-- `Consults links w answer asked w'`: from `w`, the links are asked in order
until one decides, which leaves `w'`. -/
inductive Consults (subject : σ) (requester : ν) : List (Link W κ τ σ ν ι δ ο ρ) → W →
    Except SelectionError (Selection ι δ ο ρ) → List κ → W → Prop
  /-- Nobody is left to ask. -/
  | exhausted (w : W) : Consults subject requester [] w (.ok .abstain) [] w
  /-- The link abstains, and the next is asked. -/
  | passed {link rest w mine w' answer asked w''} :
      link.rank subject requester w = (.ok mine, w') → mine.Abstains →
      Consults subject requester rest w' answer asked w'' →
      Consults subject requester (link :: rest) w answer (link.name :: asked) w''
  /-- The link decides, and none behind it is asked. -/
  | decided {link rest w answer w'} :
      link.rank subject requester w = (answer, w') → Decides answer →
      Consults subject requester (link :: rest) w answer [link.name] w'

/-- Falling through the links is asking them until one decides. -/
theorem consults_firstOf (subject : σ) (requester : ν) :
    ∀ (links : List (Link W κ τ σ ν ι δ ο ρ)) (w : W) {answer asked w'},
      firstOf Selection.Abstains Selection.abstain
        (links.map fun link => link.ranking.select subject requester) w = (answer, w', asked) →
      Consults subject requester links w answer asked w' := by
  intro links
  induction links with
  | nil =>
      intro w answer asked w' h
      cases h
      exact .exhausted w
  | cons link rest ih =>
      intro w answer asked w' h
      rw [List.map_cons, show firstOf Selection.Abstains Selection.abstain
        (link.ranking.select subject requester :: _) = _ >>= _ from rfl, Consult.run_bind] at h
      rcases hrank : link.rank subject requester w with ⟨mine, w₁⟩
      have hselect : link.ranking.select subject requester w = (mine, w₁, [link.name]) := by
        show ((link.rank subject requester w).1, (link.rank subject requester w).2, _) = _
        rw [hrank]
      rw [hselect] at h
      cases mine with
      | error e =>
          cases h
          exact .decided hrank trivial
      | ok mine =>
          by_cases hmine : mine.Abstains
          · have hfall : fallThrough Selection.Abstains (firstOf Selection.Abstains
                Selection.abstain (rest.map fun link => link.ranking.select subject requester))
                mine = firstOf Selection.Abstains Selection.abstain
                  (rest.map fun link => link.ranking.select subject requester) := if_pos hmine
            simp only [Consult.after, hfall] at h
            cases h
            exact .passed hrank hmine (ih w₁ rfl)
          · have hfall : fallThrough Selection.Abstains (firstOf Selection.Abstains
                Selection.abstain (rest.map fun link => link.ranking.select subject requester))
                mine = pure mine := if_neg hmine
            simp only [Consult.after, hfall] at h
            cases h
            exact .decided hrank hmine

/-- **A flat chain** asks its links in order until one decides. -/
theorem consults_select (links : List (Link W κ τ σ ν ι δ ο ρ)) (subject : σ) (requester : ν)
    (w : W) :
    Consults subject requester links w
      (FirstMatch.select (links.map Link.ranking) subject requester w).1
      (FirstMatch.select (links.map Link.ranking) subject requester w).2.2
      (FirstMatch.select (links.map Link.ranking) subject requester w).2.1 := by
  apply consults_firstOf
  rw [FirstMatch.select_eq, List.map_map]
  rfl

/-- A ranking that only reads its arguments, as a link. -/
def Link.ofSelector (name : κ) (subjectType : τ) (selector : Selector σ ν ι δ ο ρ) :
    Link W κ τ σ ν ι δ ο ρ where
  name := name
  subjectType := subjectType
  rank subject requester w := (selector subject requester, w)

/-- What the links answer settles the whole consultation. -/
theorem Consults.unique {subject : σ} {requester : ν} {links : List (Link W κ τ σ ν ι δ ο ρ)}
    {w : W} {answer answer' : Except SelectionError (Selection ι δ ο ρ)} {asked asked' : List κ}
    {w' w'' : W} (h : Consults subject requester links w answer asked w')
    (h' : Consults subject requester links w answer' asked' w'') :
    answer = answer' ∧ asked = asked' ∧ w' = w'' := by
  induction h generalizing asked' with
  | exhausted w =>
      cases h'
      exact ⟨rfl, rfl, rfl⟩
  | passed hrank hmine _ ih =>
      cases h' with
      | passed hrank' _ hrest =>
          cases hrank.symm.trans hrank'
          have heq := ih hrest
          exact ⟨heq.1, congrArg _ heq.2.1, heq.2.2⟩
      | decided hrank' hdecides =>
          cases hrank.symm.trans hrank'
          exact absurd hmine hdecides
  | decided hrank hdecides =>
      cases h' with
      | passed hrank' hmine _ =>
          cases hrank.symm.trans hrank'
          exact absurd hmine hdecides
      | decided hrank' _ =>
          cases hrank.symm.trans hrank'
          exact ⟨rfl, rfl, rfl⟩

/-- A link that abstains, and does nothing else. -/
def Link.Idle (link : Link W κ τ σ ν ι δ ο ρ) (subject : σ) (requester : ν) : Prop :=
  ∀ w, ∃ mine : Selection ι δ ο ρ,
    link.rank subject requester w = (.ok mine, w) ∧ mine.Abstains

/-- **Idle links** are asked, and change nothing else. -/
theorem Consults.of_inserted {subject : σ} {requester : ν} (inserted : κ → Bool)
    {links : List (Link W κ τ σ ν ι δ ο ρ)} {w w' : W}
    {answer : Except SelectionError (Selection ι δ ο ρ)} {asked : List κ}
    (h : Consults subject requester links w answer asked w')
    (hidle : ∀ link ∈ links, inserted link.name = true → link.Idle subject requester) :
    Consults subject requester (links.filter fun link => !inserted link.name) w answer
      (asked.filter fun name => !inserted name) w' := by
  induction h with
  | exhausted w => exact .exhausted w
  | @passed link rest w mine w₁ answer asked w₂ hrank hmine _ ih =>
      have ih := ih fun l hl => hidle l (List.mem_cons_of_mem _ hl)
      cases hins : inserted link.name with
      | true =>
          obtain ⟨mine', hidle', _⟩ := hidle link List.mem_cons_self hins w
          cases hrank.symm.trans hidle'
          rw [List.filter_cons_of_neg (by simp [hins]), List.filter_cons_of_neg (by simp [hins])]
          exact ih
      | false =>
          rw [List.filter_cons_of_pos (by simp [hins]), List.filter_cons_of_pos (by simp [hins])]
          exact .passed hrank hmine ih
  | @decided link rest w answer w₁ hrank hdecides =>
      cases hins : inserted link.name with
      | true =>
          obtain ⟨mine', hidle', habstains⟩ := hidle link List.mem_cons_self hins w
          cases hrank.symm.trans hidle'
          exact absurd habstains hdecides
      | false =>
          rw [List.filter_cons_of_pos (by simp [hins]), List.filter_cons_of_pos (by simp [hins])]
          exact .decided hrank hdecides

/-! ## §4. Chains of chains. -/

/-- How chains are nested: a link, or a chain over what is below it. -/
inductive Tree (W κ τ σ ν ι δ ο ρ : Type*)
  | leaf (link : Link W κ τ σ ν ι δ ο ρ)
  | chain (links : List (Tree W κ τ σ ν ι δ ο ρ))

namespace Tree

mutual

/-- The links of a tree, left to right. -/
def leaves : Tree W κ τ σ ν ι δ ο ρ → List (Link W κ τ σ ν ι δ ο ρ)
  | .leaf link => [link]
  | .chain links => leavesAll links

/-- The links of several trees, left to right. -/
def leavesAll : List (Tree W κ τ σ ν ι δ ο ρ) → List (Link W κ τ σ ν ι δ ο ρ)
  | [] => []
  | tree :: rest => leaves tree ++ leavesAll rest

end

mutual

/-- The subjects met in a tree: a link's own, and `anyType` at a chain without
links. -/
def subjects (anyType : τ) : Tree W κ τ σ ν ι δ ο ρ → List τ
  | .leaf link => [link.subjectType]
  | .chain [] => [anyType]
  | .chain (tree :: rest) => subjects anyType tree ++ subjectsAll anyType rest

/-- The subjects met in several trees. -/
def subjectsAll (anyType : τ) : List (Tree W κ τ σ ν ι δ ο ρ) → List τ
  | [] => []
  | tree :: rest => subjects anyType tree ++ subjectsAll anyType rest

end

variable [DecidableEq τ]

mutual

/-- Build the chains of a tree from the inside out. -/
def construct (anyType : τ) :
    Tree W κ τ σ ν ι δ ο ρ → Except (List τ) (Ranking W κ τ σ ν ι δ ο ρ)
  | .leaf link => .ok link.ranking
  | .chain links => constructAll anyType links >>= FirstMatch.new anyType

/-- Build the chains of several trees. -/
def constructAll (anyType : τ) : List (Tree W κ τ σ ν ι δ ο ρ) →
    Except (List τ) (List (Ranking W κ τ σ ν ι δ ο ρ))
  | [] => .ok []
  | tree :: rest => do
      let selector ← construct anyType tree
      let selectors ← constructAll anyType rest
      return selector :: selectors

end

/-- A link of a chain stands for its own links. -/
def Flattens (built : Ranking W κ τ σ ν ι δ ο ρ) (links : List (Link W κ τ σ ν ι δ ο ρ)) :
    Prop :=
  ∀ subject requester, StandsFor Selection.Abstains Selection.abstain
    (built.select subject requester)
    (links.map fun link => link.ranking.select subject requester)

omit [DecidableEq τ] in
/-- A chain over links that stand for groups selects as the chain over the
groups. -/
theorem select_flatten {selectors : List (Ranking W κ τ σ ν ι δ ο ρ)}
    {groups : List (List (Link W κ τ σ ν ι δ ο ρ))}
    (h : List.Forall₂ Flattens selectors groups) :
    FirstMatch.select selectors = FirstMatch.select (groups.flatten.map Link.ranking) := by
  funext subject requester
  rw [FirstMatch.select_eq, FirstMatch.select_eq, List.map_map]
  have hstands : List.Forall₂ (StandsFor Selection.Abstains Selection.abstain)
      (selectors.map fun selector => selector.select subject requester)
      (groups.map fun group => group.map fun link => link.ranking.select subject requester) := by
    rw [List.forall₂_map_left_iff, List.forall₂_map_right_iff]
    exact h.imp fun _ _ hflat => hflat subject requester
  rw [firstOf_flatten Selection.Abstains abstains_abstain hstands, List.map_flatten]
  rfl

omit [DecidableEq τ] in
/-- A link of a chain stands for itself. -/
theorem flattens_ranking (link : Link W κ τ σ ν ι δ ο ρ) : Flattens link.ranking [link] :=
  fun _ _ => standsFor_self Selection.Abstains abstains_abstain _

omit [DecidableEq τ] in
/-- A chain stands for its links. -/
theorem flattens_select {subject : τ} {links : List (Link W κ τ σ ν ι δ ο ρ)} :
    Flattens ⟨subject, FirstMatch.select (links.map Link.ranking)⟩ links := by
  intro subject requester next
  show FirstMatch.select _ subject requester >>= _ = _
  rw [FirstMatch.select_eq, List.map_map]
  rfl

omit [DecidableEq τ] in
/-- The links of several trees are those of each in turn. -/
theorem leavesAll_eq (trees : List (Tree W κ τ σ ν ι δ ο ρ)) :
    leavesAll trees = (trees.map leaves).flatten := by
  induction trees with
  | nil => rfl
  | cons tree rest ih =>
      show leaves tree ++ leavesAll rest = leaves tree ++ (rest.map leaves).flatten
      rw [ih]

omit [DecidableEq τ] in
mutual

/-- A link's subject is met in the tree. -/
theorem subjectType_mem_subjects (anyType : τ) {link : Link W κ τ σ ν ι δ ο ρ} :
    ∀ (tree : Tree W κ τ σ ν ι δ ο ρ), link ∈ tree.leaves →
      link.subjectType ∈ tree.subjects anyType
  | .leaf one, h => by
      cases List.mem_singleton.mp h
      exact List.mem_singleton_self _
  | .chain [], h => nomatch h
  | .chain (tree :: rest), h => subjectType_mem_subjectsAll anyType (tree :: rest) h

/-- A link's subject is met in the trees. -/
theorem subjectType_mem_subjectsAll (anyType : τ) {link : Link W κ τ σ ν ι δ ο ρ} :
    ∀ (trees : List (Tree W κ τ σ ν ι δ ο ρ)), link ∈ leavesAll trees →
      link.subjectType ∈ subjectsAll anyType trees
  | [], h => nomatch h
  | tree :: rest, h => (List.mem_append.mp h).elim
      (fun h => List.mem_append_left _ (subjectType_mem_subjects anyType tree h))
      fun h => List.mem_append_right _ (subjectType_mem_subjectsAll anyType rest h)

end

/-- The chain over trees that are built is built. -/
theorem construct_chain {anyType subject : τ} {trees : List (Tree W κ τ σ ν ι δ ο ρ)}
    {selectors : List (Ranking W κ τ σ ν ι δ ο ρ)}
    (hbuilt : constructAll anyType trees = .ok selectors)
    (hsubject : ∀ selector ∈ selectors, selector.subjectType = subject)
    (hflat : List.Forall₂ Flattens selectors (trees.map leaves)) :
    (chain trees).construct anyType = .ok ⟨if trees = [] then anyType else subject,
      FirstMatch.select ((chain trees).leaves.map Link.ranking)⟩ := by
  have hnil : selectors = [] ↔ trees = [] := by
    rw [← List.length_eq_zero_iff, ← List.length_eq_zero_iff, hflat.length_eq, List.length_map]
  show constructAll anyType trees >>= FirstMatch.new anyType = _
  rw [hbuilt]
  show FirstMatch.new anyType selectors = _
  rw [FirstMatch.new_ok hsubject, select_flatten hflat, ← leavesAll_eq, if_congr hnil rfl rfl]
  rfl

mutual

/-- **A tree over one subject** is built, keeps that subject, and stands for
its links. -/
theorem construct_spec {anyType subject : τ} :
    ∀ (tree : Tree W κ τ σ ν ι δ ο ρ), (∀ met ∈ tree.subjects anyType, met = subject) →
      ∃ built, tree.construct anyType = .ok built ∧ built.subjectType = subject ∧
        Flattens built tree.leaves
  | .leaf link, h =>
      ⟨link.ranking, rfl, h _ (List.mem_singleton_self _), flattens_ranking link⟩
  | .chain [], h =>
      ⟨⟨anyType, FirstMatch.select (List.map Link.ranking [])⟩, rfl,
        h _ (List.mem_singleton_self _), flattens_select⟩
  | .chain (tree :: rest), h => by
      obtain ⟨selectors, hbuilt, hsubject, hflat⟩ := constructAll_spec (tree :: rest) h
      refine ⟨_, construct_chain hbuilt hsubject hflat, ?_, flattens_select⟩
      rw [if_neg (List.cons_ne_nil tree rest)]

/-- Several trees over one subject are built, each for its links. -/
theorem constructAll_spec {anyType subject : τ} :
    ∀ (trees : List (Tree W κ τ σ ν ι δ ο ρ)),
      (∀ met ∈ subjectsAll anyType trees, met = subject) →
      ∃ selectors, constructAll anyType trees = .ok selectors ∧
        (∀ selector ∈ selectors, selector.subjectType = subject) ∧
        List.Forall₂ Flattens selectors (trees.map leaves)
  | [], _ => ⟨[], rfl, List.forall_mem_nil _, List.Forall₂.nil⟩
  | tree :: rest, h => by
      obtain ⟨selector, hbuilt, hsubject, hflat⟩ :=
        construct_spec tree fun met hmet => h met (List.mem_append_left _ hmet)
      obtain ⟨selectors, hbuilts, hsubjects, hflats⟩ :=
        constructAll_spec rest fun met hmet => h met (List.mem_append_right _ hmet)
      refine ⟨selector :: selectors, ?_, ?_, .cons hflat hflats⟩
      · show construct anyType tree >>= _ = _
        rw [hbuilt]
        show constructAll anyType rest >>= _ = _
        rw [hbuilts]
        rfl
      · intro met hmet
        rcases List.mem_cons.mp hmet with rfl | hmet
        · exact hsubject
        · exact hsubjects met hmet

end

mutual

/-- Only a tree over one subject is built. -/
theorem subject_of_construct {anyType : τ} :
    ∀ (tree : Tree W κ τ σ ν ι δ ο ρ) {built}, tree.construct anyType = .ok built →
      ∀ met ∈ tree.subjects anyType, met = built.subjectType
  | .leaf link, built, h, met, hmet => by
      cases h
      exact List.mem_singleton.mp hmet
  | .chain [], built, h, met, hmet => by
      cases h
      exact List.mem_singleton.mp hmet
  | .chain (tree :: rest), built, h, met, hmet => by
      cases hbuilt : constructAll anyType (tree :: rest) with
      | error several =>
          rw [construct, hbuilt] at h
          cases h
      | ok selectors =>
          rw [construct, hbuilt] at h
          obtain ⟨selector, hselector, heq⟩ := subjects_of_constructAll _ hbuilt met hmet
          rw [heq]
          exact FirstMatch.subject_of_new h selector hselector

/-- What is met in several trees is a selector's subject. -/
theorem subjects_of_constructAll {anyType : τ} :
    ∀ (trees : List (Tree W κ τ σ ν ι δ ο ρ)) {selectors},
      constructAll anyType trees = .ok selectors →
      ∀ met ∈ subjectsAll anyType trees, ∃ selector ∈ selectors, met = selector.subjectType
  | [], _, _, _, hmet => nomatch hmet
  | tree :: rest, selectors, h, met, hmet => by
      rw [constructAll] at h
      cases hbuilt : tree.construct anyType with
      | error several =>
          rw [hbuilt] at h
          cases h
      | ok selector =>
          cases hbuilts : constructAll anyType rest with
          | error several =>
              rw [hbuilt, hbuilts] at h
              cases h
          | ok others =>
              rw [hbuilt, hbuilts] at h
              cases h
              rcases List.mem_append.mp hmet with hmet | hmet
              · exact ⟨selector, List.mem_cons_self,
                  subject_of_construct tree hbuilt met hmet⟩
              · obtain ⟨other, hother, heq⟩ := subjects_of_constructAll rest hbuilts met hmet
                exact ⟨other, List.mem_cons_of_mem _ hother, heq⟩

end

/-- A chain that is built selects as the flat chain of its links. -/
theorem select_of_construct {anyType : τ} {trees : List (Tree W κ τ σ ν ι δ ο ρ)}
    {built : Ranking W κ τ σ ν ι δ ο ρ} (h : (chain trees).construct anyType = .ok built) :
    built.select = FirstMatch.select ((chain trees).leaves.map Link.ranking) := by
  cases trees with
  | nil =>
      cases h
      rfl
  | cons tree rest =>
      obtain ⟨selectors, hbuilt, hsubject, hflat⟩ := constructAll_spec (tree :: rest)
        (subject_of_construct (chain (tree :: rest)) h)
      rw [construct_chain hbuilt hsubject hflat] at h
      injection h with h
      rw [← h]

/-- **Chains nest freely.**  A tree of chains over one subject is built, as is the
flat chain of its links; both answer alike and ask the same links in the same
order, none behind the first that decides; and a tree with idle links removed
answers alike, having asked the same links but those. -/
theorem firstMatch_lawful (anyType shared : τ) (trees : List (Tree W κ τ σ ν ι δ ο ρ))
    (h : ∀ met ∈ (chain trees).subjects anyType, met = shared) :
    ∃ nested flat, (chain trees).construct anyType = .ok nested ∧
      FirstMatch.new anyType ((chain trees).leaves.map Link.ranking) = .ok flat ∧
      nested.select = flat.select ∧
      (∀ subject requester w, Consults subject requester (chain trees).leaves w
        (nested.select subject requester w).1 (nested.select subject requester w).2.2
        (nested.select subject requester w).2.1) ∧
      ∀ (bare : List (Tree W κ τ σ ν ι δ ο ρ)) (without : Ranking W κ τ σ ν ι δ ο ρ),
        (chain bare).construct anyType = .ok without →
        ∀ (inserted : κ → Bool) (subject : σ) (requester : ν),
          (chain bare).leaves
            = (chain trees).leaves.filter (fun link => !inserted link.name) →
          (∀ link ∈ (chain trees).leaves, inserted link.name = true →
            link.Idle subject requester) →
          ∀ w, without.select subject requester w =
            ((nested.select subject requester w).1, (nested.select subject requester w).2.1,
              (nested.select subject requester w).2.2.filter fun name => !inserted name) := by
  obtain ⟨nested, hnested, -, -⟩ := construct_spec (chain trees) h
  have hselect := select_of_construct hnested
  have hover : ∀ selector ∈ (chain trees).leaves.map Link.ranking,
      selector.subjectType = shared := by
    intro selector hselector
    obtain ⟨link, hlink, rfl⟩ := List.mem_map.mp hselector
    exact h _ (subjectType_mem_subjects anyType (chain trees) hlink)
  refine ⟨nested, _, hnested, FirstMatch.new_ok hover, hselect, ?_, ?_⟩
  · intro subject requester w
    rw [hselect]
    exact consults_select _ subject requester w
  · intro bare without hwithout inserted subject requester hleaves hidle w
    have hall := consults_select (chain trees).leaves subject requester w
    have hbare := consults_select (chain bare).leaves subject requester w
    rw [hleaves] at hbare
    obtain ⟨hanswer, hasked, hworld⟩ := hbare.unique (hall.of_inserted inserted hidle)
    rw [hselect, select_of_construct hwithout, hleaves]
    exact Prod.ext hanswer (Prod.ext hworld hasked)

/-- A chain in a chain: one link abstains, the chain behind it names a source. -/
def nestedChain : List (Tree Unit String String Unit Unit String ℕ ℕ Unit) :=
  [.leaf (Link.ofSelector "quiet" "int" fun _ _ => .ok .abstain),
    .chain [.chain [.leaf (Link.ofSelector "named" "int" fun _ _ => Selection.of ["v0"] none)],
      .leaf (Link.ofSelector "behind" "int" fun _ _ => .ok .wholeUniverse)]]

theorem nestedChain_lawful :
    ∃ nested flat, (chain nestedChain).construct "Any" = .ok nested ∧
      FirstMatch.new "Any" ((chain nestedChain).leaves.map Link.ranking) = .ok flat ∧
      nested.select = flat.select := by
  obtain ⟨nested, flat, hnested, hflat, hselect, -⟩ :=
    firstMatch_lawful "Any" "int" nestedChain (by decide)
  exact ⟨nested, flat, hnested, hflat, hselect⟩

end Tree

end Toso.Proposed
