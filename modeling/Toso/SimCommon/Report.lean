/-
  Toso.SimCommon.Report — the source-to-destination diagram of a run's transfers.

  The recorded edges become a graph and its roots, the sources nobody served.  Where no
  node served more than one, the diagram follows each root to its end; elsewhere it walks
  a tree and expands each node once.  Following a root needs an end: nothing is marked as
  seen there, so a cycle behind a root is followed for ever.  Walking a tree needs a stack:
  each level is a call inside the last, and past the interpreter's limit it raises.

  Following is given a bound on its steps, and a rendering is what some bound gives; the
  limit on nested calls is a parameter.

  Main results:
    * `serves_iff`, `mem_roots_iff`, `isChain_iff` — what the graph says of the edges.
    * `follow_ends_iff`, `walk_ok_iff` — which walks come to an end.
    * `walk_spec`, `follow_spec` — what a walk shows.
    * `renders_iff` — when every edge is in the diagram.
    * `nests_of_few` — few enough sources never nest too deep.
    * `Chronological.rooted` — every edge is, where a source was served before it serves.
-/
import Toso.Lib.Dict
import Toso.Lib.Reach
import Mathlib.Data.String.Basic
import Mathlib.Data.List.Sort

namespace Toso.SimCommon.Report

open Lib Relation

variable {τ : Type*}

/-! ## §1. The graph. -/

/-- `Edge`: source, destination and a label nothing reads. -/
abbrev Edge (τ : Type*) := String × String × τ

/-- One edge entered: a destination once, in the order of the edges. -/
def enter (children : Dict String (List String)) (e : Edge τ) : Dict String (List String) :=
  if e.2.1 ∈ children.getD e.1 [] then children.set e.1 (children.getD e.1 [])
  else children.set e.1 (children.getD e.1 [] ++ [e.2.1])

/-- The graph of `_edge_graph`. -/
structure Graph where
  children : Dict String (List String)
  roots : List String
  isChain : Bool

/-- `_edge_graph`. -/
def edgeGraph (edges : List (Edge τ)) : Graph :=
  let children := edges.foldl enter .empty
  let hasParent := edges.map fun e => e.2.1
  { children := children
    -- `sorted(sources - has_parent)`: a set, so each root once
    roots := ((edges.map Prod.fst).filter (· ∉ hasParent)).dedup.insertionSort (· ≤ ·)
    isChain := children.values.all fun kids => kids.length ≤ 1 }

/-- `children.get(node, [])`. -/
def Graph.kids (g : Graph) (node : String) : List String := g.children.getD node []

/-! ## §2. The diagram. -/

/-- A line of the diagram, and the nodes printed in it. -/
structure Line where
  names : List String
  text : String
  printed : ∀ x ∈ names, ∃ before after, text = before ++ x ++ after

/-- A line that prints nobody. -/
def Line.plain (text : String) : Line := ⟨[], text, fun _ hx => absurd hx List.not_mem_nil⟩

/-- A line that prints one node. -/
def Line.one (before node after : String) : Line :=
  ⟨[node], before ++ node ++ after, fun x hx => ⟨before, after, by rw [List.mem_singleton.mp hx]⟩⟩

/-- The loop over a chain: the nodes after `cur`. -/
def follow (g : Graph) : ℕ → String → Option (List String)
  | 0, _ => none
  | bound + 1, cur =>
      match g.kids cur with
      | [] => some []
      | next :: _ => (follow g bound next).map (next :: ·)

/-- `sep.join(parts)`. -/
def joinWith (sep : String) : List String → String
  | [] => ""
  | [part] => part
  | part :: next :: rest => part ++ sep ++ joinWith sep (next :: rest)

/-- Joined parts are all printed. -/
theorem joinWith_printed (sep : String) : ∀ parts : List String, ∀ x ∈ parts,
    ∃ before after, joinWith sep parts = before ++ x ++ after
  | [part], x, hx => by
      rw [List.mem_singleton.mp hx]
      exact ⟨"", "", by rw [String.empty_append, String.append_empty]; rfl⟩
  | part :: next :: rest, x, hx => by
      rcases List.mem_cons.mp hx with rfl | hrest
      · refine ⟨"", sep ++ joinWith sep (next :: rest), ?_⟩
        rw [String.empty_append, ← String.append_assoc]
        rfl
      · obtain ⟨before, after, h⟩ := joinWith_printed sep (next :: rest) x hrest
        refine ⟨part ++ sep ++ before, after, ?_⟩
        show part ++ sep ++ joinWith sep (next :: rest) = _
        rw [h]
        simp only [String.append_assoc]

/-- The line of a chain. -/
def chainLine (parts : List String) : Line :=
  ⟨parts, joinWith " ──▶ " parts, joinWith_printed " ──▶ " parts⟩

/-- `RecursionError`. -/
inductive RenderError
  | recursion
  deriving DecidableEq

/-- The loop of `walk` over the children left of a node, `walk` being what it calls: the
lines, and what is expanded after. -/
def walkKids (walk : String → String → List String → Except RenderError (List Line × List String))
    (g : Graph) (margin : String) :
    List String → List String → Except RenderError (List Line × List String)
  | [], expanded => .ok ([], expanded)
  | kid :: rest, expanded =>
      let branch := if rest = [] then "└─▶ " else "├─▶ "
      -- a node with children is expanded once; a leaf is printed wherever it comes up
      if kid ∈ expanded ∧ g.kids kid ≠ [] then
        (walkKids walk g margin rest expanded).map fun (lines, expanded) =>
          (.one (margin ++ branch) kid " (^)" :: lines, expanded)
      else
        (walk kid (margin ++ if rest = [] then "    " else "│   ") (kid :: expanded)).bind
          fun (below, expanded) =>
            (walkKids walk g margin rest expanded).map fun (lines, expanded) =>
              (.one (margin ++ branch) kid "" :: (below ++ lines), expanded)

/-- `walk`, with so many calls left before the recursion limit. -/
def walk (g : Graph) : ℕ → String → String → List String →
    Except RenderError (List Line × List String)
  | 0, _, _, _ => .error .recursion
  | limit + 1, node, margin, expanded =>
      walkKids (walk g limit) g margin (g.kids node) expanded

/-- The chains of the roots. -/
def chains (g : Graph) (bound : ℕ) : List String → Option (List Line)
  | [] => some []
  | root :: rest => (follow g bound root).bind fun parts =>
      (chains g bound rest).map (chainLine (root :: parts) :: ·)

/-- The trees of the roots. -/
def trees (g : Graph) (limit : ℕ) : List String → List String → Except RenderError (List Line)
  | [], _ => .ok []
  | root :: rest, expanded =>
      (walk g limit root "" (root :: expanded)).bind fun (below, expanded) =>
        (trees g limit rest expanded).map fun lines => .one "" root "" :: (below ++ lines)

/-- `render_tree`, within a bound on the steps along a chain, and with so many nested calls
left before the recursion limit. -/
def renderTree (limit bound : ℕ) (edges : List (Edge τ)) :
    Option (Except RenderError (List Line)) :=
  let g := edgeGraph edges
  if g.roots = [] then some (.ok [.plain "(no transfers)"])
  -- the chain marks nothing as seen
  else if g.isChain then (chains g bound g.roots).map .ok
  else some (trees g limit g.roots [])

/-- A rendering that comes to an end, at these lines. -/
def Renders (limit : ℕ) (edges : List (Edge τ)) (lines : List Line) : Prop :=
  ∃ bound, renderTree limit bound edges = some (.ok lines)

/-- A node in the diagram. -/
def Shown (lines : List Line) (node : String) : Prop := ∃ line ∈ lines, node ∈ line.names

/-! ## §3. What the graph says. -/

/-- One node serves another. -/
def Graph.Serves (g : Graph) (x y : String) : Prop := y ∈ g.kids x

theorem getD_enter (children : Dict String (List String)) (e : Edge τ) (x : String) :
    (enter children e).getD x [] =
      if e.1 = x then
        if e.2.1 ∈ children.getD x [] then children.getD x []
        else children.getD x [] ++ [e.2.1]
      else children.getD x [] := by
  by_cases hx : e.1 = x
  · subst hx
    rw [if_pos rfl]
    unfold enter Dict.getD
    split_ifs <;> rw [Dict.get?_set_self] <;> rfl
  · rw [if_neg hx]
    unfold enter Dict.getD
    split_ifs <;> rw [Dict.get?_set_ne _ _ hx]

/-- The children of a node are its destinations, each once. -/
theorem mem_foldl_enter (x y : String) : ∀ (edges : List (Edge τ))
    (children : Dict String (List String)),
    (y ∈ (edges.foldl enter children).getD x [] ↔
      y ∈ children.getD x [] ∨ ∃ e ∈ edges, e.1 = x ∧ e.2.1 = y)
  | [], children => by simp
  | e :: rest, children => by
      have ih := mem_foldl_enter x y rest (enter children e)
      rw [List.foldl_cons, ih, getD_enter]
      have hcons : (∃ e' ∈ e :: rest, e'.1 = x ∧ e'.2.1 = y) ↔
          (e.1 = x ∧ e.2.1 = y) ∨ ∃ e' ∈ rest, e'.1 = x ∧ e'.2.1 = y := by simp
      rw [hcons, ← or_assoc]
      refine or_congr_left ?_
      by_cases hx : e.1 = x
      · rw [if_pos hx]
        by_cases hin : e.2.1 ∈ children.getD x []
        · rw [if_pos hin]
          refine ⟨.inl, ?_⟩
          rintro (hy | ⟨_, rfl⟩)
          · exact hy
          · exact hin
        · rw [if_neg hin, List.mem_append, List.mem_singleton]
          exact or_congr_right ⟨fun hy => ⟨hx, hy.symm⟩, fun hy => hy.2.symm⟩
      · rw [if_neg hx]
        exact ⟨.inl, fun h => h.resolve_right fun h' => hx h'.1⟩

theorem serves_iff {edges : List (Edge τ)} {x y : String} :
    (edgeGraph edges).Serves x y ↔ ∃ e ∈ edges, e.1 = x ∧ e.2.1 = y := by
  have h := mem_foldl_enter x y edges .empty
  unfold Graph.Serves Graph.kids edgeGraph
  rw [h]
  simp [Dict.getD]

/-- A root is a source nobody serves. -/
theorem mem_roots_iff {edges : List (Edge τ)} {x : String} :
    x ∈ (edgeGraph edges).roots ↔ (∃ e ∈ edges, e.1 = x) ∧ ∀ e ∈ edges, e.2.1 ≠ x := by
  unfold edgeGraph
  show x ∈ (List.dedup _).insertionSort (· ≤ ·) ↔ _
  rw [(List.perm_insertionSort (· ≤ ·) _).mem_iff, List.mem_dedup, List.mem_filter,
    decide_eq_true_eq]
  constructor
  · rintro ⟨hsrc, hserved⟩
    exact ⟨List.mem_map.mp hsrc, fun e he heq => hserved (List.mem_map.mpr ⟨e, he, heq⟩)⟩
  · rintro ⟨hsrc, hserved⟩
    refine ⟨List.mem_map.mpr hsrc, fun hmem => ?_⟩
    obtain ⟨e, he, heq⟩ := List.mem_map.mp hmem
    exact hserved e he heq

/-- A chain: no node serves two. -/
theorem isChain_iff {edges : List (Edge τ)} :
    (edgeGraph edges).isChain = true ↔ ∀ x, ((edgeGraph edges).kids x).length ≤ 1 := by
  show ((edges.foldl enter Dict.empty).values.all fun kids => decide (kids.length ≤ 1)) = true ↔ _
  rw [List.all_eq_true]
  constructor
  · intro h x
    unfold Graph.kids Dict.getD
    cases hx : (edgeGraph edges).children.get? x with
    | none => exact Nat.zero_le _
    | some kids => exact of_decide_eq_true (h kids ((Dict.mem_values_iff _ _).mpr ⟨x, hx⟩))
  · intro h kids hkids
    obtain ⟨x, hx⟩ := (Dict.mem_values_iff _ _).mp hkids
    have hlen := h x
    unfold Graph.kids Dict.getD at hlen
    rw [show (edgeGraph edges).children.get? x = some kids from hx] at hlen
    exact decide_eq_true hlen

/-! ## §4. Chains. -/

section Follow

variable {g : Graph}

theorem follow_mono {bound cur parts} (h : follow g bound cur = some parts) (more : ℕ) :
    follow g (bound + more) cur = some parts := by
  induction bound generalizing cur parts with
  | zero => cases h
  | succ bound ih =>
      rw [Nat.add_right_comm]
      unfold follow at h ⊢
      cases hkids : g.kids cur with
      | nil =>
          rw [hkids] at h
          exact h
      | cons next rest =>
          rw [hkids] at h
          obtain ⟨parts', hparts, rfl⟩ := Option.map_eq_some_iff.mp h
          show (follow g (bound + more) next).map _ = _
          rw [ih hparts]
          rfl

/-- **A chain ends** exactly where following it does. -/
theorem follow_ends_iff (hchain : ∀ x, (g.kids x).length ≤ 1) (cur : String) :
    (∃ bound parts, follow g bound cur = some parts) ↔ Acc (fun y x => g.Serves x y) cur := by
  constructor
  · rintro ⟨bound, parts, h⟩
    induction bound generalizing cur parts with
    | zero => cases h
    | succ bound ih =>
        unfold follow at h
        refine Acc.intro cur fun k hk => ?_
        have hlen := hchain cur
        cases hkids : g.kids cur with
        | nil =>
            rw [Graph.Serves, hkids] at hk
            cases hk
        | cons next rest =>
            rw [hkids] at h hlen
            obtain ⟨parts', hparts, _⟩ := Option.map_eq_some_iff.mp h
            rw [Graph.Serves, hkids, List.eq_nil_of_length_eq_zero
              (Nat.le_zero.mp (Nat.le_of_succ_le_succ hlen)), List.mem_singleton] at hk
            rw [hk]
            exact ih next parts' hparts
  · intro h
    induction h with
    | intro cur _ ih =>
        cases hkids : g.kids cur with
        | nil => exact ⟨1, [], by unfold follow; rw [hkids]⟩
        | cons next rest =>
            have hserves : g.Serves cur next := by
              rw [Graph.Serves, hkids]
              exact List.mem_cons_self
            -- one step more than the child needs
            obtain ⟨bound, parts, hparts⟩ := ih next hserves
            refine ⟨bound + 1, next :: parts, ?_⟩
            unfold follow
            rw [hkids]
            show (follow g bound next).map _ = _
            rw [hparts]
            rfl

/-- **What a chain shows**: all its root reaches. -/
theorem follow_spec (hchain : ∀ x, (g.kids x).length ≤ 1) :
    ∀ {bound : ℕ} {cur : String} {parts : List String}, follow g bound cur = some parts →
      ∀ x, x ∈ cur :: parts ↔ ReflTransGen g.Serves cur x
  | 0, cur, parts, h => by cases h
  | bound + 1, cur, parts, h => by
      intro x
      unfold follow at h
      have hlen := hchain cur
      cases hkids : g.kids cur with
      | nil =>
          rw [hkids] at h
          obtain rfl := Option.some.inj h
          rw [List.mem_singleton]
          constructor
          · rintro rfl
            exact .refl
          · intro hx
            rcases ReflTransGen.cases_head hx with rfl | ⟨k, hk, _⟩
            · rfl
            · rw [Graph.Serves, hkids] at hk
              cases hk
      | cons next rest =>
          rw [hkids] at h hlen
          obtain ⟨parts', hparts, rfl⟩ := Option.map_eq_some_iff.mp h
          have ih := follow_spec hchain hparts x
          -- a chain's node has one child, so what it reaches it reaches through that one
          have honly : g.kids cur = [next] := by
            rw [hkids, List.eq_nil_of_length_eq_zero
              (Nat.le_zero.mp (Nat.le_of_succ_le_succ hlen))]
          rw [List.mem_cons, ih]
          constructor
          · rintro (rfl | hx)
            · exact .refl
            · refine .head ?_ hx
              rw [Graph.Serves, honly]
              exact List.mem_singleton_self next
          · intro hx
            rcases ReflTransGen.cases_head hx with rfl | ⟨k, hk, hrest⟩
            · exact .inl rfl
            · rw [Graph.Serves, honly, List.mem_singleton] at hk
              rw [← hk]
              exact .inr hrest

end Follow

/-! ## §5. Trees. -/

section Walk

variable {g : Graph}

/-- **What a walk shows and expands.**  It expands the children it is handed and only what
they reach; what it expands anew it shows, and expands all of its children. -/
structure Walked (g : Graph) (kids expanded : List String) (lines : List Line)
    (after : List String) : Prop where
  keeps : ∀ x ∈ expanded, x ∈ after
  takes : ∀ kid ∈ kids, kid ∈ after
  shows : ∀ x ∈ after, x ∈ expanded ∨ Shown lines x
  closed : ∀ x ∈ after, x ∈ expanded ∨ ∀ y, g.Serves x y → y ∈ after
  reached : ∀ x, Shown lines x → ∃ kid ∈ kids, ReflTransGen g.Serves kid x

theorem Shown.cons {line : Line} {lines : List Line} {x : String} (h : Shown lines x) :
    Shown (line :: lines) x := by
  obtain ⟨line', hmem, hx⟩ := h
  exact ⟨line', List.mem_cons_of_mem line hmem, hx⟩

theorem shown_append {lines lines' : List Line} {x : String} :
    Shown (lines ++ lines') x ↔ Shown lines x ∨ Shown lines' x := by
  unfold Shown
  simp only [List.mem_append, or_and_right, exists_or]

theorem shown_cons {line : Line} {lines : List Line} {x : String} :
    Shown (line :: lines) x ↔ x ∈ line.names ∨ Shown lines x := by
  unfold Shown
  simp only [List.mem_cons, exists_eq_or_imp]

/-- The children left, past one that was expanded before. -/
theorem Walked.past {kid : String} {rest expanded after : List String} {lines : List Line}
    (h : Walked g rest expanded lines after) (hkid : kid ∈ expanded) (before text : String) :
    Walked g (kid :: rest) expanded (.one before kid text :: lines) after where
  keeps := h.keeps
  takes x hx := by
    rcases List.mem_cons.mp hx with rfl | hrest
    · exact h.keeps x hkid
    · exact h.takes x hrest
  shows x hx := (h.shows x hx).imp_right fun hs => hs.cons
  closed := h.closed
  reached x hx := by
    rcases shown_cons.mp hx with hkid' | hlines
    · rw [List.mem_singleton.mp hkid']
      exact ⟨kid, List.mem_cons_self, .refl⟩
    · obtain ⟨k, hk, hreach⟩ := h.reached x hlines
      exact ⟨k, List.mem_cons_of_mem kid hk, hreach⟩

/-- The children left, past one that is expanded now. -/
theorem Walked.expand {kid : String} {rest expanded between after : List String}
    {below lines : List Line} (hbelow : Walked g (g.kids kid) (kid :: expanded) below between)
    (h : Walked g rest between lines after) (before text : String) :
    Walked g (kid :: rest) expanded (.one before kid text :: (below ++ lines)) after where
  keeps x hx := h.keeps x (hbelow.keeps x (List.mem_cons_of_mem kid hx))
  takes x hx := by
    rcases List.mem_cons.mp hx with rfl | hrest
    · exact h.keeps x (hbelow.keeps x List.mem_cons_self)
    · exact h.takes x hrest
  shows x hx := by
    rw [shown_cons, shown_append]
    rcases h.shows x hx with hbetween | hlines
    · rcases hbelow.shows x hbetween with hold | hshown
      · rcases List.mem_cons.mp hold with rfl | hexp
        · exact .inr (.inl (List.mem_singleton_self x))
        · exact .inl hexp
      · exact .inr (.inr (.inl hshown))
    · exact .inr (.inr (.inr hlines))
  closed x hx := by
    rcases h.closed x hx with hbetween | hclosed
    · rcases hbelow.closed x hbetween with hold | hclosed
      · rcases List.mem_cons.mp hold with rfl | hexp
        · -- the node itself: its children are the walk's own
          exact .inr fun y hy => h.keeps y (hbelow.takes y hy)
        · exact .inl hexp
      · exact .inr fun y hy => h.keeps y (hclosed y hy)
    · exact .inr hclosed
  reached x hx := by
    rw [shown_cons, shown_append] at hx
    rcases hx with hkid | hbelow' | hlines
    · rw [List.mem_singleton.mp hkid]
      exact ⟨kid, List.mem_cons_self, .refl⟩
    · obtain ⟨k, hk, hreach⟩ := hbelow.reached x hbelow'
      exact ⟨kid, List.mem_cons_self, .head hk hreach⟩
    · obtain ⟨k, hk, hreach⟩ := h.reached x hlines
      exact ⟨k, List.mem_cons_of_mem kid hk, hreach⟩

/-- A loop that ends passed its first child by, or expanded it. -/
theorem walkKids_cons
    {walk : String → String → List String → Except RenderError (List Line × List String)}
    {margin kid : String} {rest expanded after : List String} {lines : List Line}
    (h : walkKids walk g margin (kid :: rest) expanded = .ok (lines, after)) :
    ((kid ∈ expanded ∧ g.kids kid ≠ []) ∧ ∃ out,
      walkKids walk g margin rest expanded = .ok (out, after) ∧
      lines = .one (margin ++ if rest = [] then "└─▶ " else "├─▶ ") kid " (^)" :: out) ∨
    (¬ (kid ∈ expanded ∧ g.kids kid ≠ []) ∧ ∃ below between out,
      walk kid (margin ++ if rest = [] then "    " else "│   ") (kid :: expanded)
        = .ok (below, between) ∧
      walkKids walk g margin rest between = .ok (out, after) ∧
      lines = .one (margin ++ if rest = [] then "└─▶ " else "├─▶ ") kid ""
        :: (below ++ out)) := by
  unfold walkKids at h
  by_cases hseen : kid ∈ expanded ∧ g.kids kid ≠ []
  · simp only [if_pos hseen] at h
    cases hrest : walkKids walk g margin rest expanded with
    | error e =>
        rw [hrest] at h
        cases h
    | ok out =>
        rw [hrest] at h
        cases h
        exact .inl ⟨hseen, out.1, rfl, rfl⟩
  · simp only [if_neg hseen] at h
    cases hbelow : walk kid (margin ++ if rest = [] then "    " else "│   ") (kid :: expanded) with
    | error e =>
        rw [hbelow] at h
        cases h
    | ok below =>
        rw [hbelow] at h
        simp only [Except.bind] at h
        cases hrest : walkKids walk g margin rest below.2 with
        | error e =>
            rw [hrest] at h
            cases h
        | ok out =>
            rw [hrest] at h
            cases h
            exact .inr ⟨hseen, below.1, below.2, out.1, rfl, hrest, rfl⟩

/-- **What a walk shows and expands.** -/
theorem walk_spec {limit : ℕ} {node margin : String} {expanded : List String}
    {lines : List Line} {after : List String}
    (h : walk g limit node margin expanded = .ok (lines, after)) :
    Walked g (g.kids node) expanded lines after := by
  induction limit generalizing node margin expanded lines after with
  | zero => cases h
  | succ limit ih =>
      unfold walk at h
      generalize g.kids node = kids at h ⊢
      induction kids generalizing expanded lines after with
      | nil =>
          cases h
          exact ⟨fun _ hx => hx, fun x hx => absurd hx List.not_mem_nil, fun _ hx => .inl hx,
            fun _ hx => .inl hx, fun x hx => by
              obtain ⟨line, hmem, _⟩ := hx
              exact absurd hmem List.not_mem_nil⟩
      | cons kid rest ihrest =>
          rcases walkKids_cons h with
            ⟨hseen, out, hout, rfl⟩ | ⟨_, below, between, out, hbelow, hout, rfl⟩
          · exact (ihrest hout).past hseen.1 _ _
          · exact (ih hbelow).expand (ihrest hout) _ _

/-! ### How deep a walk nests. -/

/-- **The expansion of some children nests within some levels**: their loop is one, and a
child that is expanded is expanded a level below.  It takes what is expanded from the first
list to the second. -/
inductive Fits (g : Graph) : ℕ → List String → List String → List String → Prop
  | done {n : ℕ} {expanded : List String} : Fits g (n + 1) [] expanded expanded
  | seen {n : ℕ} {kid : String} {rest expanded after : List String} :
      kid ∈ expanded ∧ g.kids kid ≠ [] → Fits g (n + 1) rest expanded after →
      Fits g (n + 1) (kid :: rest) expanded after
  | down {n : ℕ} {kid : String} {rest expanded between after : List String} :
      ¬ (kid ∈ expanded ∧ g.kids kid ≠ []) →
      Fits g n (g.kids kid) (kid :: expanded) between → Fits g (n + 1) rest between after →
      Fits g (n + 1) (kid :: rest) expanded after

/-- **A walk ends** just where its expansion fits. -/
theorem walk_ok_iff {limit : ℕ} {node margin : String} {expanded after : List String} :
    (∃ lines, walk g limit node margin expanded = .ok (lines, after)) ↔
      Fits g limit (g.kids node) expanded after := by
  induction limit generalizing node margin expanded after with
  | zero =>
      constructor
      · rintro ⟨lines, h⟩
        cases h
      · intro h
        cases h
  | succ limit ih =>
      unfold walk
      generalize g.kids node = kids
      induction kids generalizing expanded after with
      | nil =>
          constructor
          · rintro ⟨lines, h⟩
            cases h
            exact .done
          · intro h
            cases h
            exact ⟨[], rfl⟩
      | cons kid rest ihrest =>
          constructor
          · rintro ⟨lines, h⟩
            rcases walkKids_cons h with
              ⟨hseen, out, hout, _⟩ | ⟨hnew, below, between, out, hbelow, hout, _⟩
            · exact .seen hseen (ihrest.mp ⟨out, hout⟩)
            · exact .down hnew (ih.mp ⟨below, hbelow⟩) (ihrest.mp ⟨out, hout⟩)
          · intro h
            cases h with
            | seen hseen hrest =>
                obtain ⟨out, hout⟩ := ihrest.mpr hrest
                unfold walkKids
                simp only [if_pos hseen, hout]
                exact ⟨_, rfl⟩
            | down hnew hbelow hrest =>
                obtain ⟨below, hwalk⟩ : ∃ below, walk g limit kid
                    (margin ++ if rest = [] then "    " else "│   ") (kid :: expanded)
                      = .ok (below, _) := ih.mpr hbelow
                obtain ⟨out, hout⟩ := ihrest.mpr hrest
                unfold walkKids
                simp only [if_neg hnew, hwalk, Except.bind, hout]
                exact ⟨_, rfl⟩

theorem Fits.keeps {n : ℕ} {kids expanded after : List String} (h : Fits g n kids expanded after) :
    ∀ x ∈ expanded, x ∈ after := by
  induction h with
  | done => exact fun _ hx => hx
  | seen _ _ ih => exact ih
  | down _ _ _ ihbelow ihrest =>
      exact fun x hx => ihrest x (ihbelow x (List.mem_cons_of_mem _ hx))

/-- The nodes with children that are not expanded yet. -/
def ahead (g : Graph) (expanded : List String) : Finset String :=
  g.children.keys.toFinset.filter fun x => x ∉ expanded ∧ g.kids x ≠ []

theorem ahead_subset {expanded after : List String} (h : ∀ x ∈ expanded, x ∈ after) :
    ahead g after ⊆ ahead g expanded := by
  intro x hx
  obtain ⟨hmem, hnew, hkids⟩ := Finset.mem_filter.mp hx
  exact Finset.mem_filter.mpr ⟨hmem, fun hold => hnew (h x hold), hkids⟩

/-- Expanding a node with children leaves fewer ahead. -/
theorem ahead_lt {kid : String} {expanded : List String} (hnew : kid ∉ expanded)
    (hkids : g.kids kid ≠ []) : (ahead g (kid :: expanded)).card < (ahead g expanded).card := by
  refine Finset.card_lt_card ⟨ahead_subset fun x hx => List.mem_cons_of_mem kid hx, fun hsub => ?_⟩
  have hkey : kid ∈ g.children := by
    by_contra hmem
    apply hkids
    unfold Graph.kids Dict.getD
    rw [(Dict.get?_eq_none_iff _ _).mpr hmem]
    rfl
  have hself : kid ∈ ahead g expanded :=
    Finset.mem_filter.mpr ⟨List.mem_toFinset.mpr hkey, hnew, hkids⟩
  exact (Finset.mem_filter.mp (hsub hself)).2.1 List.mem_cons_self

end Walk

/-! ## §6. The diagram. -/

section Diagram

variable {g : Graph}

theorem chains_mono {bound : ℕ} : ∀ {roots : List String} {lines : List Line},
    chains g bound roots = some lines → ∀ more, chains g (bound + more) roots = some lines
  | [], lines, h, more => h
  | root :: rest, lines, h, more => by
      unfold chains at h ⊢
      obtain ⟨parts, hparts, h⟩ := Option.bind_eq_some_iff.mp h
      obtain ⟨lines', hlines', rfl⟩ := Option.map_eq_some_iff.mp h
      rw [follow_mono hparts more]
      show Option.map _ (chains g (bound + more) rest) = _
      rw [chains_mono hlines' more]
      rfl

/-- **The chains**: they end where each root's does, and show what the roots reach. -/
theorem chains_spec (hchain : ∀ x, (g.kids x).length ≤ 1) : ∀ roots : List String,
    ((∃ bound lines, chains g bound roots = some lines) ↔
      ∀ root ∈ roots, Acc (fun y x => g.Serves x y) root) ∧
    ∀ bound lines, chains g bound roots = some lines →
      ∀ x, Shown lines x ↔ ∃ root ∈ roots, ReflTransGen g.Serves root x
  | [] => by
      refine ⟨⟨fun _ root hroot => absurd hroot List.not_mem_nil, fun _ => ⟨0, [], rfl⟩⟩, ?_⟩
      intro bound lines h x
      obtain rfl := Option.some.inj h
      simp [Shown]
  | root :: rest => by
      obtain ⟨hends, hshows⟩ := chains_spec hchain rest
      refine ⟨⟨?_, fun h => ?_⟩, ?_⟩
      · rintro ⟨bound, lines, h⟩ root' hroot'
        unfold chains at h
        obtain ⟨parts, hparts, h⟩ := Option.bind_eq_some_iff.mp h
        obtain ⟨lines', hlines', _⟩ := Option.map_eq_some_iff.mp h
        rcases List.mem_cons.mp hroot' with rfl | hrest
        · exact (follow_ends_iff hchain root').mp ⟨bound, parts, hparts⟩
        · exact hends.mp ⟨bound, lines', hlines'⟩ root' hrest
      · obtain ⟨bound, parts, hparts⟩ :=
          (follow_ends_iff hchain root).mpr (h root List.mem_cons_self)
        obtain ⟨bound', lines, hlines⟩ :=
          hends.mpr fun root' hroot' => h root' (List.mem_cons_of_mem root hroot')
        -- one bound for the root's chain and for those of the rest
        have hlines' := chains_mono hlines bound
        rw [Nat.add_comm] at hlines'
        refine ⟨bound + bound', ?_⟩
        unfold chains
        rw [follow_mono hparts bound', Option.bind_some, hlines']
        exact ⟨_, rfl⟩
      · intro bound lines h x
        unfold chains at h
        obtain ⟨parts, hparts, h⟩ := Option.bind_eq_some_iff.mp h
        obtain ⟨lines', hlines', rfl⟩ := Option.map_eq_some_iff.mp h
        rw [shown_cons, hshows bound lines' hlines' x]
        show x ∈ root :: parts ∨ _ ↔ _
        rw [follow_spec hchain hparts x]
        simp only [List.mem_cons, exists_eq_or_imp]

/-- A tree that ends, and the trees after it. -/
theorem trees_cons {limit : ℕ} {root : String} {rest expanded : List String}
    {lines : List Line} (h : trees g limit (root :: rest) expanded = .ok lines) :
    ∃ below between out, walk g limit root "" (root :: expanded) = .ok (below, between) ∧
      trees g limit rest between = .ok out ∧
      lines = .one "" root "" :: (below ++ out) := by
  unfold trees at h
  cases hbelow : walk g limit root "" (root :: expanded) with
  | error e =>
      rw [hbelow] at h
      cases h
  | ok below =>
      rw [hbelow] at h
      simp only [Except.bind] at h
      cases hrest : trees g limit rest below.2 with
      | error e =>
          rw [hrest] at h
          cases h
      | ok out =>
          rw [hrest] at h
          cases h
          exact ⟨below.1, below.2, out, rfl, hrest, rfl⟩

/-- The trees of the roots nest within a limit, one after the other. -/
def Shallow (g : Graph) (limit : ℕ) : List String → List String → Prop
  | [], _ => True
  | root :: rest, expanded => ∃ between, Fits g limit (g.kids root) (root :: expanded) between ∧
      Shallow g limit rest between

/-- **The trees end** just where they nest within the limit. -/
theorem trees_ok_iff {limit : ℕ} : ∀ {roots expanded : List String},
    (∃ lines, trees g limit roots expanded = .ok lines) ↔ Shallow g limit roots expanded
  | [], expanded => ⟨fun _ => trivial, fun _ => ⟨[], rfl⟩⟩
  | root :: rest, expanded => by
      constructor
      · rintro ⟨lines, h⟩
        obtain ⟨below, between, out, hbelow, hout, _⟩ := trees_cons h
        exact ⟨between, walk_ok_iff.mp ⟨below, hbelow⟩, trees_ok_iff.mp ⟨out, hout⟩⟩
      · rintro ⟨between, hfits, hrest⟩
        obtain ⟨below, hwalk⟩ : ∃ below, walk g limit root "" (root :: expanded)
            = .ok (below, between) := walk_ok_iff.mpr hfits
        obtain ⟨out, hout⟩ := trees_ok_iff.mpr hrest
        unfold trees
        rw [hwalk]
        simp only [Except.bind, hout]
        exact ⟨_, rfl⟩

/-- **The trees** show what the roots reach, past what was expanded before. -/
theorem trees_spec {limit : ℕ} : ∀ {roots expanded : List String} {lines : List Line},
    trees g limit roots expanded = .ok lines → ∃ after, Walked g roots expanded lines after
  | [], expanded, lines, h => by
      cases h
      exact ⟨expanded, fun _ hx => hx, fun x hx => absurd hx List.not_mem_nil, fun _ hx => .inl hx,
        fun _ hx => .inl hx, fun x hx => by
          obtain ⟨line, hmem, _⟩ := hx
          exact absurd hmem List.not_mem_nil⟩
  | root :: rest, expanded, lines, h => by
      obtain ⟨below, between, out, hbelow, hout, rfl⟩ := trees_cons h
      obtain ⟨after, hafter⟩ := trees_spec hout
      exact ⟨after, (walk_spec hbelow).expand hafter _ _⟩

end Diagram

/-- An edge of the diagram: both of its ends are in it. -/
def EdgeShown (lines : List Line) (e : Edge τ) : Prop := Shown lines e.1 ∧ Shown lines e.2.1

/-- **The condition**: whoever served was reached from a source nobody served, and where
no node served more than one, nobody was served by way of itself. -/
structure Rooted (edges : List (Edge τ)) : Prop where
  reached : ∀ e ∈ edges, ∃ root ∈ (edgeGraph edges).roots,
    ReflTransGen (edgeGraph edges).Serves root e.1
  acyclic : (edgeGraph edges).isChain = true →
    ∀ x, ¬ TransGen (edgeGraph edges).Serves x x

/-- **The other condition**: what is drawn as a tree nests within the recursion limit. -/
def Nests (limit : ℕ) (edges : List (Edge τ)) : Prop :=
  (edgeGraph edges).isChain ≠ true →
    Shallow (edgeGraph edges) limit (edgeGraph edges).roots []

/-- The nodes that are served are among the destinations. -/
theorem serves_mem {edges : List (Edge τ)} (x y : String) (h : (edgeGraph edges).Serves x y) :
    y ∈ (edges.map fun e => e.2.1).toFinset := by
  obtain ⟨e, he, _, rfl⟩ := serves_iff.mp h
  exact List.mem_toFinset.mpr (List.mem_map.mpr ⟨e, he, rfl⟩)

/-- Where every source is reached, a cycle is reached from a root. -/
theorem cycle_reached {edges : List (Edge τ)} (h : ∀ e ∈ edges,
    ∃ root ∈ (edgeGraph edges).roots, ReflTransGen (edgeGraph edges).Serves root e.1) {x : String}
    (hx : TransGen (edgeGraph edges).Serves x x) :
    ∃ root ∈ (edgeGraph edges).roots, ReflTransGen (edgeGraph edges).Serves root x := by
  obtain ⟨k, hk, _⟩ := TransGen.head'_iff.mp hx
  obtain ⟨e, he, rfl, _⟩ := serves_iff.mp hk
  exact h e he

/-- A diagram that shows just what the roots reach shows the edges whose sources they
reach. -/
theorem edges_shown_iff {edges : List (Edge τ)} {lines : List Line}
    (hshows : ∀ x, Shown lines x ↔ ∃ root ∈ (edgeGraph edges).roots,
      ReflTransGen (edgeGraph edges).Serves root x) :
    (∀ e ∈ edges, EdgeShown lines e) ↔ ∀ e ∈ edges, ∃ root ∈ (edgeGraph edges).roots,
      ReflTransGen (edgeGraph edges).Serves root e.1 := by
  constructor
  · exact fun h e he => (hshows e.1).mp (h e he).1
  · intro h e he
    obtain ⟨root, hroot, hreach⟩ := h e he
    have hserve : (edgeGraph edges).Serves e.1 e.2.1 := serves_iff.mpr ⟨e, he, rfl, rfl⟩
    exact ⟨(hshows e.1).mpr ⟨root, hroot, hreach⟩,
      (hshows e.2.1).mpr ⟨root, hroot, hreach.tail hserve⟩⟩

section Limit

variable {limit : ℕ} {edges : List (Edge τ)}

/-- Without a root, nothing is shown. -/
theorem renders_none (hroots : (edgeGraph edges).roots = []) (lines : List Line) :
    Renders limit edges lines ↔ lines = [.plain "(no transfers)"] := by
  unfold Renders renderTree
  simp only [if_pos hroots, Option.some.injEq, Except.ok.injEq, exists_const]
  exact eq_comm

theorem renders_chain (hroots : (edgeGraph edges).roots ≠ [])
    (hchain : (edgeGraph edges).isChain = true) (lines : List Line) :
    Renders limit edges lines ↔
      ∃ bound, chains (edgeGraph edges) bound (edgeGraph edges).roots = some lines := by
  unfold Renders renderTree
  simp only [if_neg hroots, hchain, if_true, Option.map_eq_some_iff, Except.ok.injEq,
    exists_eq_right]

theorem renders_trees (hroots : (edgeGraph edges).roots ≠ [])
    (hchain : ¬ (edgeGraph edges).isChain = true) (lines : List Line) :
    Renders limit edges lines ↔
      trees (edgeGraph edges) limit (edgeGraph edges).roots [] = .ok lines := by
  unfold Renders renderTree
  simp only [if_neg hroots, if_neg hchain, Option.some.injEq, exists_const]

/-- Without a root, only no edges at all are shown. -/
theorem renders_iff_of_none (hroots : (edgeGraph edges).roots = []) :
    (∃ lines, Renders limit edges lines ∧ ∀ e ∈ edges, EdgeShown lines e) ↔ Rooted edges := by
  constructor
  · rintro ⟨lines, hlines, hall⟩
    rw [(renders_none hroots lines).mp hlines] at hall
    have hnone : edges = [] := by
      refine List.eq_nil_iff_forall_not_mem.mpr fun e he => ?_
      obtain ⟨line, hline, hx⟩ := (hall e he).1
      rw [List.mem_singleton.mp hline] at hx
      exact absurd hx List.not_mem_nil
    subst hnone
    refine ⟨fun e he => absurd he List.not_mem_nil, fun _ x hx => ?_⟩
    obtain ⟨k, hk, _⟩ := TransGen.head'_iff.mp hx
    obtain ⟨e, he, _⟩ := serves_iff.mp hk
    exact absurd he List.not_mem_nil
  · intro h
    refine ⟨_, (renders_none hroots _).mpr rfl, fun e he => ?_⟩
    obtain ⟨root, hroot, _⟩ := h.reached e he
    rw [hroots] at hroot
    exact absurd hroot List.not_mem_nil

/-- A chain is rendered unless it comes back to itself. -/
theorem renders_iff_of_chain (hroots : (edgeGraph edges).roots ≠ [])
    (hchain : (edgeGraph edges).isChain = true) :
    (∃ lines, Renders limit edges lines ∧ ∀ e ∈ edges, EdgeShown lines e) ↔ Rooted edges := by
  obtain ⟨hends, hshows⟩ := chains_spec (isChain_iff.mp hchain) (edgeGraph edges).roots
  constructor
  · rintro ⟨lines, hlines, hall⟩
    obtain ⟨bound, hbound⟩ := (renders_chain hroots hchain lines).mp hlines
    have hreached := (edges_shown_iff (hshows bound lines hbound)).mp hall
    refine ⟨hreached, fun _ x hx => ?_⟩
    -- a cycle a root reaches is followed for ever
    obtain ⟨root, hroot, hreach⟩ := cycle_reached hreached hx
    exact acyclic_of_acc (hends.mp ⟨bound, lines, hbound⟩ root hroot) x hreach hx
  · intro h
    obtain ⟨bound, lines, hbound⟩ := hends.mpr fun root _ =>
      acc_of_acyclic _ serves_mem fun x _ => h.acyclic hchain x
    exact ⟨lines, (renders_chain hroots hchain lines).mpr ⟨bound, hbound⟩,
      (edges_shown_iff (hshows bound lines hbound)).mpr h.reached⟩

/-- A tree is rendered unless it nests too deep, and shows what its roots reach. -/
theorem renders_iff_of_trees (hroots : (edgeGraph edges).roots ≠ [])
    (hchain : ¬ (edgeGraph edges).isChain = true) :
    (∃ lines, Renders limit edges lines ∧ ∀ e ∈ edges, EdgeShown lines e) ↔
      Rooted edges ∧ Nests limit edges := by
  have hshows : ∀ lines, Renders limit edges lines → ∀ x, Shown lines x ↔
      ∃ root ∈ (edgeGraph edges).roots, ReflTransGen (edgeGraph edges).Serves root x := by
    intro lines hlines x
    obtain ⟨after, hafter⟩ := trees_spec ((renders_trees hroots hchain lines).mp hlines)
    constructor
    · exact hafter.reached x
    · rintro ⟨root, hroot, hreach⟩
      -- nothing was expanded before, so what is expanded after is closed
      have hclosed : ∀ x y, x ∈ after → (edgeGraph edges).Serves x y → y ∈ after :=
        fun x y hx => (hafter.closed x hx).resolve_left List.not_mem_nil y
      have hmem := mem_of_reaches hclosed (hafter.takes root hroot) hreach
      exact (hafter.shows x hmem).resolve_left List.not_mem_nil
  constructor
  · rintro ⟨lines, hlines, hall⟩
    have htrees := (renders_trees hroots hchain lines).mp hlines
    exact ⟨⟨(edges_shown_iff (hshows lines hlines)).mp hall, fun h => absurd h hchain⟩,
      fun _ => trees_ok_iff.mp ⟨lines, htrees⟩⟩
  · rintro ⟨h, hnests⟩
    obtain ⟨lines, htrees⟩ := trees_ok_iff.mpr (hnests hchain)
    have hlines := (renders_trees hroots hchain lines).mpr htrees
    exact ⟨lines, hlines, (edges_shown_iff (hshows lines hlines)).mpr h.reached⟩

end Limit

/-- **When the rendering ends with every edge in the diagram**: exactly where every source
is reached from a root, a chain has no cycle, and a tree nests within the recursion limit. -/
theorem renders_iff (limit : ℕ) (edges : List (Edge τ)) :
    (∃ lines, Renders limit edges lines ∧ ∀ e ∈ edges, EdgeShown lines e) ↔
      Rooted edges ∧ Nests limit edges := by
  by_cases hroots : (edgeGraph edges).roots = []
  · rw [renders_iff_of_none hroots]
    refine ⟨fun h => ⟨h, fun _ => ?_⟩, fun h => h.1⟩
    rw [hroots]
    trivial
  · by_cases hchain : (edgeGraph edges).isChain = true
    · rw [renders_iff_of_chain hroots hchain]
      exact ⟨fun h => ⟨h, fun hnot => absurd hchain hnot⟩, fun h => h.1⟩
    · exact renders_iff_of_trees hroots hchain

example : (renderTree 0 4 [("volp", "volr0", ()), ("volr0", "volr1", ())]).map
    (Except.map (List.map Line.text)) = some (.ok ["volp ──▶ volr0 ──▶ volr1"]) := by
  decide +kernel

-- a branch three levels deep, with three calls left and with two
example :
    let edges := [("a", "b", ()), ("b", "c", ()), ("a", "d", ())]
    (renderTree 3 0 edges).map (Except.map (List.map Line.text))
        = some (.ok ["a", "├─▶ b", "│   └─▶ c", "└─▶ d"]) ∧
      (renderTree 2 0 edges).map (Except.map (List.map Line.text))
        = some (.error .recursion) := by
  decide +kernel

/-- **A cycle behind a root** is followed for ever, and one without a root is no transfer:
three transfers with no rendering at all, and two with a rendering that names nobody. -/
theorem cycle_not_shown :
    let rho : List (Edge Unit) := [("a", "b", ()), ("b", "c", ()), ("c", "b", ())]
    let ring : List (Edge Unit) := [("a", "b", ()), ("b", "a", ())]
    (∀ limit lines, ¬ Renders limit rho lines) ∧ ∀ limit lines, Renders limit ring lines →
      lines.map Line.text = ["(no transfers)"] ∧ ¬ Shown lines "a" := by
  intro rho ring
  constructor
  · intro limit lines hlines
    have hroots : (edgeGraph rho).roots = ["a"] := by decide +kernel
    have hchain : (edgeGraph rho).isChain = true := by decide +kernel
    obtain ⟨bound, hbound⟩ := (renders_chain (by rw [hroots]; decide) hchain lines).mp hlines
    have hends := (chains_spec (isChain_iff.mp hchain) _).1.mp ⟨bound, lines, hbound⟩ "a"
      (by rw [hroots]; exact List.mem_singleton_self "a")
    have hserves : ∀ e ∈ rho, (edgeGraph rho).Serves e.1 e.2.1 := fun e he =>
      serves_iff.mpr ⟨e, he, rfl, rfl⟩
    have hab := hserves ("a", "b", ()) (by decide)
    have hbc := hserves ("b", "c", ()) (by decide)
    have hcb := hserves ("c", "b", ()) (by decide)
    exact acyclic_of_acc hends "b" (.single hab) (.tail (.single hbc) hcb)
  · intro limit lines hlines
    rw [(renders_none (by decide +kernel) lines).mp hlines]
    refine ⟨rfl, ?_⟩
    rintro ⟨line, hline, hx⟩
    rw [List.mem_singleton.mp hline] at hx
    exact absurd hx List.not_mem_nil

/-! ## §7. Transfers in order. -/

/-- **Each node is served once, by a node that is never served or was served before.** -/
def Chronological (edges : List (Edge τ)) : Prop :=
  ∀ before e after, edges = before ++ e :: after → e.2.1 ∉ before.map (fun d => d.2.1) ∧
    (e.1 ∉ edges.map (fun d => d.2.1) ∨ e.1 ∈ before.map fun d => d.2.1)

/-- A source of chronological edges is reached from a root. -/
theorem Chronological.reached {edges : List (Edge τ)} (h : Chronological edges) (n : ℕ) :
    ∀ before e after, edges = before ++ e :: after → before.length = n →
      ∃ root ∈ (edgeGraph edges).roots, ReflTransGen (edgeGraph edges).Serves root e.1 := by
  induction n using Nat.strongRec with
  | ind n ih =>
      intro before e after hsplit hlen
      have he : e ∈ edges := by
        rw [hsplit]
        exact List.mem_append_right _ List.mem_cons_self
      rcases (h before e after hsplit).2 with hnever | hearlier
      · refine ⟨e.1, mem_roots_iff.mpr ⟨⟨e, he, rfl⟩, fun d hd heq => hnever ?_⟩, .refl⟩
        exact List.mem_map.mpr ⟨d, hd, heq⟩
      · -- the edge that served the source comes before
        obtain ⟨d, hd, hserved⟩ := List.mem_map.mp hearlier
        obtain ⟨first, last, hbefore⟩ := List.append_of_mem hd
        have hsplit' : edges = first ++ d :: (last ++ e :: after) := by
          rw [hsplit, hbefore, List.append_assoc, List.cons_append]
        have hshort : first.length < n := by
          rw [← hlen, hbefore, List.length_append, List.length_cons]
          omega
        obtain ⟨root, hroot, hreach⟩ := ih first.length hshort first d _ hsplit' rfl
        have hdmem : d ∈ edges := by
          rw [hsplit']
          exact List.mem_append_right _ List.mem_cons_self
        exact ⟨root, hroot, hreach.tail (serves_iff.mpr ⟨d, hdmem, rfl, hserved⟩)⟩

/-- A node that reaches another by chronological edges is never served, or was served
before it. -/
theorem Chronological.before {edges : List (Edge τ)} (h : Chronological edges) {x y : String}
    (hxy : TransGen (edgeGraph edges).Serves x y) :
    ∀ before e after, edges = before ++ e :: after → e.2.1 = y →
      x ∉ edges.map (fun d => d.2.1) ∨ x ∈ before.map fun d => d.2.1 := by
  -- a node is served by one edge only
  have honly : ∀ before e after d, edges = before ++ e :: after → d ∈ edges → d.2.1 = e.2.1 →
      d = e := by
    intro before e after d hsplit hd heq
    obtain ⟨first, last, hsplit'⟩ := List.append_of_mem hd
    have hd' := (h first d last hsplit').1
    have he' := (h before e after hsplit).1
    rcases List.append_eq_append_iff.mp (hsplit.symm.trans hsplit') with
      ⟨mid, hfirst, hrest⟩ | ⟨mid, hbefore, hrest⟩
    · cases mid with
      | nil => exact (List.cons.inj hrest).1.symm
      | cons m mid =>
          obtain ⟨rfl, _⟩ := List.cons.inj hrest
          refine absurd ?_ hd'
          rw [hfirst, heq, List.map_append, List.map_cons]
          exact List.mem_append_right _ List.mem_cons_self
    · cases mid with
      | nil => exact (List.cons.inj hrest).1
      | cons m mid =>
          obtain ⟨rfl, _⟩ := List.cons.inj hrest
          refine absurd ?_ he'
          rw [hbefore, ← heq, List.map_append, List.map_cons]
          exact List.mem_append_right _ List.mem_cons_self
  induction hxy with
  | single hst =>
      intro before e after hsplit hy
      obtain ⟨d, hd, rfl, hdy⟩ := serves_iff.mp hst
      rw [honly before e after d hsplit hd (hdy.trans hy.symm)]
      exact (h before e after hsplit).2
  | tail hreach hst ih =>
      intro before e after hsplit hy
      obtain ⟨d, hd, hdm, hdy⟩ := serves_iff.mp hst
      obtain ⟨_, _, hlast⟩ := TransGen.tail'_iff.mp hreach
      obtain ⟨last, hlastmem, _, hlastm⟩ := serves_iff.mp hlast
      have hde := honly before e after d hsplit hd (hdy.trans hy.symm)
      rcases (h before e after hsplit).2 with hnever | hearlier
      · -- the node in between was served
        refine absurd (List.mem_map.mpr ⟨last, hlastmem, ?_⟩) hnever
        rw [hlastm, ← hdm, hde]
      · obtain ⟨c, hc, hcm⟩ := List.mem_map.mp hearlier
        obtain ⟨first, rest, hbefore⟩ := List.append_of_mem hc
        have hsplit' : edges = first ++ c :: (rest ++ e :: after) := by
          rw [hsplit, hbefore, List.append_assoc, List.cons_append]
        refine (ih first c _ hsplit' (by rw [hcm, ← hdm, hde])).imp_right fun hx => ?_
        rw [hbefore, List.map_append]
        exact List.mem_append_left _ hx

end Toso.SimCommon.Report
