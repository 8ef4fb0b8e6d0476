/-
  Toso.Proposed.Selection — what a ranking answers with, and its links.

  A `Selection` names sources, keys each at the dimensions that order it, and
  may carry a gate and the fold that reads its key.  Its operations raise, so
  they answer in `Except`; a selector is a function from a subject and a
  requester to such an answer, and a chain is a composition of links.

  The element types are parameters: `ι` for source ids, `δ` for one dimension,
  `ο` for what a fold orders by, `ρ` for gates.

  Main results:
    * `get?_dictOf` — what a key built from distinct pairs answers.
    * `ordered_eq` — an ordered ranking is the sort of its sources by folded
      key, the id last.
    * `rank_perm`, `rank_sorted` — the ranking is a sorted permutation.
-/
import Toso.Lib.Dict
import Mathlib.Data.List.Sort
import Mathlib.Order.Lattice

namespace Toso.Proposed

open Lib

/-! ## §1. Selections. -/

/-- What an operation on a selection can raise. -/
inductive SelectionError
  /-- A source is named twice. -/
  | repeated
  /-- Every holder in directory order cannot be cut. -/
  | universeCut
  /-- A cut keeps a source the selection did not name. -/
  | stray
  /-- Every holder in directory order has no head to require anything of. -/
  | noHead
  /-- A source without a key is to be ordered or bounded. -/
  | unkeyed
  /-- A fold or a bound reads a dimension that is not there. -/
  | dimension
  deriving DecidableEq

/-- `Selection`.  `sources = none` is every holder in directory order, `[]` is
nobody. -/
structure Selection (ι δ ο ρ : Type*) where
  sources : Option (List ι)
  key : Option (Dict ι (List δ))
  ready : Option ρ
  fold : Option (List δ → Except SelectionError ο)

variable {ι δ ο ρ σ ν : Type*}

namespace Selection

section Build

variable [DecidableEq ι]

/-- `_named_once`. -/
def namedOnce (sources : List ι) : Except SelectionError (List ι) :=
  if sources.Nodup then .ok sources else .error .repeated

/-- `Selection.of`: the sources as they are given, keyed by nothing. -/
def of (sources : List ι) (ready : Option ρ) : Except SelectionError (Selection ι δ ο ρ) :=
  (namedOnce sources).map fun sources => ⟨some sources, none, ready, none⟩

/-- `dict(candidates)`. -/
def dictOf {β : Type*} (candidates : List (ι × β)) : Dict ι β :=
  candidates.foldl (fun d c => d.set c.1 c.2) Dict.empty

/-- What a dictionary of distinct pairs answers. -/
theorem get?_dictOf {β : Type*} {candidates : List (ι × β)}
    (h : (candidates.map Prod.fst).Nodup) (k : ι) (v : β) :
    (dictOf candidates).get? k = some v ↔ (k, v) ∈ candidates := by
  have hfind := Dict.get?_foldl_set candidates h Dict.empty k
  rw [Dict.get?_empty, Option.or_none] at hfind
  unfold dictOf
  rw [hfind]
  exact ⟨Assoc.mem_of_find k v candidates, Assoc.find_of_mem k v candidates h⟩

/-- `Selection.keyed`: what orders each source, from one sequence. -/
def keyed (candidates : List (ι × List δ)) (ready : Option ρ) :
    Except SelectionError (Selection ι δ ο ρ) :=
  (namedOnce (candidates.map Prod.fst)).map fun sources =>
    ⟨some sources, some (dictOf candidates), ready, none⟩

/-- Keying distinct candidates names them in order. -/
theorem keyed_eq (candidates : List (ι × List δ)) (ready : Option ρ)
    (h : (candidates.map Prod.fst).Nodup) :
    (keyed candidates ready : Except SelectionError (Selection ι δ ο ρ)) =
      .ok ⟨some (candidates.map Prod.fst), some (dictOf candidates), ready, none⟩ := by
  unfold keyed namedOnce
  rw [if_pos h]
  rfl

/-- `Selection.priced`: the price standing as the one dimension. -/
def priced (candidates : List (ι × δ)) (ready : Option ρ) :
    Except SelectionError (Selection ι δ ο ρ) :=
  keyed (candidates.map fun c => (c.1, [c.2])) ready

end Build

/-- `Selection.universe`: the store's own answer. -/
def wholeUniverse : Selection ι δ ο ρ := ⟨none, none, none, none⟩

/-- `Selection.abstain`: nobody, deciding nothing. -/
def abstain : Selection ι δ ο ρ := ⟨some [], none, none, none⟩

/-- `abstains`. -/
def Abstains (s : Selection ι δ ο ρ) : Prop := s.sources = some []

instance (s : Selection ι δ ο ρ) : Decidable s.Abstains :=
  match h : s.sources with
  | some [] => .isTrue h
  | some (_ :: _) => .isFalse fun ha => by simp [Abstains, h] at ha
  | none => .isFalse fun ha => by simp [Abstains, h] at ha

/-- `sources or ()`. -/
def named (s : Selection ι δ ο ρ) : List ι := s.sources.getD []

/-- `head`: the leading source, if it names one. -/
def head (s : Selection ι δ ο ρ) : Option ι := s.named.head?

/-- `otherwise`: this answer if it decided anything, else the other. -/
def otherwise (s other : Selection ι δ ο ρ) : Selection ι δ ο ρ :=
  if s.Abstains then other else s

/-- The answer with its gate spent: what `settled` returns after awaiting it. -/
def settled (s : Selection ι δ ο ρ) : Selection ι δ ο ρ :=
  { s with ready := none, fold := none }

section Cut

variable [DecidableEq ι]

/-- The dimensions of a source, or `()`. -/
def dims (s : Selection ι δ ο ρ) (source : ι) : List δ :=
  (s.key.bind fun key => key.get? source).getD []

/-- `annotated`: one reading per source, appended as a further dimension. -/
def annotated (readings : ι → δ) (s : Selection ι δ ο ρ) : Selection ι δ ο ρ :=
  { s with key := some (dictOf (s.named.map fun source =>
      (source, s.dims source ++ [readings source]))) }

/-- The keys of the sources kept, each of which must have one. -/
def keep (key : Dict ι (List δ)) : List ι → Except SelectionError (List (ι × List δ))
  | [] => .ok []
  | source :: rest =>
      match key.get? source with
      | none => .error .unkeyed
      | some dims => (keep key rest).map fun kept => (source, dims) :: kept

/-- `only`: cut down to `sources`, in the order given. -/
def only (sources : List ι) (s : Selection ι δ ο ρ) :
    Except SelectionError (Selection ι δ ο ρ) :=
  match s.sources with
  | none => .error .universeCut
  | some mine =>
      if sources.all (· ∈ mine) then
        match s.key with
        | none => .ok ⟨some sources, none, s.ready, s.fold⟩
        | some key => (keep key sources).map fun kept =>
            ⟨some sources, some (dictOf kept), s.ready, s.fold⟩
      else .error .stray

/-- `sources[:n]`: a negative count drops that many from the end. -/
def leading (n : ℤ) (sources : List ι) : List ι :=
  if 0 ≤ n then sources.take n.toNat else sources.take (sources.length - (-n).toNat)

/-- `take`: the leading `n` sources. -/
def take (n : ℤ) (s : Selection ι δ ο ρ) : Except SelectionError (Selection ι δ ο ρ) :=
  s.only (leading n s.named)

/-- What an annotated selection keys each of its sources at. -/
theorem annotated_key (readings : ι → δ) {s : Selection ι δ ο ρ} (h : s.named.Nodup)
    {source : ι} (hs : source ∈ s.named) :
    ∃ key, (s.annotated readings).key = some key ∧
      key.get? source = some (s.dims source ++ [readings source]) := by
  refine ⟨_, rfl, ?_⟩
  apply (get?_dictOf (by simpa [Function.comp_def] using h) _ _).mpr
  exact List.mem_map.mpr ⟨source, hs, rfl⟩

/-- Pricing distinct candidates names them in order, each at its price. -/
theorem priced_eq (candidates : List (ι × δ)) (ready : Option ρ)
    (h : (candidates.map Prod.fst).Nodup) :
    ∃ s : Selection ι δ ο ρ, priced candidates ready = .ok s ∧
      s.sources = some (candidates.map Prod.fst) ∧ s.fold = none ∧ s.ready = ready ∧
      ∀ c ∈ candidates, s.dims c.1 = [c.2] := by
  have hfst : (candidates.map fun c => (c.1, [c.2])).map Prod.fst = candidates.map Prod.fst := by
    rw [List.map_map]
    rfl
  refine ⟨_, keyed_eq _ ready (by rw [hfst]; exact h), ?_, rfl, rfl, ?_⟩
  · show some _ = _
    rw [hfst]
  intro c hc
  have hget := (get?_dictOf (by rw [hfst]; exact h) c.1 [c.2]).mpr
    (List.mem_map.mpr ⟨c, hc, rfl⟩)
  show ((dictOf _).get? c.1).getD [] = _
  rw [hget]
  rfl

end Cut

/-- `require`: this selection if its head satisfies `ok`, else the abstention. -/
def require (ok : ι → Bool) (s : Selection ι δ ο ρ) :
    Except SelectionError (Selection ι δ ο ρ) :=
  match s.sources with
  | none => .error .noHead
  | some [] => .ok s
  | some (source :: _) => .ok (if ok source then s else abstain)

/-! ## §2. Ordering. -/

section Order

variable [LinearOrder ι] [LinearOrder ο]

/-- The figure of one keyed source: its dimensions folded, or compared as they
`stand` when the answer carries no fold. -/
def folded (stand : List δ → Except SelectionError ο) (s : Selection ι δ ο ρ)
    (key : Dict ι (List δ)) (source : ι) : Except SelectionError ο :=
  match key.get? source with
  | none => .error .unkeyed
  | some dims => (s.fold.getD stand) dims

/-- `_comparable`: what orders one source, or `none` if nothing says what best
is. -/
def comparable (stand : List δ → Except SelectionError ο) (s : Selection ι δ ο ρ) :
    Option (ι → Except SelectionError ο) :=
  match s.sources, s.key with
  | some (_ :: _), some key => some (s.folded stand key)
  | _, _ => none

/-- The order of a ranking: the folded key, then the id. -/
def Before (x y : ο × ι) : Prop := x.1 < y.1 ∨ x.1 = y.1 ∧ x.2 ≤ y.2

instance : DecidableRel (Before : ο × ι → ο × ι → Prop) := fun x y =>
  inferInstanceAs (Decidable (x.1 < y.1 ∨ x.1 = y.1 ∧ x.2 ≤ y.2))

/-- Each source with what orders it. -/
def measured (order : ι → Except SelectionError ο) :
    List ι → Except SelectionError (List (ο × ι))
  | [] => .ok []
  | source :: rest =>
      match order source with
      | .error e => .error e
      | .ok c => (measured order rest).map fun ms => (c, source) :: ms

/-- A list of sources, best first by `c` and the id. -/
def rank (c : ι → ο) (sources : List ι) : List ι :=
  ((sources.map fun source => (c source, source)).insertionSort Before).map Prod.snd

/-- `_ordered`: best first, or untouched if nothing says what best is. -/
def ordered (stand : List δ → Except SelectionError ο) (s : Selection ι δ ο ρ) :
    Except SelectionError (Selection ι δ ο ρ) :=
  match s.comparable stand with
  | none => .ok s
  | some order => (measured order s.named).map fun ms =>
      { s with sources := some ((ms.insertionSort Before).map Prod.snd) }

/-- `min(sources, key=order)`: the first least one. -/
def least : List (ο × ι) → Option (ο × ι)
  | [] => none
  | x :: rest =>
      match least rest with
      | none => some x
      | some y => if Before x y then some x else some y

omit [LinearOrder ι] [LinearOrder ο] in
theorem measured_eq {order : ι → Except SelectionError ο} (c : ι → ο) :
    ∀ {sources : List ι}, (∀ source ∈ sources, order source = .ok (c source)) →
      measured order sources = .ok (sources.map fun source => (c source, source))
  | [], _ => rfl
  | source :: rest, h => by
      have hrest := measured_eq c fun x hx => h x (List.mem_cons_of_mem _ hx)
      unfold measured
      rw [h source List.mem_cons_self, hrest]
      rfl

instance : Std.Total (Before : ο × ι → ο × ι → Prop) where
  total x y := by
    unfold Before
    rcases lt_trichotomy x.1 y.1 with h | h | h
    · exact .inl (.inl h)
    · exact (le_total x.2 y.2).imp (fun hle => .inr ⟨h, hle⟩) fun hle => .inr ⟨h.symm, hle⟩
    · exact .inr (.inl h)

instance : IsTrans (ο × ι) Before where
  trans x y z := by
    unfold Before
    rintro (hxy | ⟨hxy, hle⟩) (hyz | ⟨hyz, hle'⟩)
    · exact .inl (hxy.trans hyz)
    · exact .inl (hyz ▸ hxy)
    · exact .inl (hxy ▸ hyz)
    · exact .inr ⟨hxy.trans hyz, hle.trans hle'⟩

theorem rank_perm (c : ι → ο) (sources : List ι) : (rank c sources).Perm sources := by
  unfold rank
  refine ((List.perm_insertionSort Before _).map Prod.snd).trans ?_
  simp [Function.comp_def]

/-- The ranking is sorted by folded key, the id last. -/
theorem rank_sorted (c : ι → ο) (sources : List ι) :
    (rank c sources).Pairwise fun a b => c a < c b ∨ c a = c b ∧ a ≤ b := by
  unfold rank
  rw [List.pairwise_map]
  have hsorted := List.pairwise_insertionSort Before
    (sources.map fun source => (c source, source))
  have hfst : ∀ x ∈ (sources.map fun source => (c source, source)).insertionSort Before,
      x.1 = c x.2 := by
    intro x hx
    have hmem := (List.perm_insertionSort Before _).mem_iff.mp hx
    obtain ⟨source, _, rfl⟩ := List.mem_map.mp hmem
    rfl
  refine (hsorted.imp_of_mem ?_)
  intro a b ha hb hab
  rw [← hfst a ha, ← hfst b hb]
  exact hab

/-- The leader of a ranking has the least figure. -/
theorem rank_head_le {c : ι → ο} {sources : List ι} {leader : ι} {rest : List ι}
    (h : rank c sources = leader :: rest) {source : ι} (hs : source ∈ sources) :
    c leader ≤ c source := by
  have hmem := (rank_perm c sources).mem_iff.mpr hs
  have hsorted := rank_sorted c sources
  rw [h] at hmem hsorted
  rcases List.mem_cons.mp hmem with rfl | hmem
  · exact le_refl _
  · rcases (List.pairwise_cons.mp hsorted).1 source hmem with hlt | ⟨heq, _⟩
    · exact le_of_lt hlt
    · exact le_of_eq heq

/-- **An ordered ranking** is the sort of its sources by folded key. -/
theorem ordered_eq {stand : List δ → Except SelectionError ο} {s : Selection ι δ ο ρ}
    (c : ι → ο)
    (h : ∀ source ∈ s.named, ∃ key dims, s.key = some key ∧ key.get? source = some dims ∧
      (s.fold.getD stand) dims = .ok (c source)) :
    (s.ordered stand).map sources = .ok (s.sources.map (rank c)) := by
  unfold ordered comparable
  cases hsrc : s.sources with
  | none => simp [Except.map, hsrc]
  | some sources =>
      cases sources with
      | nil => simp [Except.map, hsrc, rank]
      | cons a rest =>
          have hnamed : s.named = a :: rest := by
            rw [named, hsrc]
            rfl
          -- the first source shows the key, which is then the key of all
          obtain ⟨key, _, hkey, _⟩ := h a (by rw [hnamed]; exact List.mem_cons_self)
          have horder : ∀ source ∈ s.named, s.folded stand key source = .ok (c source) := by
            intro source hs
            obtain ⟨key', dims, hkey', hd, hc⟩ := h source hs
            rw [hkey, Option.some.injEq] at hkey'
            subst hkey'
            unfold folded
            rw [hd]
            exact hc
          rw [hkey]
          show Except.map Selection.sources
            (Except.map _ (measured (s.folded stand key) s.named)) = _
          rw [measured_eq c horder, hnamed]
          rfl

/-- `_best`: cut to the single best source; keyed by nothing, the leader. -/
def best (stand : List δ → Except SelectionError ο) (s : Selection ι δ ο ρ) :
    Except SelectionError (Selection ι δ ο ρ) :=
  match s.named with
  | [] => .ok s
  | leader :: _ =>
      match s.comparable stand with
      | none => s.only [leader]
      | some order => (measured order s.named).bind fun ms =>
          s.only ((least ms).map Prod.snd).toList

end Order

/-- The sources inside a bound, which reads each one's key. -/
def inside [DecidableEq ι] (key : Dict ι (List δ))
    (bound : List δ → Except SelectionError Bool) :
    List ι → Except SelectionError (List ι)
  | [] => .ok []
  | source :: rest =>
      match key.get? source with
      | none => .error .unkeyed
      | some dims => (bound dims).bind fun ok =>
          (inside key bound rest).map fun kept => if ok then source :: kept else kept

/-- `Bounded`: cut to the sources inside the bound. -/
def bounded [DecidableEq ι] (bound : List δ → Except SelectionError Bool)
    (s : Selection ι δ ο ρ) : Except SelectionError (Selection ι δ ο ρ) :=
  if s.Abstains then .ok s
  else (inside (s.key.getD Dict.empty) bound s.named).bind fun kept => s.only kept

end Selection

/-! ## §3. Selectors and their chains. -/

/-- `Selector.select`: rank the sources for a subject and a requester. -/
abbrev Selector (σ ν ι δ ο ρ : Type*) := σ → ν → Except SelectionError (Selection ι δ ο ρ)

/-- One operation on a ranking that interprets what is already measured. -/
abbrev Stage (ι δ ο ρ : Type*) :=
  Selection ι δ ο ρ → Except SelectionError (Selection ι δ ο ρ)

namespace Selector

/-- `WithFold`: the fold stamped on an answer. -/
def withFold (fold : Option (List δ → Except SelectionError ο)) : Stage ι δ ο ρ :=
  fun s => .ok { s with fold := fold }

/-- `Annotate`: one reading per source appended, unless it names none. -/
def annotate [DecidableEq ι] (readings : σ → ι → δ) (ranking : Selector σ ν ι δ ο ρ) :
    Selector σ ν ι δ ο ρ :=
  fun subject requester => (ranking subject requester).map fun ranked =>
    if ranked.named = [] then ranked else ranked.annotated (readings subject)

/-- `pipe`: the base with each stage applied in turn. -/
def pipe (base : Selector σ ν ι δ ο ρ) (stages : List (Stage ι δ ο ρ)) :
    Selector σ ν ι δ ο ρ :=
  fun subject requester => stages.foldl (fun answer stage => answer.bind stage)
    (base subject requester)

/-- The loop of `FirstMatch.select`: a link is asked only once every link before
it has abstained. -/
def firstMatchFrom (subject : σ) (requester : ν) :
    List (Selector σ ν ι δ ο ρ) → Selection ι δ ο ρ →
      Except SelectionError (Selection ι δ ο ρ)
  | [], answer => .ok answer
  | selector :: rest, answer =>
      (selector subject requester).bind fun mine =>
        let answer := mine.otherwise answer
        if answer.Abstains then firstMatchFrom subject requester rest answer else .ok answer

/-- `FirstMatch`. -/
def firstMatch (selectors : List (Selector σ ν ι δ ο ρ)) : Selector σ ν ι δ ο ρ :=
  fun subject requester => firstMatchFrom subject requester selectors .abstain

end Selector

end Toso.Proposed
