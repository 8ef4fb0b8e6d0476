/-
  Toso.Proposed.Ordering — the best source is the front of the ranking.

  `Best` takes the minimum of the sources in one pass, `Ordered` sorts them.  The
  id is the last thing compared, so no two sources are equal and the two agree on
  every tie.  An answer that no stage keyed says nothing about the order: `Ordered`
  leaves its sources as they were listed, and `Best` takes the first of them.

  Main results:
    * `leads_of_rank` — the front of the ranking is the minimum.
    * `rank_congr` — a ranking does not depend on the order of the sources.
    * `best_first` — `Best` is one taken from `Ordered`, and what `Ordered` is.
-/
import Toso.Proposed.Coverage

namespace Toso.Proposed

open Lib

variable {ι δ ο ρ : Type*}

namespace Selection

/-! ## §1. The minimum and the ranking. -/

section Rank

variable [LinearOrder ι] [LinearOrder ο]

theorem Before.refl (x : ο × ι) : Before x x := .inr ⟨rfl, le_rfl⟩

/-- Whoever leads the ranking leads the sources. -/
theorem leads_of_rank {c : ι → ο} {sources : List ι} {first : ι} {rest : List ι}
    (h : rank c sources = first :: rest) : Leads c sources first := by
  have hperm := rank_perm c sources
  have hsorted := rank_sorted c sources
  rw [h] at hperm hsorted
  refine ⟨hperm.mem_iff.mp List.mem_cons_self, fun x hx => ?_⟩
  rcases List.mem_cons.mp (hperm.mem_iff.mpr hx) with rfl | hrest
  · exact Before.refl _
  · exact (List.pairwise_cons.mp hsorted).1 x hrest

/-- **A ranking does not depend on the order the sources are listed in**, nor on
figures of others. -/
theorem rank_congr {c c' : ι → ο} {l l' : List ι} (h : l'.Perm l) (hc : ∀ x ∈ l, c' x = c x) :
    rank c' l' = rank c l := by
  have hperm : (rank c' l').Perm (rank c l) :=
    (rank_perm c' l').trans (h.trans (rank_perm c l).symm)
  have hsorted : (rank c' l').Pairwise fun a b => Before (c a, a) (c b, b) := by
    refine (rank_sorted c' l').imp_of_mem fun {a b} ha hb hab => ?_
    have hmem : ∀ x ∈ rank c' l', x ∈ l := fun x hx =>
      h.mem_iff.mp ((rank_perm c' l').mem_iff.mp hx)
    rw [hc a (hmem a ha), hc b (hmem b hb)] at hab
    exact hab
  refine hperm.eq_of_pairwise (fun a b _ _ hab hba => ?_) hsorted (rank_sorted c l)
  exact congrArg Prod.snd (Before.antisymm hab hba)

end Rank

/-! ## §2. What each link answers. -/

section Links

variable [LinearOrder ι] [LinearOrder ο] {stand : List δ → Except SelectionError ο}
  {s : Selection ι δ ο ρ} {f : List δ → ο}

/-- The figure a source is ordered by. -/
def figureOf (f : List δ → ο) (s : Selection ι δ ο ρ) (source : ι) : ο := f (s.dims source)

omit [LinearOrder ο] in
/-- Where there is nobody to order, or nothing to order by, the answer stands. -/
theorem comparable_none (h : s.named = [] ∨ s.key = none) : s.comparable stand = none := by
  unfold comparable
  rcases h with hnamed | hkey
  · cases hs : s.sources with
    | none => rfl
    | some sources =>
        cases sources with
        | nil => rfl
        | cons a rest =>
            rw [named, hs] at hnamed
            cases hnamed
  · rw [hkey]
    cases s.sources with
    | none => rfl
    | some sources => cases sources <;> rfl

theorem ordered_stands (h : s.named = [] ∨ s.key = none) : s.ordered stand = .ok s := by
  unfold ordered
  rw [comparable_none h]

theorem best_stands (h : s.named = []) : s.best stand = .ok s := by
  unfold best
  rw [h]

/-- **A keyed answer, ordered**: the ranking of its sources, all else as it was. -/
theorem ordered_keyed {n : ℕ} (h : s.Arity n)
    (hfold : s.fold.getD stand = fun dims => .ok (f dims)) {sources : List ι}
    (hs : s.sources = some sources) {key : Dict ι (List δ)} (hk : s.key = some key) :
    s.ordered stand = .ok { s with sources := some (rank (s.figureOf f) sources) } := by
  have hnamed := named_of_sources hs
  cases hsources : sources with
  | nil =>
      rw [hsources] at hs hnamed
      rw [ordered_stands (.inl hnamed), show rank (s.figureOf f) [] = [] from rfl, ← hs]
  | cons a rest =>
      rw [hsources] at hs hnamed
      have hcov := h.covers hk
      have horder : ∀ x ∈ s.named, s.folded stand key x = .ok (s.figureOf f x) := by
        intro x hx
        unfold folded
        rw [hcov x hx, hfold]
        rfl
      have hcomp : s.comparable stand = some (s.folded stand key) := by
        simp only [comparable, hs, hk]
      unfold ordered
      rw [hcomp]
      show Except.map _ (measured (s.folded stand key) s.named) = _
      rw [measured_eq _ horder, hnamed]
      rfl

omit [LinearOrder ο] in
/-- **One taken**: the first source, with its key, the gate and the fold. -/
theorem take_one {n : ℕ} (h : s.Arity n) {first : ι} {rest : List ι}
    (hs : s.sources = some (first :: rest)) :
    s.take 1 = .ok ⟨some [first], s.key.map fun _ => dictOf [(first, s.dims first)], s.ready,
      s.fold⟩ := by
  have hnamed := named_of_sources hs
  unfold take
  rw [hnamed, show leading 1 (first :: rest) = [first] from rfl]
  cases hk : s.key with
  | none => simp [only, hs, hk]
  | some key =>
      have hcov := h.covers hk
      rw [hnamed] at hcov
      have hfirst : ∀ x ∈ [first], x ∈ first :: rest := by
        intro x hx
        rw [List.mem_singleton.mp hx]
        exact List.mem_cons_self
      rw [only_eq [first] hs hk hfirst fun x hx => hcov x (hfirst x hx)]
      rfl

omit [LinearOrder ο] in
/-- Nobody, taken from nobody. -/
theorem take_nobody {n : ℕ} (h : s.Arity n) (hs : s.sources = some []) : s.take 1 = .ok s := by
  have hnamed := named_of_sources hs
  unfold take
  rw [hnamed, show leading 1 ([] : List ι) = [] from rfl]
  cases hk : s.key with
  | none =>
      obtain ⟨sources, key, ready, fold⟩ := s
      cases hs
      cases hk
      rfl
  | some key =>
      -- a key has its sources for its domain, so this one is empty
      have hempty : key = Dict.empty := by
        refine Dict.eq_empty fun x => (Dict.get?_eq_none_iff key x).mpr fun hx => ?_
        have hmem := ((h key hk).1 x).mp hx
        rw [hnamed] at hmem
        exact absurd hmem List.not_mem_nil
      obtain ⟨sources, key', ready, fold⟩ := s
      cases hs
      cases hk
      rw [hempty]
      rfl

/-- The order of the sources is the sources' own affair: ordered, they are keyed alike. -/
theorem Arity.ranked {n : ℕ} (h : s.Arity n) {c : ι → ο} {sources : List ι}
    (hs : s.sources = some sources) :
    ({ s with sources := some (rank c sources) } : Selection ι δ ο ρ).Arity n := by
  intro key hk
  obtain ⟨hdom, hlen⟩ := h key hk
  refine ⟨fun x => ?_, hlen⟩
  rw [hdom x, named_of_sources hs]
  exact (rank_perm c sources).mem_iff.symm

/-! ## §3. `Best` and `Ordered`. -/

/-- The same answer, its sources listed otherwise. -/
structure Relisted (s s' : Selection ι δ ο ρ) : Prop where
  named : s'.named.Perm s.named
  listed : s'.sources.isSome = s.sources.isSome
  keyed : s'.key.isSome = s.key.isSome
  dims : ∀ x, s'.dims x = s.dims x
  ready : s'.ready = s.ready
  fold : s'.fold = s.fold

/-- Two answers that read alike: a key is the figures it gives, however it is stored. -/
structure Alike (s s' : Selection ι δ ο ρ) : Prop where
  sources : s'.sources = s.sources
  keyed : s'.key.isSome = s.key.isSome
  dims : ∀ x, s'.dims x = s.dims x
  ready : s'.ready = s.ready
  fold : s'.fold = s.fold

/-- **What `Best` and `Ordered` make of an answer** whose dimensions order by `f`. -/
structure BestFirst (stand : List δ → Except SelectionError ο) (f : List δ → ο)
    (s : Selection ι δ ο ρ) : Prop where
  /-- Where nobody in particular is named, both leave the answer as it is. -/
  untouched : s.sources = none ∨ s.sources = some [] →
    s.ordered stand = .ok s ∧ s.best stand = .ok s
  /-- An unkeyed answer stands in its producer's order. -/
  unkeyed : s.key = none → s.ordered stand = .ok s
  /-- A keyed answer is permuted, best first and the id last. -/
  sorted : ∀ sources key, s.sources = some sources → s.key = some key → ∃ ranked,
    s.ordered stand = .ok { s with sources := some ranked } ∧ ranked.Perm sources ∧
      ranked.Pairwise fun a b => f (s.dims a) < f (s.dims b) ∨
        f (s.dims a) = f (s.dims b) ∧ a ≤ b
  /-- A keyed answer is ordered the same however its producer listed it. -/
  relisted : ∀ s' n, s.key.isSome → s'.Arity n → Relisted s s' → ∃ t t',
    s.ordered stand = .ok t ∧ s'.ordered stand = .ok t' ∧ Alike t t'
  /-- Ordering what is ordered changes nothing. -/
  again : ∀ t, s.ordered stand = .ok t → t.ordered stand = .ok t
  /-- `Best` is one taken from `Ordered`. -/
  taken : ∀ sources t, s.sources = some sources → s.ordered stand = .ok t →
    s.best stand = t.take 1
  /-- `Best` is the first source of `Ordered`, with its key, the gate and the fold. -/
  first : ∀ t first rest, s.ordered stand = .ok t → t.sources = some (first :: rest) →
    s.best stand = .ok ⟨some [first], s.key.map fun _ => dictOf [(first, s.dims first)],
      s.ready, s.fold⟩

/-- Whatever there is to order, ordering answers. -/
theorem ordered_answers {n : ℕ} (h : s.Arity n)
    (hfold : s.fold.getD stand = fun dims => .ok (f dims)) :
    s.ordered stand = .ok s ∧ (s.sources = none ∨ s.key = none) ∨
      ∃ sources key, s.sources = some sources ∧ s.key = some key ∧
        s.ordered stand = .ok { s with sources := some (rank (s.figureOf f) sources) } := by
  cases hs : s.sources with
  | none =>
      have hnamed : s.named = [] := by
        rw [named, hs]
        rfl
      exact .inl ⟨ordered_stands (.inl hnamed), .inl rfl⟩
  | some sources =>
      cases hk : s.key with
      | none => exact .inl ⟨ordered_stands (.inr hk), .inr rfl⟩
      | some key =>
          refine .inr ⟨sources, key, rfl, rfl, ?_⟩
          rw [← hk]
          exact ordered_keyed h hfold hs hk

/-- The best of an ordered answer is its first source. -/
theorem best_of_ordered {n : ℕ} (h : s.Arity n)
    (hfold : s.fold.getD stand = fun dims => .ok (f dims)) {t : Selection ι δ ο ρ} {first : ι}
    {rest : List ι} (ho : s.ordered stand = .ok t) (ht : t.sources = some (first :: rest)) :
    s.best stand = .ok ⟨some [first], s.key.map fun _ => dictOf [(first, s.dims first)],
      s.ready, s.fold⟩ := by
  rcases ordered_answers h hfold with ⟨hstands, hnone⟩ | ⟨sources, key, hs, hk, hranked⟩
  · -- the answer stands as it is, so it names sources and is keyed by nothing
    rw [hstands, Except.ok.injEq] at ho
    subst ho
    have hk : s.key = none := hnone.resolve_left (by rw [ht]; exact Option.some_ne_none _)
    have hnamed := named_of_sources ht
    have hbest : s.best stand = s.only [first] := by
      unfold best
      rw [hnamed, comparable_none (.inr hk)]
    rw [hbest, ← take_one h ht]
    unfold take
    rw [hnamed]
    rfl
  · rw [hranked, Except.ok.injEq] at ho
    subst ho
    have hlead := leads_of_rank (Option.some.inj ht)
    have hcov := h.covers hk
    rw [named_of_sources hs] at hcov
    rw [best_eq hs hk hcov (fun x _ => by rw [hfold]; rfl) hlead, hk]
    rfl

/-- **Best first.**  Whatever the arity of its key and the fold it orders by, a keyed
answer ordered is its sources sorted by folded key and then id, however they were listed,
and `Best` is one taken from it; an answer that no stage keyed keeps its producer's
order, and `Best` takes the first; both leave the universe and the abstention. -/
theorem best_first {stand : List δ → Except SelectionError ο} {f : List δ → ο}
    {s : Selection ι δ ο ρ} {n : ℕ} (h : s.Arity n)
    (hfold : s.fold.getD stand = fun dims => .ok (f dims)) : BestFirst stand f s where
  untouched hs := by
    have hnamed : s.named = [] := by
      rcases hs with hs | hs
      · rw [named, hs]
        rfl
      · exact named_of_sources hs
    exact ⟨ordered_stands (.inl hnamed), best_stands hnamed⟩
  unkeyed hk := ordered_stands (.inr hk)
  sorted sources key hs hk :=
    ⟨_, ordered_keyed h hfold hs hk, rank_perm _ sources, rank_sorted _ sources⟩
  relisted s' n' hkeyed h' hre := by
    obtain ⟨key, hk⟩ := Option.isSome_iff_exists.mp hkeyed
    obtain ⟨key', hk'⟩ := Option.isSome_iff_exists.mp (hre.keyed.trans hkeyed)
    -- an answer that names nobody is named by neither listing
    cases hs : s.sources with
    | none =>
        have hs' : s'.sources = none := by
          have hnone := hre.listed
          rw [hs] at hnone
          exact Option.isSome_eq_false_iff.mp hnone |> Option.isNone_iff_eq_none.mp
        have hstand : s.ordered stand = .ok s := ordered_stands (.inl (by rw [named, hs]; rfl))
        have hstand' : s'.ordered stand = .ok s' :=
          ordered_stands (.inl (by rw [named, hs']; rfl))
        exact ⟨s, s', hstand, hstand', ⟨by rw [hs, hs'], hre.keyed, hre.dims, hre.ready,
          hre.fold⟩⟩
    | some sources =>
        have hsome := hre.listed
        rw [hs] at hsome
        obtain ⟨sources', hs'⟩ := Option.isSome_iff_exists.mp hsome
        have hperm := hre.named
        rw [named_of_sources hs, named_of_sources hs'] at hperm
        have hfold' : s'.fold.getD stand = fun dims => .ok (f dims) := by rw [hre.fold, hfold]
        refine ⟨_, _, ordered_keyed h hfold hs hk, ordered_keyed h' hfold' hs' hk',
          ⟨?_, hre.keyed, hre.dims, hre.ready, hre.fold⟩⟩
        -- the same ids with the same dimensions: the ranks agree
        have hfig : ∀ x ∈ sources, s'.figureOf f x = s.figureOf f x := fun x _ =>
          congrArg f (hre.dims x)
        exact congrArg some (rank_congr hperm hfig)
  again t ho := by
    rcases ordered_answers h hfold with ⟨hstands, _⟩ | ⟨sources, key, hs, hk, hranked⟩
    · rw [hstands, Except.ok.injEq] at ho
      subst ho
      exact hstands
    · rw [hranked, Except.ok.injEq] at ho
      subst ho
      have hranked' := ordered_keyed (h.ranked (c := s.figureOf f) hs) hfold rfl hk
      -- ranking what is ranked moves nothing
      have hrank := rank_congr (c := s.figureOf f) (rank_perm (s.figureOf f) sources)
        fun x _ => rfl
      rw [hranked']
      exact congrArg (fun l => Except.ok { s with sources := some l }) hrank
  taken sources t hs ho := by
    rcases ordered_answers h hfold with ⟨hstands, _⟩ | ⟨sources', key, hs', hk, hranked⟩
    · rw [hstands, Except.ok.injEq] at ho
      subst ho
      cases hsources : sources with
      | nil =>
          rw [hsources] at hs
          rw [best_stands (named_of_sources hs), take_nobody h hs]
      | cons first rest =>
          rw [hsources] at hs
          rw [best_of_ordered h hfold hstands hs, take_one h hs]
    · have hranked' := hranked
      rw [hranked, Except.ok.injEq] at ho
      subst ho
      cases hrank : rank (s.figureOf f) sources' with
      | nil =>
          -- a ranking is a permutation, so nobody was ranked
          have hnil : sources' = [] := by
            have hperm := rank_perm (s.figureOf f) sources'
            rw [hrank] at hperm
            exact hperm.nil_eq.symm
          rw [hnil] at hs'
          rw [best_stands (named_of_sources hs')]
          have hself : ({ s with sources := some [] } : Selection ι δ ο ρ) = s := by
            rw [← hs']
          rw [hself, take_nobody h hs']
      | cons first rest =>
          rw [hrank] at hranked'
          have hone := take_one (h.ranked (c := s.figureOf f) hs') (congrArg some hrank)
          rw [hrank] at hone
          rw [best_of_ordered h hfold hranked' rfl, hone]
          rfl
  first t first rest ho ht := best_of_ordered h hfold ho ht

/-- Three hosts keyed at two dimensions, compared as they stand: two are tied, and the
lower id leads. -/
theorem best_first_three :
    BestFirst (ρ := Unit) .ok id
      ⟨some [4, 2, 7], some (dictOf [(4, [1, 5]), (2, [1, 5]), (7, [1, 3])]), none, none⟩ :=
  best_first (n := 2) (by
    intro key hk
    cases hk
    constructor
    · intro x
      rw [Dict.mem_def, show (dictOf _).keys = [4, 2, 7] from rfl]
      rfl
    · intro x dims hd
      rw [get?_dictOf (by decide)] at hd
      simp only [List.mem_cons, Prod.mk.injEq, List.not_mem_nil, or_false] at hd
      rcases hd with ⟨_, rfl⟩ | ⟨_, rfl⟩ | ⟨_, rfl⟩ <;> rfl) rfl

end Links

/-- **An answer no stage keyed is not sorted**: two hosts listed either way are left as
listed, so `Ordered` answers by what the producer said, and not by id. -/
theorem unkeyed_as_listed : ∃ s s' t t' : Selection ℕ ℕ ℕ Unit,
    of [1, 2] none = .ok s ∧ of [2, 1] none = .ok s' ∧ Relisted s s' ∧
      s.ordered (fun dims => .ok dims.sum) = .ok t ∧
      s'.ordered (fun dims => .ok dims.sum) = .ok t' ∧
      t.sources = some [1, 2] ∧ t'.sources = some [2, 1] :=
  ⟨⟨some [1, 2], none, none, none⟩, ⟨some [2, 1], none, none, none⟩, _, _, rfl, rfl,
    ⟨List.Perm.swap 1 2 [], rfl, rfl, fun _ => rfl, rfl, rfl⟩, rfl, rfl, rfl, rfl⟩

end Selection

end Toso.Proposed
