/-
  Toso.Proposed.Bounds — where in a chain a bound goes.

  Below the cut to the best source a bound filters the sources before one is
  picked; above it, it judges the pick.  The two agree whenever the bound
  accepts the pick, and whenever it is downward closed along the fold: the least
  source is inside the bound as soon as any is.

  Main results:
    * `Leads.unique` — a (figure, id)-least source is the only one.
    * `best_eq`, `bounded_eq` — what the two links answer on a keyed selection.
    * `bounded_best_comm` — the two placements, compared.
-/
import Toso.Proposed.Selection
import Mathlib.Order.Monotone.Defs

namespace Toso.Proposed

open Lib

variable {ι δ ο ρ : Type*}

namespace Selection

/-! ## §1. The (figure, id)-least source. -/

section Least

variable [LinearOrder ι] [LinearOrder ο]

theorem Before.antisymm {x y : ο × ι} (hxy : Before x y) (hyx : Before y x) : x = y := by
  unfold Before at hxy hyx
  rcases hxy with hlt | ⟨heq, hle⟩
  · rcases hyx with hlt' | ⟨heq', _⟩
    · exact absurd hlt' (lt_asymm hlt)
    · exact absurd heq' hlt.ne'
  · rcases hyx with hlt' | ⟨_, hle'⟩
    · exact absurd heq hlt'.ne'
    · exact Prod.ext heq (le_antisymm hle hle')

/-- `source` leads `sources`: least by figure, the id breaking a tie. -/
def Leads (c : ι → ο) (sources : List ι) (source : ι) : Prop :=
  source ∈ sources ∧ ∀ x ∈ sources, Before (c source, source) (c x, x)

/-- **Nobody else leads.** -/
theorem Leads.unique {c : ι → ο} {sources : List ι} {a b : ι} (ha : Leads c sources a)
    (hb : Leads c sources b) : a = b :=
  congrArg Prod.snd (Before.antisymm (ha.2 b hb.1) (hb.2 a ha.1))

/-- A leader leads any part of the list it is in. -/
theorem Leads.mono {c : ι → ο} {sources kept : List ι} {a : ι} (h : Leads c sources a)
    (hsub : ∀ x ∈ kept, x ∈ sources) (ha : a ∈ kept) : Leads c kept a :=
  ⟨ha, fun x hx => h.2 x (hsub x hx)⟩

/-- Leading depends on the figures of the list alone. -/
theorem Leads.congr {c c' : ι → ο} {sources : List ι} {a : ι} (h : Leads c sources a)
    (hc : ∀ x ∈ sources, c' x = c x) : Leads c' sources a := by
  refine ⟨h.1, fun x hx => ?_⟩
  rw [hc a h.1, hc x hx]
  exact h.2 x hx

/-- A strictly increasing reading of the figure is led by the same source. -/
theorem leads_comp {ο' : Type*} [LinearOrder ο'] {g : ο → ο'} (hg : StrictMono g) {c : ι → ο}
    {sources : List ι} {a : ι} : Leads (fun x => g (c x)) sources a ↔ Leads c sources a := by
  unfold Leads Before
  simp only [hg.lt_iff_lt, hg.injective.eq_iff]

theorem least_spec : ∀ {l : List (ο × ι)}, l ≠ [] →
    ∃ m, least l = some m ∧ m ∈ l ∧ ∀ x ∈ l, Before m x
  | [], h => absurd rfl h
  | a :: rest, _ => by
      have hrefl : Before a a := .inr ⟨rfl, le_rfl⟩
      by_cases hrest : rest = []
      · subst hrest
        refine ⟨a, rfl, List.mem_singleton_self a, ?_⟩
        intro x hx
        rw [List.mem_singleton] at hx
        subst hx
        exact hrefl
      · obtain ⟨m, hm, hmem, hle⟩ := least_spec hrest
        by_cases hlt : Before a m
        · refine ⟨a, ?_, List.mem_cons_self, ?_⟩
          · simp only [least, hm, if_pos hlt]
          · intro x hx
            rcases List.mem_cons.mp hx with rfl | hx
            · exact hrefl
            · exact Trans.trans hlt (hle x hx)
        · refine ⟨m, ?_, List.mem_cons_of_mem _ hmem, ?_⟩
          · simp only [least, hm, if_neg hlt]
          · intro x hx
            rcases List.mem_cons.mp hx with rfl | hx
            · exact (Std.Total.total x m).resolve_left hlt
            · exact hle x hx

/-- Some source leads, and `min` finds it. -/
theorem exists_leads (c : ι → ο) (sources : List ι) (h : sources ≠ []) :
    ∃ b, Leads c sources b ∧
      least (sources.map fun source => (c source, source)) = some (c b, b) := by
  obtain ⟨m, hm, hmem, hle⟩ := least_spec (l := sources.map fun source => (c source, source))
    (by simpa using h)
  obtain ⟨b, hb, rfl⟩ := List.mem_map.mp hmem
  refine ⟨b, ⟨hb, ?_⟩, hm⟩
  intro x hx
  exact hle _ (List.mem_map.mpr ⟨x, hx, rfl⟩)

end Least

/-! ## §2. Reading a key. -/

theorem named_of_sources {s : Selection ι δ ο ρ} {sources : List ι}
    (h : s.sources = some sources) : s.named = sources := by
  unfold named
  rw [h]
  rfl

section Keys

variable [DecidableEq ι]

/-- A key built from what each source stands at, repeats or not. -/
theorem get?_foldl_map {β : Type*} (d : ι → β) (x : ι) : ∀ (sources : List ι) (D : Dict ι β),
    ((sources.map fun s => (s, d s)).foldl (fun D c => D.set c.1 c.2) D).get? x =
      if x ∈ sources then some (d x) else D.get? x
  | [], D => by simp
  | s :: rest, D => by
      rw [List.map_cons, List.foldl_cons, get?_foldl_map d x rest]
      by_cases hx : x ∈ rest
      · rw [if_pos hx, if_pos (List.mem_cons_of_mem _ hx)]
      · rw [if_neg hx, Dict.get?_set]
        by_cases hs : s = x
        · subst hs
          rw [if_pos rfl, if_pos List.mem_cons_self]
        · rw [if_neg hs, if_neg]
          intro hmem
          rcases List.mem_cons.mp hmem with heq | hmem
          · exact hs heq.symm
          · exact hx hmem

theorem get?_dictOf_map {β : Type*} (d : ι → β) (sources : List ι) (x : ι) :
    (dictOf (sources.map fun s => (s, d s))).get? x =
      if x ∈ sources then some (d x) else none :=
  get?_foldl_map d x sources Dict.empty

/-- `key` holds every source of the list, at `d`. -/
def Covers (key : Dict ι (List δ)) (d : ι → List δ) (sources : List ι) : Prop :=
  ∀ source ∈ sources, key.get? source = some (d source)

theorem keep_eq {key : Dict ι (List δ)} {d : ι → List δ} :
    ∀ {sources : List ι}, Covers key d sources →
      keep key sources = .ok (sources.map fun s => (s, d s))
  | [], _ => rfl
  | s :: rest, h => by
      have hrest : keep key rest = .ok (rest.map fun s => (s, d s)) :=
        keep_eq fun x hx => h x (List.mem_cons_of_mem _ hx)
      unfold keep
      rw [h s List.mem_cons_self, hrest]
      rfl

/-- A cut to sources the selection names and its key covers. -/
theorem only_eq {s : Selection ι δ ο ρ} {mine : List ι} {key : Dict ι (List δ)}
    {d : ι → List δ} (sources : List ι) (hs : s.sources = some mine) (hk : s.key = some key)
    (hsub : ∀ x ∈ sources, x ∈ mine) (hcov : Covers key d sources) :
    s.only sources = .ok ⟨some sources, some (dictOf (sources.map fun x => (x, d x))), s.ready,
      s.fold⟩ := by
  have hall : sources.all (fun x => decide (x ∈ mine)) = true := by
    simpa using hsub
  simp only [only, hs, hk, hall, if_true, keep_eq hcov]
  rfl

theorem inside_eq {key : Dict ι (List δ)} {d : ι → List δ}
    {bound : List δ → Except SelectionError Bool} {p : ι → Bool} :
    ∀ {sources : List ι}, Covers key d sources →
      (∀ x ∈ sources, bound (d x) = .ok (p x)) →
      inside key bound sources = .ok (sources.filter p)
  | [], _, _ => rfl
  | s :: rest, h, hb => by
      have hrest : inside key bound rest = .ok (rest.filter p) :=
        inside_eq (fun x hx => h x (List.mem_cons_of_mem _ hx))
          fun x hx => hb x (List.mem_cons_of_mem _ hx)
      unfold inside
      rw [h s List.mem_cons_self, hrest]
      show (bound (d s)).bind _ = _
      rw [hb s List.mem_cons_self, List.filter_cons]
      rfl

/-- A source without a key is an error, whatever the bound says of the others. -/
theorem inside_unkeyed {key : Dict ι (List δ)} (p : List δ → Bool) {x : ι}
    (hx : key.get? x = none) :
    ∀ {sources : List ι}, x ∈ sources →
      inside key (fun dims => .ok (p dims)) sources = .error .unkeyed
  | s :: rest, hmem => by
      unfold inside
      cases hs : key.get? s with
      | none => rfl
      | some dims =>
          have hne : x ≠ s := by
            intro heq
            subst heq
            rw [hx] at hs
            cases hs
          have hrest := inside_unkeyed p hx ((List.mem_cons.mp hmem).resolve_left hne)
          show Except.map _ (inside key _ rest) = _
          rw [hrest]
          rfl

end Keys

/-! ## §3. The two links. -/

section Links

variable [LinearOrder ι] [LinearOrder ο] {stand : List δ → Except SelectionError ο}
  {s : Selection ι δ ο ρ} {f : List δ → ο}

omit [LinearOrder ο] in
theorem measured_unkeyed {key : Dict ι (List δ)} (hf : s.fold.getD stand = fun dims => .ok (f dims))
    {x : ι} (hx : key.get? x = none) :
    ∀ {sources : List ι}, x ∈ sources → measured (s.folded stand key) sources = .error .unkeyed
  | a :: rest, hmem => by
      unfold measured
      cases ha : key.get? a with
      | none =>
          have herr : s.folded stand key a = .error .unkeyed := by simp only [folded, ha]
          rw [herr]
      | some dims =>
          have hok : s.folded stand key a = .ok (f dims) := by simp only [folded, ha, hf]
          have hne : x ≠ a := by
            intro heq
            subst heq
            rw [hx] at ha
            cases ha
          have hrest := measured_unkeyed hf hx ((List.mem_cons.mp hmem).resolve_left hne)
          rw [hok, hrest]
          rfl

/-- **The best source of a keyed selection** is the one that leads, with its key and
the gate. -/
theorem best_eq {sources : List ι} {key : Dict ι (List δ)} {d : ι → List δ} {c : ι → ο}
    (hs : s.sources = some sources) (hk : s.key = some key) (hcov : Covers key d sources)
    (hf : ∀ x ∈ sources, (s.fold.getD stand) (d x) = .ok (c x)) {b : ι}
    (hb : Leads c sources b) :
    s.best stand = .ok ⟨some [b], some (dictOf [(b, d b)]), s.ready, s.fold⟩ := by
  have hnamed := named_of_sources hs
  cases hsources : sources with
  | nil =>
      rw [hsources] at hb
      exact absurd hb.1 List.not_mem_nil
  | cons a rest =>
      have horder : ∀ x ∈ sources, s.folded stand key x = .ok (c x) := by
        intro x hx
        simp only [folded, hcov x hx, hf x hx]
      have hcomp : s.comparable stand = some (s.folded stand key) := by
        simp only [comparable, hs, hk, hsources]
      obtain ⟨m, hm, hleast⟩ := exists_leads c sources
        (by rw [hsources]; exact List.cons_ne_nil _ _)
      obtain rfl := hm.unique hb
      have hmeas : measured (s.folded stand key) s.named =
          .ok (sources.map fun x => (c x, x)) := by
        rw [hnamed]
        exact measured_eq c horder
      have honly := only_eq [m] hs hk
        (fun x hx => by rw [List.mem_singleton.mp hx]; exact hm.1)
        (fun x hx => by rw [List.mem_singleton.mp hx]; exact hcov m hm.1)
      unfold best
      rw [hnamed, hsources, hcomp]
      show Except.bind (measured _ (a :: rest)) _ = _
      rw [← hsources, ← hnamed, hmeas]
      show s.only ((least (sources.map _)).map Prod.snd).toList = _
      rw [hleast]
      exact honly

omit [LinearOrder ο] in
/-- **A keyed selection cut to a bound.** -/
theorem bounded_eq (sources : List ι) {key : Dict ι (List δ)} {d : ι → List δ} {p : ι → Bool}
    {bound : List δ → Except SelectionError Bool} (hs : s.sources = some sources)
    (hne : sources ≠ []) (hk : s.key = some key) (hcov : Covers key d sources)
    (hp : ∀ x ∈ sources, bound (d x) = .ok (p x)) :
    s.bounded bound = .ok ⟨some (sources.filter p),
      some (dictOf ((sources.filter p).map fun x => (x, d x))), s.ready, s.fold⟩ := by
  have hab : ¬ s.Abstains := by
    unfold Abstains
    rw [hs]
    simpa using hne
  have honly := only_eq (sources.filter p) hs hk
    (fun x hx => List.mem_of_mem_filter hx) (fun x hx => hcov x (List.mem_of_mem_filter hx))
  unfold bounded
  rw [if_neg hab, hk, named_of_sources hs, Option.getD_some, inside_eq hcov hp]
  exact honly

/-! ## §4. One link below the other. -/

/-- The bound below the cut: the winner is chosen among the sources inside it. -/
def boundedThenBest (stand : List δ → Except SelectionError ο)
    (bound : List δ → Except SelectionError Bool) (s : Selection ι δ ο ρ) :
    Except SelectionError (Selection ι δ ο ρ) :=
  (s.bounded bound).bind (best stand)

/-- The bound above the cut: the winner is judged once it is picked. -/
def bestThenBounded (stand : List δ → Except SelectionError ο)
    (bound : List δ → Except SelectionError Bool) (s : Selection ι δ ο ρ) :
    Except SelectionError (Selection ι δ ο ρ) :=
  (s.best stand).bind (bounded bound)

section Keyed

variable {sources : List ι} {key : Dict ι (List δ)} {d : ι → List δ} {c : ι → ο}
  {p : ι → Bool} {bound : List δ → Except SelectionError Bool}

omit [LinearOrder ο] in
/-- A covered key reads back the dimensions of its sources. -/
theorem dims_eq (hk : s.key = some key) (hcov : Covers key d sources) {x : ι}
    (hx : x ∈ sources) : s.dims x = d x := by
  unfold dims
  rw [hk, Option.bind_some, hcov x hx]
  rfl

/-- **The bound above the cut**, on a keyed selection: the leader, or nobody. -/
theorem bestThenBounded_eq (hs : s.sources = some sources) (hk : s.key = some key)
    (hcov : Covers key d sources) (hf : ∀ x ∈ sources, (s.fold.getD stand) (d x) = .ok (c x))
    (hp : ∀ x ∈ sources, bound (d x) = .ok (p x)) {b : ι} (hb : Leads c sources b) :
    bestThenBounded stand bound s = .ok (if p b = true
      then ⟨some [b], some (dictOf [(b, d b)]), s.ready, s.fold⟩
      else ⟨some [], some Dict.empty, s.ready, s.fold⟩) := by
  have hget : (dictOf [(b, d b)]).get? b = some (d b) := Dict.get?_set_self _ _ _
  have hcov' : Covers (dictOf [(b, d b)]) d [b] := by
    intro x hx
    rw [List.mem_singleton] at hx
    rw [hx]
    exact hget
  have hp' : ∀ x ∈ [b], bound (d x) = .ok (p x) := by
    intro x hx
    rw [List.mem_singleton] at hx
    rw [hx]
    exact hp b hb.1
  unfold bestThenBounded
  rw [best_eq hs hk hcov hf hb]
  show bounded _ _ = _
  rw [bounded_eq [b] rfl (List.cons_ne_nil _ _) rfl hcov' hp',
    List.filter_singleton]
  by_cases hin : p b = true
  · simp only [hin, if_true, cond_true]
    rfl
  · rw [Bool.not_eq_true] at hin
    simp only [hin, Bool.false_eq_true, if_false, cond_false]
    rfl

/-- **The bound below the cut**, on a keyed selection: the leader of the sources inside
it, or nobody. -/
theorem boundedThenBest_eq (hs : s.sources = some sources) (hk : s.key = some key)
    (hcov : Covers key d sources) (hf : ∀ x ∈ sources, (s.fold.getD stand) (d x) = .ok (c x))
    (hp : ∀ x ∈ sources, bound (d x) = .ok (p x)) (hne : sources ≠ []) :
    (sources.filter p = [] ∧
      boundedThenBest stand bound s = .ok ⟨some [], some Dict.empty, s.ready, s.fold⟩) ∨
    ∃ b, Leads c (sources.filter p) b ∧
      boundedThenBest stand bound s =
        .ok ⟨some [b], some (dictOf [(b, d b)]), s.ready, s.fold⟩ := by
  have hin := bounded_eq sources hs hne hk hcov hp
  unfold boundedThenBest
  rw [hin]
  cases hkept : sources.filter p with
  | nil => exact .inl ⟨rfl, rfl⟩
  | cons a rest =>
      obtain ⟨b, hb, _⟩ := exists_leads c (sources.filter p)
        (by rw [hkept]; exact List.cons_ne_nil _ _)
      rw [← hkept]
      refine .inr ⟨b, hb, ?_⟩
      refine best_eq (d := d) rfl rfl ?_ ?_ hb
      · intro x hx
        rw [get?_dictOf_map, if_pos hx]
      · intro x hx
        exact hf x (List.mem_of_mem_filter hx)

/-- The placements agree when the bound accepts the leader. -/
theorem agree_of_inside (hs : s.sources = some sources) (hk : s.key = some key)
    (hcov : Covers key d sources) (hf : ∀ x ∈ sources, (s.fold.getD stand) (d x) = .ok (c x))
    (hp : ∀ x ∈ sources, bound (d x) = .ok (p x)) {b : ι} (hb : Leads c sources b)
    (hin : p b = true) : boundedThenBest stand bound s = bestThenBounded stand bound s := by
  have hmem : b ∈ sources.filter p := List.mem_filter.mpr ⟨hb.1, hin⟩
  rw [bestThenBounded_eq hs hk hcov hf hp hb, if_pos hin]
  rcases boundedThenBest_eq hs hk hcov hf hp (List.ne_nil_of_mem hb.1) with
    ⟨hnone, _⟩ | ⟨b', hb', heq⟩
  · rw [hnone] at hmem
    exact absurd hmem List.not_mem_nil
  · -- the leader is still there, so it still leads
    obtain rfl := hb'.unique (hb.mono (fun x hx => List.mem_of_mem_filter hx) hmem)
    exact heq

/-- **The placements agree on a bound downward closed along the fold.** -/
theorem agree_of_downClosed (hs : s.sources = some sources) (hk : s.key = some key)
    (hcov : Covers key d sources) (hf : ∀ x ∈ sources, (s.fold.getD stand) (d x) = .ok (c x))
    (hp : ∀ x ∈ sources, bound (d x) = .ok (p x)) {b : ι} (hb : Leads c sources b)
    (hdown : ∀ x ∈ sources, ∀ y ∈ sources, p x = true → c y ≤ c x → p y = true) :
    boundedThenBest stand bound s = bestThenBounded stand bound s := by
  by_cases hin : p b = true
  · exact agree_of_inside hs hk hcov hf hp hb hin
  rw [bestThenBounded_eq hs hk hcov hf hp hb, if_neg hin]
  rcases boundedThenBest_eq hs hk hcov hf hp (List.ne_nil_of_mem hb.1) with
    ⟨_, heq⟩ | ⟨b', hb', _⟩
  · exact heq
  · -- a source inside the bound has a figure no smaller than the leader's
    obtain ⟨hb', hin'⟩ := List.mem_filter.mp hb'.1
    have hle : c b ≤ c b' := by
      rcases hb.2 b' hb' with hlt | ⟨heq, _⟩
      · exact le_of_lt hlt
      · exact le_of_eq heq
    exact absurd (hdown b' hb' b hb.1 hin' hle) hin

end Keyed

/-! ## §5. Below the cut or above it. -/

/-- `p` is downward closed along `f` over the sources of a selection. -/
def DownClosed (s : Selection ι δ ο ρ) (f : List δ → ο) (p : List δ → Bool) : Prop :=
  ∀ a ∈ s.named, ∀ b ∈ s.named, p (s.dims a) = true → f (s.dims b) ≤ f (s.dims a) →
    p (s.dims b) = true

/-- A bound that always answers. -/
def always (p : List δ → Bool) : List δ → Except SelectionError Bool := fun dims => .ok (p dims)

/-- Every holder in directory order is refused by either. -/
theorem agree_universe (hs : s.sources = none)
    (bound : List δ → Except SelectionError Bool) :
    boundedThenBest stand bound s = bestThenBounded stand bound s := by
  have hnamed : s.named = [] := by
    unfold named
    rw [hs]
    rfl
  have hab : ¬ s.Abstains := by
    unfold Abstains
    rw [hs]
    exact nofun
  have hin : s.bounded bound = .error .universeCut := by
    unfold bounded
    rw [if_neg hab, hnamed]
    show s.only [] = _
    simp only [only, hs]
  have hbest : s.best stand = .ok s := by
    unfold best
    rw [hnamed]
  unfold boundedThenBest bestThenBounded
  rw [hbest, hin]
  exact hin.symm

/-- Nobody is left to either. -/
theorem agree_abstains (hs : s.sources = some [])
    (bound : List δ → Except SelectionError Bool) :
    boundedThenBest stand bound s = bestThenBounded stand bound s := by
  have hab : s.Abstains := hs
  have hin : s.bounded bound = .ok s := by
    unfold bounded
    rw [if_pos hab]
  have hbest : s.best stand = .ok s := by
    unfold best
    rw [named_of_sources hs]
  unfold boundedThenBest bestThenBounded
  rw [hbest, hin]
  show s.best stand = s.bounded bound
  rw [hbest, hin]

/-- Neither bounds sources that nothing keyed. -/
theorem agree_unkeyed {a : ι} {rest : List ι} (hs : s.sources = some (a :: rest))
    (hk : s.key = none) (bound : List δ → Except SelectionError Bool) :
    boundedThenBest stand bound s = bestThenBounded stand bound s := by
  have hab : ¬ s.Abstains := by
    unfold Abstains
    rw [hs]
    simp
  have hin : s.bounded bound = .error .unkeyed := by
    unfold bounded
    rw [if_neg hab, hk, named_of_sources hs]
    rfl
  have hbest : s.best stand = .ok ⟨some [a], none, s.ready, s.fold⟩ := by
    have hcomp : s.comparable stand = none := by simp only [comparable, hs, hk]
    simp only [best, named_of_sources hs, hcomp]
    simp [only, hs, hk]
  unfold boundedThenBest bestThenBounded
  rw [hbest, hin]
  rfl

/-- Neither gets past a source without a key. -/
theorem agree_missing {key : Dict ι (List δ)} {a : ι} {rest : List ι}
    (hs : s.sources = some (a :: rest)) (hk : s.key = some key)
    (hfold : s.fold.getD stand = fun dims => .ok (f dims)) {x : ι} (hx : x ∈ a :: rest)
    (hnone : key.get? x = none) (p : List δ → Bool) :
    boundedThenBest stand (always p) s = bestThenBounded stand (always p) s := by
  have hab : ¬ s.Abstains := by
    unfold Abstains
    rw [hs]
    simp
  have hin : s.bounded (always p) = .error .unkeyed := by
    unfold bounded always
    rw [if_neg hab, hk, named_of_sources hs, Option.getD_some, inside_unkeyed p hnone hx]
    rfl
  have hbest : s.best stand = .error .unkeyed := by
    have hcomp : s.comparable stand = some (s.folded stand key) := by
      simp only [comparable, hs, hk]
    unfold best
    rw [named_of_sources hs, hcomp]
    show Except.bind (measured _ (a :: rest)) _ = _
    rw [measured_unkeyed hfold hnone hx]
    rfl
  unfold boundedThenBest bestThenBounded
  rw [hbest, hin]
  rfl

/-- **Agreement, one way or another**: the placements agree on every selection unless it
is keyed throughout and its leader lies outside the bound. -/
theorem agree_or_outside (hfold : s.fold.getD stand = fun dims => .ok (f dims))
    (p : List δ → Bool) :
    boundedThenBest stand (always p) s = bestThenBounded stand (always p) s ∨
    ∃ (sources : List ι) (key : Dict ι (List δ)) (d : ι → List δ) (b : ι),
      s.sources = some sources ∧ s.key = some key ∧ Covers key d sources ∧
      Leads (fun x => f (d x)) sources b ∧ p (d b) = false := by
  cases hs : s.sources with
  | none => exact .inl (agree_universe hs _)
  | some sources =>
      cases sources with
      | nil => exact .inl (agree_abstains hs _)
      | cons a rest =>
          cases hk : s.key with
          | none => exact .inl (agree_unkeyed hs hk _)
          | some key =>
              by_cases hmiss : ∃ x ∈ a :: rest, key.get? x = none
              · obtain ⟨x, hx, hnone⟩ := hmiss
                exact .inl (agree_missing hs hk hfold hx hnone p)
              · have hcov : Covers key (fun x => (key.get? x).getD []) (a :: rest) := by
                  intro x hx
                  cases hget : key.get? x with
                  | none => exact absurd ⟨x, hx, hget⟩ hmiss
                  | some dims => simp only [hget, Option.getD_some]
                obtain ⟨b, hb, _⟩ := exists_leads (fun x => f ((key.get? x).getD []))
                  (a :: rest) (List.cons_ne_nil _ _)
                by_cases hp : p ((key.get? b).getD []) = true
                · exact .inl (agree_of_inside hs hk hcov (fun x _ => by rw [hfold])
                    (fun x _ => rfl) hb hp)
                · exact .inr ⟨_, key, _, b, rfl, rfl, hcov, hb, by simpa using hp⟩

/-- A bound at most a limit on something monotone in the figure is downward closed. -/
theorem downClosed_atMost {τ : Type*} [LinearOrder τ] {g : ο → τ} (hg : Monotone g) (limit : τ) :
    s.DownClosed f fun dims => decide (g (f dims) ≤ limit) := by
  intro a _ b _ ha hle
  rw [decide_eq_true_eq] at ha ⊢
  exact (hg hle).trans ha

/-- **Below the cut or above it.**  Under any fold, a bound downward closed along it
(an at-most on anything monotone in the figure, say) answers the same in both places,
gate, key and abstention together; and any bound that tells them apart leaves the
unbounded best source outside. -/
theorem bounded_best_comm {τ : Type*} [LinearOrder τ]
    (hfold : s.fold.getD stand = fun dims => .ok (f dims)) :
    (∀ p, s.DownClosed f p →
      boundedThenBest stand (always p) s = bestThenBounded stand (always p) s) ∧
    (∀ (g : ο → τ) (limit : τ), Monotone g →
      boundedThenBest stand (always fun dims => decide (g (f dims) ≤ limit)) s =
        bestThenBounded stand (always fun dims => decide (g (f dims) ≤ limit)) s) ∧
    ∀ p, boundedThenBest stand (always p) s ≠ bestThenBounded stand (always p) s →
      ∃ best b, s.best stand = .ok best ∧ best.head = some b ∧ p (s.dims b) = false := by
  have hclosed : ∀ p, s.DownClosed f p →
      boundedThenBest stand (always p) s = bestThenBounded stand (always p) s := by
    intro p hdown
    rcases agree_or_outside hfold p with hagree | ⟨sources, key, d, b, hs, hk, hcov, hb, _⟩
    · exact hagree
    · refine agree_of_downClosed hs hk hcov (fun x _ => by rw [hfold]) (fun x _ => rfl) hb ?_
      intro x hx y hy hin hle
      have hdown' := hdown x (by rw [named_of_sources hs]; exact hx) y
        (by rw [named_of_sources hs]; exact hy)
      rw [dims_eq hk hcov hx, dims_eq hk hcov hy] at hdown'
      exact hdown' hin hle
  refine ⟨hclosed, ?_, ?_⟩
  · intro g limit hg
    exact hclosed _ (downClosed_atMost hg limit)
  · intro p hne
    rcases agree_or_outside hfold p with hagree | ⟨sources, key, d, b, hs, hk, hcov, hb, hp⟩
    · exact absurd hagree hne
    · refine ⟨_, b, best_eq hs hk hcov (fun x _ => by rw [hfold]) hb, rfl, ?_⟩
      rw [dims_eq hk hcov hb.1]
      exact hp

end Links

/-- Two sources, the second the better, and a bound that accepts the first alone. -/
theorem bounded_best_apart :
    let s : Selection ℕ ℕ ℕ Empty := ⟨some [1, 2], some (dictOf [(1, [5]), (2, [3])]), none,
      some fun dims => .ok (dims.headD 0)⟩
    let stand : List ℕ → Except SelectionError ℕ := fun dims => .ok dims.length
    (boundedThenBest stand (always fun dims => 4 ≤ dims.headD 0) s).map sources = .ok (some [1]) ∧
    (bestThenBounded stand (always fun dims => 4 ≤ dims.headD 0) s).map sources = .ok (some []) ∧
    (∀ p, s.DownClosed (fun dims => dims.headD 0) p →
      boundedThenBest stand (always p) s = bestThenBounded stand (always p) s) ∧
    (∀ (g : ℕ → ℕ) (limit : ℕ), Monotone g →
      boundedThenBest stand (always fun dims => decide (g (dims.headD 0) ≤ limit)) s =
        bestThenBounded stand (always fun dims => decide (g (dims.headD 0) ≤ limit)) s) ∧
    ∀ p, boundedThenBest stand (always p) s ≠ bestThenBounded stand (always p) s →
      ∃ best b, s.best stand = .ok best ∧ best.head = some b ∧ p (s.dims b) = false :=
  ⟨rfl, rfl, bounded_best_comm rfl⟩

end Selection

end Toso.Proposed
