/-
  Toso.Proposed.Coverage — what every selection keeps of its sources and its key.

  Nothing checks a selection as it is cut: that each source is named once, and
  that a key covers exactly the sources it would order, is meant to follow from
  how selections are built.  The builders refuse a repeat, and every operation
  but one permutes or cuts what it was handed; `only` takes a sequence from
  outside and checks it for strays, not for repeats.

  Main results:
    * `Covered.only_iff` — a cut keeps coverage exactly when it names no source
      twice.
    * `built_covered` — every selection built with such cuts is covered, and
      nothing is missing when it is ordered or bounded.
    * `repeated_cut` — a selection that names a source twice.
-/
import Toso.Proposed.Bounds

namespace Toso.Proposed

open Lib

variable {ι δ ο ρ : Type*}

namespace Selection

/-! ## §1. Coverage. -/

section Covered

variable [DecidableEq ι]

/-- A key, if there is one, has exactly the sources for its domain and `n` dimensions
throughout. -/
def Arity (s : Selection ι δ ο ρ) (n : ℕ) : Prop :=
  ∀ key, s.key = some key → (∀ x, x ∈ key ↔ x ∈ s.named) ∧
    ∀ x dims, key.get? x = some dims → dims.length = n

/-- Each source named once, and keyed throughout at one arity if at all. -/
structure Covered (s : Selection ι δ ο ρ) : Prop where
  once : s.named.Nodup
  arity : ∃ n, s.Arity n

/-- A selection without a key has any arity. -/
theorem Arity.unkeyed {s : Selection ι δ ο ρ} (h : s.key = none) (n : ℕ) : s.Arity n := by
  intro key hk
  rw [h] at hk
  cases hk

/-- The dimensions of a source, where there is a key. -/
theorem Arity.covers {s : Selection ι δ ο ρ} {n : ℕ} (h : s.Arity n) {key : Dict ι (List δ)}
    (hk : s.key = some key) : Covers key s.dims s.named := by
  intro x hx
  obtain ⟨found, hd⟩ := (Dict.mem_iff key x).mp (((h key hk).1 x).mpr hx)
  unfold Selection.dims
  rw [hk, Option.bind_some, hd]
  rfl

theorem Arity.length {s : Selection ι δ ο ρ} {n : ℕ} (h : s.Arity n) {key : Dict ι (List δ)}
    (hk : s.key = some key) {x : ι} (hx : x ∈ s.named) : (s.dims x).length = n :=
  (h key hk).2 x _ (h.covers hk x hx)

/-- A key built over a list of sources covers exactly that list. -/
theorem arity_of_map {s : Selection ι δ ο ρ} {d : ι → List δ} {n : ℕ}
    (hk : s.key = some (dictOf (s.named.map fun x => (x, d x))))
    (hlen : ∀ x ∈ s.named, (d x).length = n) : s.Arity n := by
  intro key hkey
  rw [hk, Option.some.injEq] at hkey
  subst hkey
  constructor
  · intro x
    rw [Dict.mem_iff]
    constructor
    · intro hmem
      obtain ⟨dims, hd⟩ := hmem
      rw [get?_dictOf_map] at hd
      by_contra hx
      rw [if_neg hx] at hd
      cases hd
    · intro hx
      exact ⟨d x, by rw [get?_dictOf_map, if_pos hx]⟩
  · intro x dims hd
    rw [get?_dictOf_map] at hd
    by_cases hx : x ∈ s.named
    · rw [if_pos hx, Option.some.injEq] at hd
      rw [← hd]
      exact hlen x hx
    · rw [if_neg hx] at hd
      cases hd

/-! ## §2. Cuts. -/

/-- **A cut**: it names what it was given, keyed as before. -/
theorem Covered.only_arity {s t : Selection ι δ ο ρ} {sources : List ι} (h : s.Covered)
    (ho : s.only sources = .ok t) : t.named = sources ∧ ∃ n, t.Arity n := by
  unfold only at ho
  cases hs : s.sources with
  | none =>
      rw [hs] at ho
      cases ho
  | some mine =>
      simp only [hs] at ho
      by_cases hall : sources.all (fun x => decide (x ∈ mine)) = true
      · rw [if_pos hall] at ho
        have hsub : ∀ x ∈ sources, x ∈ s.named := by
          intro x hx
          rw [named_of_sources hs]
          simpa using List.all_eq_true.mp hall x hx
        cases hk : s.key with
        | none =>
            rw [hk] at ho
            cases ho
            exact ⟨rfl, 0, Arity.unkeyed rfl 0⟩
        | some key =>
            obtain ⟨n, hn⟩ := h.arity
            have hcov : Covers key s.dims sources := fun x hx => hn.covers hk x (hsub x hx)
            simp only [hk, keep_eq hcov, Except.map, Except.ok.injEq] at ho
            subst ho
            exact ⟨rfl, n, arity_of_map rfl fun x hx => hn.length hk (hsub x hx)⟩
      · rw [if_neg hall] at ho
        cases ho

/-- **A cut keeps coverage exactly when it names no source twice.** -/
theorem Covered.only_iff {s t : Selection ι δ ο ρ} {sources : List ι} (h : s.Covered)
    (ho : s.only sources = .ok t) : t.Covered ↔ sources.Nodup := by
  obtain ⟨hnamed, harity⟩ := h.only_arity ho
  constructor
  · intro ht
    rw [← hnamed]
    exact ht.once
  · intro hn
    exact ⟨by rw [hnamed]; exact hn, harity⟩

omit [DecidableEq ι] in
theorem leading_sublist (n : ℤ) (sources : List ι) : (leading n sources).Sublist sources := by
  unfold leading
  by_cases hn : 0 ≤ n
  · rw [if_pos hn]
    exact List.take_sublist _ _
  · rw [if_neg hn]
    exact List.take_sublist _ _

theorem inside_sublist {key : Dict ι (List δ)} {bound : List δ → Except SelectionError Bool} :
    ∀ {sources kept : List ι}, inside key bound sources = .ok kept → kept.Sublist sources
  | [], kept, h => by
      cases h
      exact List.Sublist.refl _
  | x :: rest, kept, h => by
      unfold inside at h
      cases hx : key.get? x with
      | none =>
          rw [hx] at h
          cases h
      | some dims =>
          simp only [hx] at h
          cases hb : bound dims with
          | error e =>
              rw [hb] at h
              cases h
          | ok ok =>
              cases hrest : inside key bound rest with
              | error e =>
                  rw [hb, hrest] at h
                  cases h
              | ok kept' =>
                  have hsub := inside_sublist hrest
                  rw [hb, hrest] at h
                  cases ok with
                  | true =>
                      cases h
                      exact hsub.cons_cons x
                  | false =>
                      cases h
                      exact hsub.cons x

end Covered

/-! ## §3. However a selection was built. -/

section Built

variable [LinearOrder ι] [LinearOrder ο]

/-- A selection built by the producers and the operations, each cut by `only` meeting
`ok`.  The dimensions `keyed` is given have one arity, as its type says. -/
inductive Built (ok : List ι → Prop) : Selection ι δ ο ρ → Prop
  | of {sources ready s} : Selection.of sources ready = .ok s → Built ok s
  | keyed {candidates ready s n} : (∀ c ∈ candidates, c.2.length = n) →
      keyed candidates ready = .ok s → Built ok s
  | priced {candidates ready s} : Selection.priced candidates ready = .ok s → Built ok s
  | wholeUniverse : Built ok wholeUniverse
  | abstain : Built ok abstain
  | annotated {s} (readings : ι → δ) : Built ok s → Built ok (s.annotated readings)
  | only {s t sources} : Built ok s → ok sources → s.only sources = .ok t → Built ok t
  | take {s t} (n : ℤ) : Built ok s → s.take n = .ok t → Built ok t
  | require {s t} (head : ι → Bool) : Built ok s → s.require head = .ok t → Built ok t
  | otherwise {s t} : Built ok s → Built ok t → Built ok (s.otherwise t)
  | settled {s} : Built ok s → Built ok s.settled
  | withFold {s t fold} : Built ok s → Selector.withFold fold s = .ok t → Built ok t
  | ordered {s t stand} : Built ok s → s.ordered stand = .ok t → Built ok t
  | best {s t stand} : Built ok s → s.best stand = .ok t → Built ok t
  | bounded {s t bound} : Built ok s → s.bounded bound = .ok t → Built ok t

omit [LinearOrder ι] [LinearOrder ο] in
theorem measured_snd {order : ι → Except SelectionError ο} :
    ∀ {sources : List ι} {ms : List (ο × ι)}, measured order sources = .ok ms →
      ms.map Prod.snd = sources
  | [], ms, h => by
      cases h
      rfl
  | x :: rest, ms, h => by
      unfold measured at h
      cases hx : order x with
      | error e =>
          rw [hx] at h
          cases h
      | ok c =>
          cases hrest : measured order rest with
          | error e =>
              rw [hx, hrest] at h
              cases h
          | ok ms' =>
              have ih := measured_snd hrest
              rw [hx, hrest] at h
              cases h
              rw [List.map_cons, ih]

/-- Ordering permutes. -/
theorem Covered.ordered {stand : List δ → Except SelectionError ο} {s t : Selection ι δ ο ρ}
    (h : s.Covered) (ho : s.ordered stand = .ok t) : t.Covered := by
  unfold Selection.ordered at ho
  cases hc : s.comparable stand with
  | none =>
      rw [hc] at ho
      cases ho
      exact h
  | some order =>
      cases hm : measured order s.named with
      | error e =>
          simp only [hc, hm] at ho
          cases ho
      | ok ms =>
          simp only [hc, hm, Except.map, Except.ok.injEq] at ho
          subst ho
          have hperm : ((ms.insertionSort Before).map Prod.snd).Perm s.named := by
            rw [← measured_snd hm]
            exact (List.perm_insertionSort Before ms).map Prod.snd
          constructor
          · show ((ms.insertionSort Before).map Prod.snd).Nodup
            exact hperm.nodup_iff.mpr h.once
          · obtain ⟨n, hn⟩ := h.arity
            refine ⟨n, fun key hk => ⟨fun x => ?_, (hn key hk).2⟩⟩
            rw [(hn key hk).1 x]
            exact hperm.mem_iff.symm

/-- A cut to at most one source. -/
theorem Covered.best {stand : List δ → Except SelectionError ο} {s t : Selection ι δ ο ρ}
    (h : s.Covered) (hb : s.best stand = .ok t) : t.Covered := by
  unfold Selection.best at hb
  cases hs : s.named with
  | nil =>
      rw [hs] at hb
      cases hb
      exact h
  | cons leader rest =>
      simp only [hs] at hb
      cases hc : s.comparable stand with
      | none =>
          rw [hc] at hb
          exact (h.only_iff hb).mpr (List.nodup_singleton leader)
      | some order =>
          cases hm : measured order (leader :: rest) with
          | error e =>
              simp only [hc, hm] at hb
              cases hb
          | ok ms =>
              simp only [hc, hm] at hb
              refine (h.only_iff hb).mpr ?_
              cases (least ms).map Prod.snd with
              | none => exact List.nodup_nil
              | some x => exact List.nodup_singleton x

omit [LinearOrder ο] in
theorem Covered.bounded {bound : List δ → Except SelectionError Bool} {s t : Selection ι δ ο ρ}
    (h : s.Covered) (hb : s.bounded bound = .ok t) : t.Covered := by
  unfold Selection.bounded at hb
  by_cases ha : s.Abstains
  · rw [if_pos ha] at hb
    cases hb
    exact h
  · rw [if_neg ha] at hb
    cases hin : inside (s.key.getD Dict.empty) bound s.named with
    | error e =>
        rw [hin] at hb
        cases hb
    | ok kept =>
        rw [hin] at hb
        exact (h.only_iff hb).mpr (h.once.sublist (inside_sublist hin))

omit [LinearOrder ο] in
/-- One more dimension for every source. -/
theorem Covered.annotated {s : Selection ι δ ο ρ} (h : s.Covered) (readings : ι → δ) :
    (s.annotated readings).Covered := by
  refine ⟨h.once, ?_⟩
  cases hk : s.key with
  | none =>
      refine ⟨1, arity_of_map (d := fun x => s.dims x ++ [readings x]) rfl ?_⟩
      intro x _
      simp [dims, hk]
  | some key =>
      obtain ⟨n, hn⟩ := h.arity
      refine ⟨n + 1, arity_of_map (d := fun x => s.dims x ++ [readings x]) rfl ?_⟩
      intro x hx
      have hlen := hn.length hk hx
      simp [hlen]

omit [LinearOrder ο] in
theorem covered_keyed {candidates : List (ι × List δ)} {ready : Option ρ} {n : ℕ}
    {s : Selection ι δ ο ρ} (hlen : ∀ c ∈ candidates, c.2.length = n)
    (h : keyed candidates ready = .ok s) : s.Covered := by
  by_cases hn : (candidates.map Prod.fst).Nodup
  · rw [keyed_eq candidates ready hn, Except.ok.injEq] at h
    subst h
    refine ⟨hn, n, fun key hk => ?_⟩
    cases hk
    constructor
    · intro x
      rw [Dict.mem_iff]
      constructor
      · intro hmem
        obtain ⟨dims, hd⟩ := hmem
        exact List.mem_map.mpr ⟨_, (get?_dictOf hn x dims).mp hd, rfl⟩
      · intro hx
        obtain ⟨c, hc, rfl⟩ := List.mem_map.mp hx
        exact ⟨c.2, (get?_dictOf hn c.1 c.2).mpr hc⟩
    · intro x dims hd
      exact hlen _ ((get?_dictOf hn x dims).mp hd)
  · unfold keyed namedOnce at h
    rw [if_neg hn] at h
    cases h

omit [LinearOrder ι] [LinearOrder ο] in
/-- What a head is asked for keeps the selection, or abstains. -/
theorem require_cases {s t : Selection ι δ ο ρ} {head : ι → Bool} (h : s.require head = .ok t) :
    t = s ∨ t = Selection.abstain := by
  unfold Selection.require at h
  cases hs : s.sources with
  | none =>
      rw [hs] at h
      cases h
  | some sources =>
      cases sources with
      | nil =>
          simp only [hs] at h
          cases h
          exact .inl rfl
      | cons x rest =>
          simp only [hs] at h
          cases h
          by_cases hx : head x = true
          · exact .inl (if_pos hx)
          · exact .inr (if_neg hx)

/-- **Coverage, however a selection was built** with cuts that repeat nobody. -/
theorem Built.covered {s : Selection ι δ ο ρ} (h : Built List.Nodup s) : s.Covered := by
  induction h with
  | @of sources ready s hs =>
      by_cases hn : sources.Nodup
      · unfold Selection.of namedOnce at hs
        rw [if_pos hn] at hs
        cases hs
        exact ⟨hn, 0, Arity.unkeyed rfl 0⟩
      · unfold Selection.of namedOnce at hs
        rw [if_neg hn] at hs
        cases hs
  | keyed hlen hs => exact covered_keyed hlen hs
  | priced hs =>
      refine covered_keyed (n := 1) ?_ hs
      intro c hc
      obtain ⟨c', _, rfl⟩ := List.mem_map.mp hc
      rfl
  | wholeUniverse => exact ⟨List.nodup_nil, 0, Arity.unkeyed rfl 0⟩
  | abstain => exact ⟨List.nodup_nil, 0, Arity.unkeyed rfl 0⟩
  | annotated readings _ ih => exact ih.annotated readings
  | only _ hn ho ih => exact (ih.only_iff ho).mpr hn
  | take n _ ho ih => exact (ih.only_iff ho).mpr (ih.once.sublist (leading_sublist n _))
  | @require s t head _ hr ih =>
      rcases require_cases hr with rfl | rfl
      · exact ih
      · exact ⟨List.nodup_nil, 0, Arity.unkeyed rfl 0⟩
  | @otherwise s t _ _ ih ih' =>
      unfold Selection.otherwise
      by_cases ha : s.Abstains
      · rw [if_pos ha]
        exact ih'
      · rw [if_neg ha]
        exact ih
  | settled _ ih => exact ⟨ih.once, ih.arity⟩
  | withFold _ hf ih =>
      cases hf
      exact ⟨ih.once, ih.arity⟩
  | ordered _ ho ih => exact ih.ordered ho
  | best _ hb ih => exact ih.best hb
  | bounded _ hb ih => exact ih.bounded hb

/-! ## §4. Nothing is missing. -/

/-- `g` answers on every key of `n` dimensions. -/
def Reads {β : Type*} (n : ℕ) (g : List δ → Except SelectionError β) : Prop :=
  ∀ dims, dims.length = n → ∃ v, g dims = .ok v

/-- Ordering a keyed selection and cutting it to its best never raise where the fold
reads its arity, nor does bounding it, but for the refusal to cut every holder in
directory order. -/
structure NothingMissing (s : Selection ι δ ο ρ) : Prop where
  ordered : ∀ n key stand, s.key = some key → s.Arity n → Reads n (s.fold.getD stand) →
    ∃ t, s.ordered stand = .ok t
  best : ∀ n key stand, s.key = some key → s.Arity n → Reads n (s.fold.getD stand) →
    ∃ t, s.best stand = .ok t
  bounded : ∀ n key bound, s.key = some key → s.Arity n → Reads n bound →
    ∀ e, s.bounded bound = .error e → s.sources = none ∧ e = .universeCut

omit [LinearOrder ι] [LinearOrder ο] in
theorem measured_total {order : ι → Except SelectionError ο} :
    ∀ {sources : List ι}, (∀ x ∈ sources, ∃ v, order x = .ok v) →
      ∃ ms, measured order sources = .ok ms
  | [], _ => ⟨[], rfl⟩
  | x :: rest, h => by
      obtain ⟨v, hv⟩ := h x List.mem_cons_self
      obtain ⟨ms, hms⟩ := measured_total fun y hy => h y (List.mem_cons_of_mem _ hy)
      refine ⟨(v, x) :: ms, ?_⟩
      unfold measured
      rw [hv, hms]
      rfl

omit [LinearOrder ο] in
theorem inside_total {key : Dict ι (List δ)} {d : ι → List δ} {n : ℕ}
    {bound : List δ → Except SelectionError Bool} (hb : Reads n bound) :
    ∀ {sources : List ι}, Covers key d sources → (∀ x ∈ sources, (d x).length = n) →
      ∃ kept, inside key bound sources = .ok kept
  | [], _, _ => ⟨[], rfl⟩
  | x :: rest, hcov, hlen => by
      obtain ⟨v, hv⟩ := hb (d x) (hlen x List.mem_cons_self)
      have hrest : ∃ kept, inside key bound rest = .ok kept :=
        inside_total hb (fun y hy => hcov y (List.mem_cons_of_mem _ hy))
          fun y hy => hlen y (List.mem_cons_of_mem _ hy)
      obtain ⟨kept, hkept⟩ := hrest
      refine ⟨if v then x :: kept else kept, ?_⟩
      unfold inside
      rw [hcov x List.mem_cons_self]
      show (bound (d x)).bind _ = _
      rw [hv, hkept]
      rfl

omit [LinearOrder ι] [LinearOrder ο] in
theorem sources_of_mem {s : Selection ι δ ο ρ} {x : ι} (hx : x ∈ s.named) :
    s.sources = some s.named := by
  unfold named at hx ⊢
  cases hs : s.sources with
  | none =>
      rw [hs] at hx
      cases hx
  | some sources => rfl

omit [LinearOrder ο] in
/-- Every source of a keyed selection has a figure. -/
theorem Arity.folded {s : Selection ι δ ο ρ} {n : ℕ} (h : s.Arity n) {key : Dict ι (List δ)}
    (hk : s.key = some key) {stand : List δ → Except SelectionError ο}
    (hf : Reads n (s.fold.getD stand)) : ∀ x ∈ s.named, ∃ v, s.folded stand key x = .ok v := by
  intro x hx
  obtain ⟨v, hv⟩ := hf _ (h.length hk hx)
  refine ⟨v, ?_⟩
  simp only [Selection.folded, h.covers hk x hx, hv]

/-- Ordering answers: every source is measured. -/
theorem ordered_total {s : Selection ι δ ο ρ} {n : ℕ} {key : Dict ι (List δ)}
    {stand : List δ → Except SelectionError ο}
    (hk : s.key = some key) (hn : s.Arity n) (hf : Reads n (s.fold.getD stand)) :
    ∃ t, s.ordered stand = .ok t := by
  obtain ⟨ms, hms⟩ := measured_total (hn.folded hk hf)
  unfold Selection.ordered
  cases hc : s.comparable stand with
  | none => exact ⟨s, rfl⟩
  | some order =>
      have horder : order = s.folded stand key := by
        unfold comparable at hc
        rw [hk] at hc
        split at hc
        · cases ‹some key = some _›
          cases hc
          rfl
        · cases hc
      subst horder
      exact ⟨_, by simp only [hms]; rfl⟩

/-- The leader of an ordering is there to keep. -/
theorem best_total {s : Selection ι δ ο ρ} {n : ℕ} {key : Dict ι (List δ)}
    {stand : List δ → Except SelectionError ο}
    (hk : s.key = some key) (hn : s.Arity n) (hf : Reads n (s.fold.getD stand)) :
    ∃ t, s.best stand = .ok t := by
  obtain ⟨ms, hms⟩ := measured_total (hn.folded hk hf)
  unfold Selection.best
  cases hnamed : s.named with
  | nil => exact ⟨s, rfl⟩
  | cons leader rest =>
      have hs : s.sources = some (leader :: rest) := by
        rw [← hnamed]
        exact sources_of_mem (x := leader) (by rw [hnamed]; exact List.mem_cons_self)
      have hc : s.comparable stand = some (s.folded stand key) := by
        simp only [comparable, hs, hk]
      have hne : ms ≠ [] := by
        intro hnil
        have hsnd := measured_snd hms
        rw [hnil, hnamed] at hsnd
        cases hsnd
      obtain ⟨m, hm, hmem, _⟩ := least_spec hne
      have hin : m.2 ∈ s.named := by
        rw [← measured_snd hms]
        exact List.mem_map_of_mem hmem
      have honly := only_eq (d := s.dims) [m.2] (sources_of_mem hin) hk
        (fun x hx => by rw [List.mem_singleton.mp hx]; exact hin)
        (fun x hx => by rw [List.mem_singleton.mp hx]; exact hn.covers hk _ hin)
      rw [hnamed] at hms
      simp only [hc, hms]
      refine ⟨_, Eq.trans ?_ honly⟩
      show s.only ((least ms).map Prod.snd).toList = s.only [m.2]
      rw [hm]
      rfl

omit [LinearOrder ο] in
/-- A bound refuses only to cut what stands for every holder. -/
theorem bounded_error {s : Selection ι δ ο ρ} {n : ℕ} {key : Dict ι (List δ)}
    {bound : List δ → Except SelectionError Bool}
    (hk : s.key = some key) (hn : s.Arity n) (hb : Reads n bound) {e : SelectionError}
    (he : s.bounded bound = .error e) : s.sources = none ∧ e = .universeCut := by
  unfold Selection.bounded at he
  by_cases ha : s.Abstains
  · rw [if_pos ha] at he
    cases he
  · obtain ⟨kept, hkept⟩ := inside_total hb (hn.covers hk) fun x hx => hn.length hk hx
    rw [if_neg ha, hk, Option.getD_some, hkept] at he
    change s.only kept = .error e at he
    cases hs : s.sources with
    | none =>
        simp only [only, hs, Except.error.injEq] at he
        exact ⟨rfl, he.symm⟩
    | some mine =>
        have hsub := (inside_sublist hkept).subset
        rw [named_of_sources hs] at hsub
        rw [only_eq _ hs hk (fun x hx => hsub hx) fun x hx =>
          hn.covers hk x (by rw [named_of_sources hs]; exact hsub hx)] at he
        cases he

/-- **Nothing is missing**: a key that covers its sources at one arity answers whatever
reads that arity. -/
theorem nothingMissing (s : Selection ι δ ο ρ) : s.NothingMissing where
  ordered _ _ _ hk hn hf := ordered_total hk hn hf
  best _ _ _ hk hn hf := best_total hk hn hf
  bounded _ _ _ hk hn hb _ he := bounded_error hk hn hb he

/-- **What every selection keeps**, built with cuts that repeat nobody: each source is
named once, a key covers exactly the sources at one arity, nothing is missing when it
is ordered or bounded, and the next cut keeps it so exactly when it repeats nobody. -/
theorem built_covered {s : Selection ι δ ο ρ} (h : Built List.Nodup s) :
    s.Covered ∧ s.NothingMissing ∧
      ∀ sources t, s.only sources = .ok t → (t.Covered ↔ sources.Nodup) :=
  ⟨h.covered, nothingMissing s, fun _ _ ho => h.covered.only_iff ho⟩

end Built

/-- Two sources priced, cut to the second and annotated. -/
theorem built_covered_cut : ∃ s : Selection ℕ ℕ ℕ Empty,
    s.sources = some [2] ∧ s.dims 2 = [7, 0] ∧ s.Covered ∧ s.NothingMissing ∧
      ∀ sources t, s.only sources = .ok t → (t.Covered ↔ sources.Nodup) := by
  have hpriced : ∃ s : Selection ℕ ℕ ℕ Empty, Selection.priced [(1, 5), (2, 7)] none = .ok s ∧
      s.only [2] = .ok ⟨some [2], some (dictOf [(2, [7])]), none, none⟩ := ⟨_, rfl, rfl⟩
  obtain ⟨s, hs, hcut⟩ := hpriced
  have hbuilt : Built List.Nodup
      (annotated (fun _ => 0) (⟨some [2], some (dictOf [(2, [7])]), none, none⟩ :
        Selection ℕ ℕ ℕ Empty)) :=
    .annotated _ (.only (.priced hs) (List.nodup_singleton 2) hcut)
  exact ⟨_, rfl, rfl, built_covered hbuilt⟩

/-- **A source named twice**, by a cut. -/
theorem repeated_cut : ∃ s : Selection ℕ ℕ ℕ Empty,
    Built (fun _ => True) s ∧ s.sources = some [1, 1] := by
  have hof : (Selection.of [1] none : Except SelectionError (Selection ℕ ℕ ℕ Empty)) =
      .ok ⟨some [1], none, none, none⟩ := rfl
  have hcut : (⟨some [1], none, none, none⟩ : Selection ℕ ℕ ℕ Empty).only [1, 1] =
      .ok ⟨some [1, 1], none, none, none⟩ := rfl
  exact ⟨_, .only (.of hof) trivial hcut, rfl⟩

end Selection

end Toso.Proposed
