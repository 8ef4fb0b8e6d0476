/-
  Toso.Store.Residency — a volume's residency under interleaved calls.

  The machine of one `VolumeService` with any number of callers: a call runs
  atomically, except that a put which evicts is parked at its notification of
  the directory and resumed later, in any order.  A put reads the running
  total before it parks and writes its own sum back when it resumes, so what
  runs in between decides whether the residency stays exact.

  Main results:
    * `residency_lost_update` — an interleaving that leaves the running total
      wrong with nobody parked.
    * `Inv` — the residency while puts are parked: one committing put at most,
      its projection exact against the current volume.
    * `calm_run_consistent` — the residency is exact in every run whose steps
      are all `Calm`.
-/
import Toso.Store.VolumeService
import Toso.Lib.Machine

namespace Toso.Store

open Lib

variable {κ β ρ τ : Type*} [DecidableEq κ]

/-! ## §1. The machine. -/

/-- A volume and the puts parked at their notification. -/
structure Run (κ β ρ : Type*) where
  vol : VolumeService κ β ρ
  parked : List (VolumeService.Frame κ)

/-- What can happen next: a call, or a parked put being resumed. -/
inductive Event (κ τ : Type*)
  | put (p : Put κ τ)
  | get (keys : List κ)
  | touch (keys : List κ)
  | delete (key : κ)
  | deleteBatch (keys : List κ)
  | reset
  | resume (i : ℕ)

/-- One step: everything between two awaits. -/
def next (cfg : VolumeConfig κ ρ) (store : InMemoryStore κ β τ) (s : Run κ β ρ) :
    Event κ τ → Option (Run κ β ρ)
  | .put p =>
      match s.vol.beginPut cfg store p with
      | .done v _ => some ⟨v, s.parked⟩
      | .notifying v f _ => some ⟨v, s.parked ++ [f]⟩
  | .get keys => some ⟨s.vol.get cfg keys, s.parked⟩
  | .touch keys => some ⟨s.vol.touch cfg keys, s.parked⟩
  | .delete key => some ⟨s.vol.delete cfg key, s.parked⟩
  | .deleteBatch keys => some ⟨s.vol.deleteBatch cfg keys, s.parked⟩
  | .reset => some ⟨s.vol.reset cfg, s.parked⟩
  | .resume i =>
      s.parked[i]?.map fun f => ⟨(s.vol.finishPut cfg f).1, s.parked.eraseIdx i⟩

/-- The runs of a fresh volume. -/
def machine (cfg : VolumeConfig κ ρ) (store : InMemoryStore κ β τ) :
    Machine (Run κ β ρ) (Event κ τ) :=
  .ofPartial (· = ⟨cfg.fresh, []⟩) (next cfg store)

/-- **What the residency promises**: the running total is the sum of the
recorded sizes, the recorded keys are the stored ones, each at its stored size,
and the total fits. -/
structure Consistent (cfg : VolumeConfig κ ρ) (v : VolumeService κ β ρ) : Prop where
  total : v.residentBytes = v.recordedTotal
  keys : ∀ k, k ∈ v.residentByKey ↔ k ∈ v.kv
  sizes : ∀ k n, v.residentByKey.get? k = some n → n = storedNbytes (v.kv.get? k)
  fits : ∀ c ∈ cfg.capacityBytes, (v.residentBytes : ℚ) ≤ c

/-! ## §2. The steps that keep it. -/

/-- A parked put that will record its sizes when it resumes. -/
def Commits (cfg : VolumeConfig κ ρ) (f : VolumeService.Frame κ) : Prop :=
  ¬ cfg.Exceeds f.projected

instance (cfg : VolumeConfig κ ρ) (f : VolumeService.Frame κ) : Decidable (Commits cfg f) :=
  inferInstanceAs (Decidable (¬ cfg.Exceeds f.projected))

/-- Removing `ks` disturbs no put parked to commit: it names none of them, and
none has recorded bytes. -/
def Weightless (cfg : VolumeConfig κ ρ) (s : Run κ β ρ) (ks : List κ) : Prop :=
  ∀ f ∈ s.parked, Commits cfg f → ∀ k ∈ ks, k ∉ f.keys ∧ s.vol.recorded k = 0

/-- Every recorded key the put names is written at its recorded size. -/
def KeepsSizes (store : InMemoryStore κ β τ) (v : VolumeService κ β ρ) (p : Put κ τ) :
    Prop :=
  ∀ k ∈ p.keys, ∀ n ∈ v.residentByKey.get? k,
    storedNbytes ((v.landed store p).kv.get? k) = n

/-- The put does not fit, even after what it evicts. -/
def Refused (cfg : VolumeConfig κ ρ) (store : InMemoryStore κ β τ)
    (v : VolumeService κ β ρ) (p : Put κ τ) : Prop :=
  cfg.Exceeds (v.settledTotal cfg store p)

/-- The put runs beside a parked one without moving the total: it names no key
of it, keeps the recorded sizes, and names recorded keys only or is refused
without freeing bytes. -/
def Beside (cfg : VolumeConfig κ ρ) (store : InMemoryStore κ β τ) (s : Run κ β ρ)
    (p : Put κ τ) : Prop :=
  (∀ f ∈ s.parked, Commits cfg f → ∀ k ∈ p.keys, k ∉ f.keys) ∧
  KeepsSizes store s.vol p ∧
  ((∀ k ∈ p.keys, k ∈ s.vol.residentByKey) ∨
    Refused cfg store s.vol p ∧ Weightless cfg s (s.vol.putVictims cfg store p))

/-- **The steps that meet no stale total and resize nothing they refuse.** -/
def Calm (cfg : VolumeConfig κ ρ) (store : InMemoryStore κ β τ) (s : Run κ β ρ) :
    Event κ τ → Prop
  | .put p =>
      (Refused cfg store s.vol p → KeepsSizes store s.vol p) ∧
      ((∀ f ∈ s.parked, ¬ Commits cfg f) ∨ Beside cfg store s p)
  | .get _ => True
  | .touch _ => True
  | .delete key => Weightless cfg s [key]
  | .deleteBatch keys => Weightless cfg s keys
  | .reset => ∀ f ∈ s.parked, ¬ Commits cfg f
  | .resume i =>
      -- a roll-back must not delete what a put parked to commit has landed
      ∀ f ∈ s.parked[i]?, ¬ Commits cfg f →
        ∀ g ∈ s.parked, Commits cfg g → ∀ k ∈ f.keys, k ∈ g.keys →
          k ∈ s.vol.residentByKey

/-! ## §3. The invariant. -/

/-- The residency while puts are parked. -/
structure Inv (cfg : VolumeConfig κ ρ) (s : Run κ β ρ) : Prop where
  total : s.vol.residentBytes = s.vol.recordedTotal
  fits : ¬ cfg.Exceeds s.vol.residentBytes
  stored : ∀ k ∈ s.vol.residentByKey, k ∈ s.vol.kv
  covered : ∀ k ∈ s.vol.kv,
    k ∈ s.vol.residentByKey ∨ ∃ f ∈ s.parked, k ∈ f.keys
  /-- A recorded size is the stored one, unless a put parked to commit has
  already overwritten the value. -/
  sizes : ∀ k n, s.vol.residentByKey.get? k = some n →
    (∀ f ∈ s.parked, Commits cfg f → k ∉ f.keys) → n = storedNbytes (s.vol.kv.get? k)
  /-- At most one parked put will commit. -/
  exclusive : s.parked.Pairwise fun f g => ¬ Commits cfg f ∨ ¬ Commits cfg g
  named : ∀ f ∈ s.parked, ∀ k, k ∈ f.newByKey ↔ k ∈ f.keys
  /-- What a put parked to commit has landed, and the total it will write. -/
  landed : ∀ f ∈ s.parked, Commits cfg f →
    (∀ k n, f.newByKey.get? k = some n → k ∈ s.vol.kv ∧ n = storedNbytes (s.vol.kv.get? k)) ∧
    f.projected = s.vol.residentBytes + s.vol.sizeChange f.newByKey

/-- With nobody parked the invariant is the promise. -/
theorem Inv.consistent {cfg : VolumeConfig κ ρ} {s : Run κ β ρ} (h : Inv cfg s)
    (hq : s.parked = []) : Consistent cfg s.vol where
  total := h.total
  keys k := by
    refine ⟨h.stored k, fun hk => ?_⟩
    rcases h.covered k hk with hr | ⟨f, hf, _⟩
    · exact hr
    · simp [hq] at hf
  sizes k n hn := h.sizes k n hn (by simp [hq])
  fits c hc := by
    by_contra hlt
    exact h.fits ⟨c, hc, not_le.mp hlt⟩

theorem inv_fresh (cfg : VolumeConfig κ ρ) : Inv cfg (⟨cfg.fresh, []⟩ : Run κ β ρ) where
  total := rfl
  fits := by
    rintro ⟨c, hc, hlt⟩
    have hpos := cfg.capacity_nonneg c hc
    simp only [VolumeConfig.fresh, Int.cast_zero] at hlt
    exact absurd hlt (not_lt.mpr hpos)
  stored k hk := absurd hk (Dict.not_mem_empty k)
  covered k hk := absurd hk (Dict.not_mem_empty k)
  sizes k n hn _ := by simp [VolumeConfig.fresh] at hn
  exclusive := List.Pairwise.nil
  named f hf := by simp at hf
  landed f hf := by simp at hf

/-- The order of the parked puts does not matter. -/
theorem Inv.perm {cfg : VolumeConfig κ ρ} {v : VolumeService κ β ρ}
    {fs gs : List (VolumeService.Frame κ)} (hp : fs.Perm gs) (h : Inv cfg ⟨v, fs⟩) :
    Inv cfg ⟨v, gs⟩ where
  total := h.total
  fits := h.fits
  stored := h.stored
  covered k hk := by
    rcases h.covered k hk with hr | ⟨f, hf, hkf⟩
    · exact .inl hr
    · exact .inr ⟨f, hp.mem_iff.mp hf, hkf⟩
  sizes k n hn hfree := h.sizes k n hn fun f hf => hfree f (hp.mem_iff.mp hf)
  exclusive := (hp.pairwise_iff fun hxy => hxy.symm).mp h.exclusive
  named f hf := h.named f (hp.mem_iff.mpr hf)
  landed f hf := h.landed f (hp.mem_iff.mpr hf)

/-- Only the store, the recorded sizes and the running total matter. -/
theorem Inv.congr {cfg : VolumeConfig κ ρ} {v w : VolumeService κ β ρ}
    {fs : List (VolumeService.Frame κ)} (h : Inv cfg ⟨v, fs⟩) (hkv : w.kv = v.kv)
    (hres : w.residentByKey = v.residentByKey)
    (hbytes : w.residentBytes = v.residentBytes) : Inv cfg ⟨w, fs⟩ := by
  obtain ⟨kv, res, bytes, peak, r⟩ := v
  obtain ⟨kv', res', bytes', peak', r'⟩ := w
  obtain rfl : kv' = kv := hkv
  obtain rfl : res' = res := hres
  obtain rfl : bytes' = bytes := hbytes
  exact ⟨h.total, h.fits, h.stored, h.covered, h.sizes, h.exclusive, h.named, h.landed⟩

/-! ## §4. One step at a time. -/

/-- Removals: `delete`, `delete_batch`, and the evictions inside a put. -/
theorem Inv.deleteBatch {cfg : VolumeConfig κ ρ} {s : Run κ β ρ} (h : Inv cfg s)
    {ks : List κ} (hw : Weightless cfg s ks) :
    Inv cfg ⟨s.vol.deleteBatch cfg ks, s.parked⟩ where
  total := by
    have hsum := s.vol.deleteBatch_total cfg ks
    have htot := h.total
    show (s.vol.deleteBatch cfg ks).residentBytes
      = (s.vol.deleteBatch cfg ks).recordedTotal
    omega
  fits := by
    rintro ⟨c, hc, hlt⟩
    have hle := s.vol.deleteBatch_le cfg ks
    exact h.fits ⟨c, hc, lt_of_lt_of_le hlt (by exact_mod_cast hle)⟩
  stored k hk := by
    obtain ⟨hks, hr⟩ := (s.vol.mem_resident_deleteBatch cfg k ks).mp hk
    exact (s.vol.mem_kv_deleteBatch cfg k ks).mpr ⟨hks, h.stored k hr⟩
  covered k hk := by
    obtain ⟨hks, hkv⟩ := (s.vol.mem_kv_deleteBatch cfg k ks).mp hk
    rcases h.covered k hkv with hr | hf
    · exact .inl ((s.vol.mem_resident_deleteBatch cfg k ks).mpr ⟨hks, hr⟩)
    · exact .inr hf
  sizes k n hn hfree := by
    have hread := s.vol.get?_resident_deleteBatch cfg k ks
    simp only [hread] at hn
    split at hn
    · cases hn
    · rename_i hks
      simp only [VolumeService.get?_kv_deleteBatch, if_neg hks]
      exact h.sizes k n hn hfree
  exclusive := h.exclusive
  named := h.named
  landed f hf hc := by
    obtain ⟨hnew, hproj⟩ := h.landed f hf hc
    have hname : ∀ k, k ∈ f.newByKey → k ∉ ks :=
      fun k hk hks => (hw f hf hc k hks).1 ((h.named f hf k).mp hk)
    refine ⟨fun k n hn => ?_, ?_⟩
    · have hks := hname k (Dict.mem_of_get? hn)
      have hkv := s.vol.mem_kv_deleteBatch cfg k ks
      simp only [VolumeService.get?_kv_deleteBatch, if_neg hks]
      exact ⟨hkv.mpr ⟨hks, (hnew k n hn).1⟩, (hnew k n hn).2⟩
    · have hsame : (s.vol.deleteBatch cfg ks).sizeChange f.newByKey
          = s.vol.sizeChange f.newByKey :=
        VolumeService.sizeChange_congr fun k hk => s.vol.recorded_deleteBatch cfg (hname k hk)
      have hkeep := s.vol.deleteBatch_weightless cfg ks fun k hk => (hw f hf hc k hk).2
      show f.projected = (s.vol.deleteBatch cfg ks).residentBytes + _
      rw [hsame, hkeep]
      exact hproj

/-- Landing: a put writes its keys and joins the parked ones. -/
theorem Inv.land {cfg : VolumeConfig κ ρ} {v w : VolumeService κ β ρ}
    {fs : List (VolumeService.Frame κ)} {f : VolumeService.Frame κ}
    (h : Inv cfg ⟨v, fs⟩) (hres : w.residentByKey = v.residentByKey)
    (hbytes : w.residentBytes = v.residentBytes)
    (hframe : ∀ k, k ∉ f.keys → w.kv.get? k = v.kv.get? k)
    (hmem : ∀ k ∈ f.keys, k ∈ w.kv) (hnamed : ∀ k, k ∈ f.newByKey ↔ k ∈ f.keys)
    (hnew : ∀ k n, f.newByKey.get? k = some n → n = storedNbytes (w.kv.get? k))
    (hproj : f.projected = w.residentBytes + w.sizeChange f.newByKey)
    (hkeep : ¬ Commits cfg f → ∀ k ∈ f.keys, ∀ n,
      w.residentByKey.get? k = some n → n = storedNbytes (w.kv.get? k))
    (hside : ∀ g ∈ fs, Commits cfg g → ¬ Commits cfg f ∧ ∀ k ∈ f.keys, k ∉ g.keys) :
    Inv cfg ⟨w, f :: fs⟩ := by
  have hsame : ∀ sizes, w.sizeChange sizes = v.sizeChange sizes := fun sizes =>
    VolumeService.sizeChange_congr fun k _ => by unfold VolumeService.recorded; rw [hres]
  have htotal : w.recordedTotal = v.recordedTotal := by
    unfold VolumeService.recordedTotal
    rw [hres]
  have hkvmem : ∀ k, k ∉ f.keys → (k ∈ w.kv ↔ k ∈ v.kv) := fun k hk => by
    rw [Dict.mem_iff, Dict.mem_iff, hframe k hk]
  -- nothing is recorded yet: what changed is the store at the keys of `f`
  constructor
  case total =>
    show w.residentBytes = w.recordedTotal
    rw [hbytes, htotal]
    exact h.total
  case fits =>
    show ¬ cfg.Exceeds w.residentBytes
    rw [hbytes]
    exact h.fits
  case stored =>
    intro k hk
    by_cases hkf : k ∈ f.keys
    · exact hmem k hkf
    · refine (hkvmem k hkf).mpr (h.stored k ?_)
      show k ∈ v.residentByKey
      rw [← hres]
      exact hk
  case covered =>
    intro k hk
    by_cases hkf : k ∈ f.keys
    · exact .inr ⟨f, List.mem_cons_self, hkf⟩
    · rcases h.covered k ((hkvmem k hkf).mp hk) with hr | ⟨g, hg, hkg⟩
      · left
        show k ∈ w.residentByKey
        rw [hres]
        exact hr
      · exact .inr ⟨g, List.mem_cons_of_mem _ hg, hkg⟩
  case sizes =>
    intro k n hn hfree
    by_cases hkf : k ∈ f.keys
    · exact hkeep (fun hc => hfree f List.mem_cons_self hc hkf) k hkf n hn
    · show n = storedNbytes (w.kv.get? k)
      rw [hframe k hkf]
      refine h.sizes k n ?_ fun g hg => hfree g (List.mem_cons_of_mem _ hg)
      show v.residentByKey.get? k = some n
      rw [← hres]
      exact hn
  case exclusive =>
    refine List.pairwise_cons.mpr ⟨fun g hg => ?_, h.exclusive⟩
    by_cases hg' : Commits cfg g
    · exact .inl (hside g hg hg').1
    · exact .inr hg'
  case named =>
    intro g hg
    rcases List.mem_cons.mp hg with rfl | hg
    · exact hnamed
    · exact h.named g hg
  case landed =>
    intro g hg hc
    rcases List.mem_cons.mp hg with rfl | hg
    · refine ⟨fun k n hn => ⟨hmem k ?_, hnew k n hn⟩, hproj⟩
      exact (hnamed k).mp (Dict.mem_of_get? hn)
    · obtain ⟨hold, hprojg⟩ := h.landed g hg hc
      refine ⟨fun k n hn => ?_, ?_⟩
      · have hkf : k ∉ f.keys := fun hkf =>
          (hside g hg hc).2 k hkf ((h.named g hg k).mp (Dict.mem_of_get? hn))
        show k ∈ w.kv ∧ n = storedNbytes (w.kv.get? k)
        rw [hframe k hkf]
        exact ⟨(hkvmem k hkf).mpr (hold k n hn).1, (hold k n hn).2⟩
      · show g.projected = w.residentBytes + w.sizeChange g.newByKey
        rw [hbytes, hsame]
        exact hprojg

/-- A put up to the point where it parks, or would have parked. -/
theorem Inv.park {cfg : VolumeConfig κ ρ} {store : InMemoryStore κ β τ} {s : Run κ β ρ}
    (h : Inv cfg s) (p : Put κ τ)
    (hkeep : Refused cfg store s.vol p → KeepsSizes store s.vol p)
    (hside : ∀ g ∈ s.parked, Commits cfg g →
      Refused cfg store s.vol p ∧ (∀ k ∈ p.keys, k ∉ g.keys) ∧
        ∀ k ∈ s.vol.putVictims cfg store p, k ∉ g.keys ∧ s.vol.recorded k = 0) :
    Inv cfg ⟨s.vol.settledVolume cfg store p,
      s.vol.settledFrame cfg store p :: s.parked⟩ := by
  have hw : Weightless cfg s (s.vol.putVictims cfg store p) :=
    fun g hg hc => (hside g hg hc).2.2
  obtain ⟨hres, hbytes⟩ := VolumeService.deleteBatch_congr cfg
    (s.vol.putVictims cfg store p) s.vol (s.vol.landed store p) rfl rfl
  refine (h.deleteBatch hw).land hres hbytes ?_ ?_ ?_ ?_ ?_ ?_ ?_
  · intro k hk
    rw [VolumeService.get?_kv_settled, VolumeService.get?_kv_deleteBatch]
    by_cases hv : k ∈ s.vol.putVictims cfg store p
    · rw [if_pos hv, if_pos hv]
    · rw [if_neg hv, if_neg hv]
      exact if_neg hk
  · intro k hk
    exact VolumeService.mem_kv_settled hk
  · intro k
    exact VolumeService.mem_newByKey
  · intro k n hn
    have hk : k ∈ p.keys := VolumeService.mem_newByKey.mp (Dict.mem_of_get? hn)
    have hv : k ∉ s.vol.putVictims cfg store p :=
      fun hv => (VolumeService.mem_putVictims hv).2 hk
    have hread : some (storedNbytes ((s.vol.landed store p).kv.get? k)) = some n := by
      rw [← hn]
      exact ((s.vol.landed store p).get?_newByKey p k |>.trans (if_pos hk)).symm
    rw [VolumeService.get?_kv_settled, if_neg hv, if_pos hk]
    exact (Option.some.inj hread).symm
  · exact s.vol.settledTotal_eq cfg store p
  · intro hrefused k hkf n hn
    have hk : k ∈ p.keys := hkf
    have hv : k ∉ s.vol.putVictims cfg store p :=
      fun hv => (VolumeService.mem_putVictims hv).2 hk
    rw [VolumeService.get?_resident_settled, if_neg hv] at hn
    rw [VolumeService.get?_kv_settled, if_neg hv, if_pos hk]
    exact (hkeep (not_not.mp hrefused) k hk n hn).symm
  · intro g hg hc
    exact ⟨not_not.mpr (hside g hg hc).1, (hside g hg hc).2.1⟩

/-- A parked put leaves by recording its sizes. -/
theorem Inv.record {cfg : VolumeConfig κ ρ} {v : VolumeService κ β ρ}
    {f : VolumeService.Frame κ} {fs : List (VolumeService.Frame κ)}
    (h : Inv cfg ⟨v, f :: fs⟩) (hc : Commits cfg f) : Inv cfg ⟨v.record cfg f, fs⟩ := by
  obtain ⟨hnew, hproj⟩ := h.landed f List.mem_cons_self hc
  have hname := h.named f List.mem_cons_self
  -- nobody else parked will commit
  have hothers : ∀ g ∈ fs, ¬ Commits cfg g := fun g hg =>
    ((List.pairwise_cons.mp h.exclusive).1 g hg).resolve_left (not_not.mpr hc)
  have hmem : ∀ k, k ∈ (v.record cfg f).residentByKey ↔ k ∈ f.keys ∨ k ∈ v.residentByKey :=
    fun k => by rw [VolumeService.record_residentByKey, Dict.mem_update, hname]
  refine ⟨?_, hc, ?_, ?_, ?_, (List.pairwise_cons.mp h.exclusive).2, ?_, ?_⟩
  · have hsum := v.recordedTotal_update f.newByKey
    have htot : v.residentBytes = v.recordedTotal := h.total
    have hproj' : f.projected = v.residentBytes + v.sizeChange f.newByKey := hproj
    show f.projected = (v.residentByKey.update f.newByKey).sumBy fun _ n => (n : ℤ)
    omega
  · intro k hk
    show k ∈ v.kv
    rcases (hmem k).mp hk with hkf | hr
    · obtain ⟨n, hn⟩ := (f.newByKey.mem_iff k).mp ((hname k).mpr hkf)
      exact (hnew k n hn).1
    · exact h.stored k hr
  · intro k hk
    rcases h.covered k hk with hr | ⟨g, hg, hkg⟩
    · exact .inl ((hmem k).mpr (.inr hr))
    · rcases List.mem_cons.mp hg with rfl | hg
      · exact .inl ((hmem k).mpr (.inl hkg))
      · exact .inr ⟨g, hg, hkg⟩
  · intro k n hn _
    show n = storedNbytes (v.kv.get? k)
    simp only [VolumeService.record_residentByKey, Dict.get?_update] at hn
    cases hf : f.newByKey.get? k with
    | some m =>
        simp only [hf, Option.some_or, Option.some.injEq] at hn
        subst hn
        exact (hnew k m hf).2
    | none =>
        have hkf : k ∉ f.keys := fun hkf =>
          (f.newByKey.get?_eq_none_iff k).mp hf ((hname k).mpr hkf)
        simp only [hf, Option.none_or] at hn
        refine h.sizes k n hn fun g hg hgc => ?_
        rcases List.mem_cons.mp hg with rfl | hg
        · exact hkf
        · exact absurd hgc (hothers g hg)
  · exact fun g hg => h.named g (List.mem_cons_of_mem _ hg)
  · exact fun g hg hgc => absurd hgc (hothers g hg)

/-- A parked put leaves by rolling its new keys back. -/
theorem Inv.rollBack {cfg : VolumeConfig κ ρ} {v : VolumeService κ β ρ}
    {f : VolumeService.Frame κ} {fs : List (VolumeService.Frame κ)}
    (h : Inv cfg ⟨v, f :: fs⟩)
    (hsafe : ∀ g ∈ fs, Commits cfg g → ∀ k ∈ f.keys, k ∈ g.keys → k ∈ v.residentByKey)
    (hc : ¬ Commits cfg f) : Inv cfg ⟨v.rollBack f.keys, fs⟩ := by
  -- what it rolls back was resident nowhere, so resident keys keep their data
  have hkeep : ∀ k, k ∈ v.residentByKey → (v.rollBack f.keys).kv.get? k = v.kv.get? k :=
    fun k hk => by
      rw [VolumeService.get?_rollBack]
      exact if_neg fun hdrop => hdrop.2 hk
  have hkvmem : ∀ k, k ∈ (v.rollBack f.keys).kv →
      k ∈ v.kv ∧ (k ∈ f.keys → k ∈ v.residentByKey) := fun k hk => by
    simp only [Dict.mem_iff, VolumeService.get?_rollBack] at hk ⊢
    by_cases hdrop : k ∈ f.keys ∧ k ∉ v.residentByKey
    · simp [hdrop] at hk
    · rw [if_neg hdrop] at hk
      refine ⟨hk, fun hkf => ?_⟩
      by_contra hr
      exact hdrop ⟨hkf, fun hmem => hr ((v.residentByKey.mem_iff k).mp hmem)⟩
  refine ⟨h.total, h.fits, ?_, ?_, ?_, (List.pairwise_cons.mp h.exclusive).2, ?_, ?_⟩
  · intro k hk
    show k ∈ (v.rollBack f.keys).kv
    rw [Dict.mem_iff, hkeep k hk, ← Dict.mem_iff]
    exact h.stored k hk
  · intro k hk
    obtain ⟨hkv, hr⟩ := hkvmem k hk
    rcases h.covered k hkv with hres | ⟨g, hg, hkg⟩
    · exact .inl hres
    · rcases List.mem_cons.mp hg with rfl | hg
      · exact .inl (hr hkg)
      · exact .inr ⟨g, hg, hkg⟩
  · intro k n hn hfree
    show n = storedNbytes ((v.rollBack f.keys).kv.get? k)
    rw [hkeep k (Dict.mem_of_get? hn)]
    refine h.sizes k n hn fun g hg hgc => ?_
    rcases List.mem_cons.mp hg with rfl | hg
    · exact absurd hgc hc
    · exact hfree g hg hgc
  · exact fun g hg => h.named g (List.mem_cons_of_mem _ hg)
  · intro g hg hgc
    obtain ⟨hnew, hproj⟩ := h.landed g (List.mem_cons_of_mem _ hg) hgc
    refine ⟨fun k n hn => ?_, hproj⟩
    have hkg : k ∈ g.keys :=
      (h.named g (List.mem_cons_of_mem _ hg) k).mp (Dict.mem_of_get? hn)
    -- a key it shares with a put that commits is resident, and stays
    have hread : (v.rollBack f.keys).kv.get? k = v.kv.get? k := by
      rw [VolumeService.get?_rollBack]
      exact if_neg fun hdrop => hdrop.2 (hsafe g hg hgc k hdrop.1 hkg)
    show k ∈ (v.rollBack f.keys).kv ∧ n = storedNbytes ((v.rollBack f.keys).kv.get? k)
    rw [Dict.mem_iff, hread, ← Dict.mem_iff]
    exact hnew k n hn

/-- A parked put's second half. -/
theorem Inv.finishPut {cfg : VolumeConfig κ ρ} {v : VolumeService κ β ρ}
    {f : VolumeService.Frame κ} {fs : List (VolumeService.Frame κ)}
    (h : Inv cfg ⟨v, f :: fs⟩)
    (hsafe : ¬ Commits cfg f →
      ∀ g ∈ fs, Commits cfg g → ∀ k ∈ f.keys, k ∈ g.keys → k ∈ v.residentByKey) :
    Inv cfg ⟨(v.finishPut cfg f).1, fs⟩ := by
  unfold VolumeService.finishPut
  by_cases hex : cfg.Exceeds f.projected
  · rw [if_pos hex]
    exact h.rollBack (hsafe (not_not.mpr hex)) (not_not.mpr hex)
  · rw [if_neg hex]
    exact h.record hex

/-- A put that rewrites recorded keys at their recorded sizes projects the
running total unchanged, so it evicts nothing and is not refused. -/
theorem rewrite_total {cfg : VolumeConfig κ ρ} {store : InMemoryStore κ β τ}
    {s : Run κ β ρ} (h : Inv cfg s) {p : Put κ τ} (hkeep : KeepsSizes store s.vol p)
    (hall : ∀ k ∈ p.keys, k ∈ s.vol.residentByKey) :
    s.vol.putVictims cfg store p = [] ∧
      s.vol.settledTotal cfg store p = s.vol.residentBytes := by
  have hzero : (s.vol.landed store p).sizeChange ((s.vol.landed store p).newByKey p) = 0 := by
    have hterm : (s.vol.landed store p).sizeChange ((s.vol.landed store p).newByKey p)
        = ((s.vol.landed store p).newByKey p).sumBy fun _ _ => (0 : ℤ) := by
      apply Dict.sumBy_congr
      intro k n hn
      have hk : k ∈ p.keys := VolumeService.mem_newByKey.mp (Dict.mem_of_get? hn)
      obtain ⟨m, hm⟩ := (s.vol.residentByKey.mem_iff k).mp (hall k hk)
      rw [VolumeService.get?_newByKey, if_pos hk, hkeep k hk m hm] at hn
      have hrec : (s.vol.landed store p).recorded k = (m : ℤ) := by
        show ((s.vol.residentByKey.getD k 0 : ℕ) : ℤ) = m
        simp [Dict.getD, hm]
      rw [hrec, Option.some.inj hn]
      omega
    rw [hterm]
    simp [Dict.sumBy]
  have hproj : (s.vol.framed store p).projected = s.vol.residentBytes := by
    show s.vol.residentBytes
      + (s.vol.landed store p).sizeChange ((s.vol.landed store p).newByKey p) = _
    omega
  have hnone : s.vol.putVictims cfg store p = [] := by
    unfold VolumeService.putVictims
    rw [hproj, if_neg h.fits]
  refine ⟨hnone, ?_⟩
  unfold VolumeService.settledTotal
  rw [hnone]
  exact hproj

/-- Such a put runs beside a put parked to commit. -/
theorem Inv.rewrite {cfg : VolumeConfig κ ρ} {store : InMemoryStore κ β τ} {s : Run κ β ρ}
    (h : Inv cfg s) {p : Put κ τ}
    (hapart : ∀ f ∈ s.parked, Commits cfg f → ∀ k ∈ p.keys, k ∉ f.keys)
    (hkeep : KeepsSizes store s.vol p) (hall : ∀ k ∈ p.keys, k ∈ s.vol.residentByKey) :
    Inv cfg ⟨(s.vol.landed store p).record cfg (s.vol.settledFrame cfg store p),
      s.parked⟩ := by
  obtain ⟨hnone, htotal⟩ := rewrite_total h hkeep hall
  -- the table reads as before, so every sum over it stays
  have hread : ∀ k, (s.vol.residentByKey.update ((s.vol.landed store p).newByKey p)).get? k
      = s.vol.residentByKey.get? k := by
    intro k
    rw [Dict.get?_update, VolumeService.get?_newByKey]
    by_cases hk : k ∈ p.keys
    · obtain ⟨m, hm⟩ := (s.vol.residentByKey.mem_iff k).mp (hall k hk)
      rw [if_pos hk, hkeep k hk m hm, hm, Option.some_or]
    · rw [if_neg hk, Option.none_or]
  have hmem : ∀ k, k ∈ s.vol.residentByKey.update ((s.vol.landed store p).newByKey p)
      ↔ k ∈ s.vol.residentByKey := fun k => by
    rw [Dict.mem_iff, Dict.mem_iff, hread]
  have hframe : ∀ k, k ∉ p.keys → (s.vol.landed store p).kv.get? k = s.vol.kv.get? k :=
    fun k hk => store.land_frame _ _ _ fun hr => hk ((p.mem_keys k).mpr hr)
  have hland : ∀ k ∈ p.keys, k ∈ (s.vol.landed store p).kv :=
    fun k hk => store.land_mem _ _ _ ((p.mem_keys k).mp hk)
  have hkvmem : ∀ k, k ∉ p.keys → (k ∈ (s.vol.landed store p).kv ↔ k ∈ s.vol.kv) :=
    fun k hk => by rw [Dict.mem_iff, Dict.mem_iff, hframe k hk]
  constructor
  case total =>
    have hsum := (s.vol.landed store p).recordedTotal_update
      ((s.vol.landed store p).newByKey p)
    have hsettled := s.vol.settledTotal_eq cfg store p
    have hsame : (s.vol.settledVolume cfg store p).sizeChange (s.vol.framed store p).newByKey
        = (s.vol.landed store p).sizeChange ((s.vol.landed store p).newByKey p) := by
      unfold VolumeService.settledVolume
      rw [hnone]
      rfl
    have hbytes : (s.vol.settledVolume cfg store p).residentBytes = s.vol.residentBytes := by
      unfold VolumeService.settledVolume
      rw [hnone]
      rfl
    have htot : s.vol.residentBytes = (s.vol.landed store p).recordedTotal := h.total
    show s.vol.settledTotal cfg store p
      = ((s.vol.landed store p).residentByKey.update
          ((s.vol.landed store p).newByKey p)).sumBy fun _ n => (n : ℤ)
    omega
  case fits =>
    show ¬ cfg.Exceeds (s.vol.settledTotal cfg store p)
    rw [htotal]
    exact h.fits
  case stored =>
    intro k hk
    show k ∈ (s.vol.landed store p).kv
    by_cases hkp : k ∈ p.keys
    · exact hland k hkp
    · exact (hkvmem k hkp).mpr (h.stored k ((hmem k).mp hk))
  case covered =>
    intro k hk
    by_cases hkp : k ∈ p.keys
    · exact .inl ((hmem k).mpr (hall k hkp))
    · rcases h.covered k ((hkvmem k hkp).mp hk) with hr | hf
      · exact .inl ((hmem k).mpr hr)
      · exact .inr hf
  case sizes =>
    intro k n hn hfree
    have hn' : s.vol.residentByKey.get? k = some n := by
      rw [← hread]
      exact hn
    show n = storedNbytes ((s.vol.landed store p).kv.get? k)
    by_cases hkp : k ∈ p.keys
    · exact (hkeep k hkp n hn').symm
    · rw [hframe k hkp]
      exact h.sizes k n hn' hfree
  case exclusive => exact h.exclusive
  case named => exact h.named
  case landed =>
    intro f hf hc
    obtain ⟨hnew, hproj⟩ := h.landed f hf hc
    -- a put parked to commit names none of the keys written now
    have hname : ∀ k, k ∈ f.newByKey → k ∉ p.keys := fun k hk hkp =>
      hapart f hf hc k hkp ((h.named f hf k).mp hk)
    refine ⟨fun k n hn => ?_, ?_⟩
    · have hkp := hname k (Dict.mem_of_get? hn)
      show k ∈ (s.vol.landed store p).kv ∧ n = storedNbytes ((s.vol.landed store p).kv.get? k)
      rw [hframe k hkp]
      exact ⟨(hkvmem k hkp).mpr (hnew k n hn).1, (hnew k n hn).2⟩
    · have hsame : ((s.vol.landed store p).record cfg
            (s.vol.settledFrame cfg store p)).sizeChange f.newByKey
          = s.vol.sizeChange f.newByKey := by
        apply VolumeService.sizeChange_congr
        intro k _
        show (((s.vol.residentByKey.update
          ((s.vol.landed store p).newByKey p)).getD k 0 : ℕ) : ℤ) = s.vol.recorded k
        unfold Dict.getD VolumeService.recorded Dict.getD
        rw [hread]
      show f.projected = s.vol.settledTotal cfg store p + _
      rw [hsame, htotal]
      exact hproj

/-- **A put's first half.** -/
theorem Inv.put {cfg : VolumeConfig κ ρ} {store : InMemoryStore κ β τ} {s t : Run κ β ρ}
    (h : Inv cfg s) {p : Put κ τ} (hcalm : Calm cfg store s (.put p))
    (hs : next cfg store s (.put p) = some t) : Inv cfg t := by
  obtain ⟨hkeep, hside⟩ := hcalm
  -- the way through the parked state, for every put that may join the parked ones
  have hjoin : (∀ g ∈ s.parked, Commits cfg g →
      Refused cfg store s.vol p ∧ (∀ k ∈ p.keys, k ∉ g.keys) ∧
        ∀ k ∈ s.vol.putVictims cfg store p, k ∉ g.keys ∧ s.vol.recorded k = 0) →
      Inv cfg t := by
    intro hbeside
    have hpark := h.park p hkeep hbeside
    unfold next at hs
    rcases s.vol.beginPut_cases cfg store p with ⟨_, hb⟩ | ⟨_, hb⟩
    · simp only [hb, Option.some.injEq] at hs
      subst hs
      exact hpark.finishPut fun _ g hg hgc k hk hkg =>
        absurd hkg ((hbeside g hg hgc).2.1 k hk)
    · simp only [hb, Option.some.injEq] at hs
      subst hs
      exact hpark.perm (List.perm_append_singleton _ _).symm
  rcases hside with hquiet | ⟨hapart, hsizes, hall | ⟨hrefused, hfree⟩⟩
  · exact hjoin fun g hg hgc => absurd hgc (hquiet g hg)
  · obtain ⟨hnone, htotal⟩ := rewrite_total h hsizes hall
    have hrec := h.rewrite hapart hsizes hall
    unfold next at hs
    rcases s.vol.beginPut_cases cfg store p with ⟨_, hb⟩ | ⟨hne, _⟩
    · have hfit : ¬ cfg.Exceeds (s.vol.settledFrame cfg store p).projected := by
        show ¬ cfg.Exceeds (s.vol.settledTotal cfg store p)
        rw [htotal]
        exact h.fits
      simp only [hb, Option.some.injEq] at hs
      subst hs
      have hvol : s.vol.settledVolume cfg store p = s.vol.landed store p := by
        unfold VolumeService.settledVolume
        rw [hnone]
        rfl
      unfold VolumeService.finishPut
      rw [if_neg hfit, hvol]
      exact hrec
    · exact absurd hnone hne
  · exact hjoin fun g hg hgc => ⟨hrefused, hapart g hg hgc, hfree g hg hgc⟩

theorem Inv.reset {cfg : VolumeConfig κ ρ} {s : Run κ β ρ} (h : Inv cfg s)
    (hquiet : ∀ f ∈ s.parked, ¬ Commits cfg f) : Inv cfg ⟨s.vol.reset cfg, s.parked⟩ where
  total := rfl
  fits := (inv_fresh cfg : Inv cfg (⟨cfg.fresh, []⟩ : Run κ β ρ)).fits
  stored k hk := absurd hk (Dict.not_mem_empty k)
  covered k hk := absurd hk (Dict.not_mem_empty k)
  sizes k n hn _ := by simp [VolumeService.reset] at hn
  exclusive := h.exclusive
  named := h.named
  landed f hf hc := absurd hc (hquiet f hf)

/-- **The crux**: a calm step keeps the invariant. -/
theorem Inv.step {cfg : VolumeConfig κ ρ} {store : InMemoryStore κ β τ} {s t : Run κ β ρ}
    {e : Event κ τ} (h : Inv cfg s) (hcalm : Calm cfg store s e)
    (hs : next cfg store s e = some t) : Inv cfg t := by
  cases e with
  | put p => exact h.put hcalm hs
  | get keys =>
      cases hs
      exact h.congr rfl rfl rfl
  | touch keys =>
      cases hs
      exact h.congr rfl rfl rfl
  | delete key =>
      cases hs
      exact Inv.deleteBatch h (show Weightless cfg s [key] from hcalm)
  | deleteBatch keys =>
      cases hs
      exact h.deleteBatch hcalm
  | reset =>
      cases hs
      exact h.reset hcalm
  | resume i =>
      obtain ⟨f, hf, rfl⟩ := Option.map_eq_some_iff.mp hs
      -- bring the resumed put to the front
      obtain ⟨hi, hget⟩ := List.getElem?_eq_some_iff.mp hf
      have hperm : s.parked.Perm (f :: s.parked.eraseIdx i) := by
        rw [← hget]
        exact (List.getElem_cons_eraseIdx_perm hi).symm
      exact (h.perm hperm).finishPut fun hc g hg hgc =>
        hcalm f hf hc g (List.mem_of_mem_eraseIdx hg) hgc

/-! ## §5. Whole runs. -/

/-- A ten-byte volume with a handle to the directory. -/
def tenBytes : VolumeConfig ℕ (LeastRecentlyUsed ℕ) where
  volumeId := "v"
  capacityBytes := some 10
  capacity_nonneg := by simp
  controller := true
  retention := leastRecentlyUsed ℕ

/-- A put of one `n`-byte object under `key`. -/
def putOne (key n : ℕ) : Put ℕ (Stored Unit) where
  requests := [⟨key, .obj (.descriptor [n] 1)⟩]
  keys := [key]
  nodup := by simp
  mem_keys := by simp

/-- The put of key 1 evicts key 0 and parks; the put of key 2 runs meanwhile. -/
def overtaken : List (Event ℕ (Stored Unit)) :=
  [.put (putOne 0 6), .put (putOne 1 6), .put (putOne 2 3), .resume 0]

/-- **The lost update**: the resumed put writes back a total that never saw the
put which ran while it was parked. -/
theorem residency_lost_update :
    ¬ ∀ s, (machine tenBytes (overwriting ℕ Unit)).Reachable s → s.parked = [] →
        Consistent tenBytes s.vol := by
  intro hall
  have hrun : (Machine.replay (next tenBytes (overwriting ℕ Unit))
      ⟨tenBytes.fresh, []⟩ overtaken).map
        (fun t => (t.parked.length, t.vol.residentBytes, t.vol.recordedTotal))
      = some (0, 6, 9) := by decide +kernel
  obtain ⟨t, ht, hval⟩ := Option.map_eq_some_iff.mp hrun
  simp only [Prod.mk.injEq] at hval
  have hreach : (machine tenBytes (overwriting ℕ Unit)).Reachable t :=
    Machine.Reachable.of_replay (fun _ _ _ hst => hst) overtaken (.init rfl) ht
  have htotal := (hall t hreach (List.length_eq_zero_iff.mp hval.1)).total
  omega

theorem inv_of_calm_run {cfg : VolumeConfig κ ρ} {store : InMemoryStore κ β τ}
    {s : Run κ β ρ} (h : ((machine cfg store).guarded (Calm cfg store)).Reachable s) :
    Inv cfg s :=
  h.guarded_invariant (fun _ h0 => h0 ▸ inv_fresh cfg) fun _ _ _ hinv hcalm hs =>
    hinv.step hcalm hs

/-- **The residency is exact in every calm run.** -/
theorem calm_run_consistent (cfg : VolumeConfig κ ρ) (store : InMemoryStore κ β τ)
    {s : Run κ β ρ} (h : ((machine cfg store).guarded (Calm cfg store)).Reachable s)
    (hq : s.parked = []) : Consistent cfg s.vol :=
  (inv_of_calm_run h).consistent hq

instance (cfg : VolumeConfig κ ρ) (s : Run κ β ρ) (ks : List κ) :
    Decidable (Weightless cfg s ks) :=
  inferInstanceAs (Decidable (∀ f ∈ s.parked, _ → ∀ k ∈ ks, _ ∧ _))

instance (store : InMemoryStore κ β τ) (v : VolumeService κ β ρ) (p : Put κ τ) :
    Decidable (KeepsSizes store v p) :=
  inferInstanceAs (Decidable (∀ k ∈ p.keys, ∀ n ∈ v.residentByKey.get? k, _))

instance (cfg : VolumeConfig κ ρ) (store : InMemoryStore κ β τ) (v : VolumeService κ β ρ)
    (p : Put κ τ) : Decidable (Refused cfg store v p) :=
  inferInstanceAs (Decidable (cfg.Exceeds _))

instance (cfg : VolumeConfig κ ρ) (store : InMemoryStore κ β τ) (s : Run κ β ρ)
    (p : Put κ τ) : Decidable (Beside cfg store s p) :=
  inferInstanceAs (Decidable ((∀ f ∈ s.parked, _ → ∀ k ∈ p.keys, _) ∧ _ ∧ (_ ∨ _ ∧ _)))

instance (cfg : VolumeConfig κ ρ) (store : InMemoryStore κ β τ) (s : Run κ β ρ) :
    ∀ e, Decidable (Calm cfg store s e)
  | .put _ => inferInstanceAs (Decidable ((_ → _) ∧ ((∀ f ∈ s.parked, _) ∨ _)))
  | .get _ => .isTrue trivial
  | .touch _ => .isTrue trivial
  | .delete _ => inferInstanceAs (Decidable (Weightless _ _ _))
  | .deleteBatch _ => inferInstanceAs (Decidable (Weightless _ _ _))
  | .reset => inferInstanceAs (Decidable (∀ f ∈ s.parked, _))
  | .resume i =>
      inferInstanceAs (Decidable
        (∀ f ∈ s.parked[i]?, ¬ Commits cfg f → ∀ g ∈ s.parked, Commits cfg g →
          ∀ k ∈ f.keys, k ∈ g.keys → k ∈ s.vol.residentByKey))

/-- A put evicts and parks; reads and a rewrite run meanwhile; it resumes. -/
def overtakenCalmly : List (Event ℕ (Stored Unit)) :=
  [.put (putOne 0 3), .put (putOne 2 4), .get [0], .put (putOne 1 6),
    .touch [0], .put (putOne 0 3), .resume 0]

theorem calm_run_overtaken :
    ∃ s : Run ℕ Unit (LeastRecentlyUsed ℕ),
      s.vol.residentBytes = 9 ∧ Consistent tenBytes s.vol := by
  have hrun : (Machine.replay (Machine.guardedNext (Calm tenBytes (overwriting ℕ Unit))
      (next tenBytes (overwriting ℕ Unit))) ⟨tenBytes.fresh, []⟩ overtakenCalmly).map
        (fun t => (t.parked.length, t.vol.residentBytes)) = some (0, 9) := by
    decide +kernel
  obtain ⟨t, ht, hval⟩ := Option.map_eq_some_iff.mp hrun
  simp only [Prod.mk.injEq] at hval
  exact ⟨t, hval.2, calm_run_consistent tenBytes (overwriting ℕ Unit)
    (Machine.Reachable.of_guarded_replay (fun _ _ _ hst => hst) overtakenCalmly
      (.init rfl) ht)
    (List.length_eq_zero_iff.mp hval.1)⟩

end Toso.Store
