/-
  Toso.Lib.Sharing — processor sharing.

  Jobs arrive at a resource of a fixed capacity and share it equally while they
  are present.  The service a job received is the integral of the capacity
  divided by the number of jobs then present; an ideal schedule lets each job
  leave when the service it received is its demand.

  Main results:
    * `service_congr`, `service_eq_add` — the service up to a time looks at the
      jobs up to that time, and grows by the share of a stretch.
    * `service_lt`, `share_le_service` — it grows strictly while its job is
      present, at least by an equal share among all jobs.
    * `Ideal.unique` — a set of jobs has at most one ideal schedule.
-/
import Mathlib.MeasureTheory.Integral.IntervalIntegral.Basic

namespace Lib

open MeasureTheory

/-! ## §1. Schedules. -/

/-- Jobs, when each arrives, and when it leaves if it does. -/
structure Schedule (ι : Type*) where
  jobs : Finset ι
  arrives : ι → ℝ
  leaves : ι → Option ℝ

namespace Schedule

variable {ι : Type*} (S : Schedule ι)

/-- It has arrived before `u`, and not left before it. -/
def Present (i : ι) (u : ℝ) : Prop := S.arrives i < u ∧ ∀ d ∈ S.leaves i, u ≤ d

open Classical in
/-- The number of jobs present. -/
noncomputable def sharing (u : ℝ) : ℕ := (S.jobs.filter fun i => S.Present i u).card

/-- The service a job received since it arrived. -/
noncomputable def service (C : ℝ) (i : ι) (t : ℝ) : ℝ :=
  ∫ u in S.arrives i..t, C / S.sharing u

/-- **An ideal schedule**: each job leaves when the service it received is its
demand. -/
def Ideal (C : ℝ) (demand : ι → ℝ) : Prop :=
  ∀ i ∈ S.jobs, ∀ d ∈ S.leaves i, S.arrives i ≤ d ∧ S.service C i d = demand i

/-! ## §2. The share of a job as a function of time. -/

variable {S}

/-- The jobs present decide the count. -/
theorem sharing_congr {S' : Schedule ι} {u : ℝ}
    (h : ∀ i, i ∈ S'.jobs ∧ S'.Present i u ↔ i ∈ S.jobs ∧ S.Present i u) :
    S'.sharing u = S.sharing u := by
  classical
  unfold sharing
  congr 1
  ext i
  rw [Finset.mem_filter, Finset.mem_filter]
  exact h i

/-- While a job is present it is counted. -/
theorem sharing_pos {i : ι} (hi : i ∈ S.jobs) {u : ℝ} (h : S.Present i u) : 0 < S.sharing u := by
  classical
  exact Finset.card_pos.mpr ⟨i, Finset.mem_filter.mpr ⟨hi, h⟩⟩

theorem measurableSet_present (i : ι) : MeasurableSet {u | S.Present i u} := by
  have hleaves : MeasurableSet {u : ℝ | ∀ d ∈ S.leaves i, u ≤ d} := by
    cases S.leaves i with
    | none => simp
    | some d =>
        have hset : {u : ℝ | ∀ e ∈ some d, u ≤ e} = Set.Iic d := by
          ext u
          simp
        rw [hset]
        exact measurableSet_Iic
  exact measurableSet_Ioi.inter hleaves

theorem measurable_sharing : Measurable fun u => (S.sharing u : ℝ) := by
  classical
  have hsum : (fun u => (S.sharing u : ℝ))
      = fun u => ∑ i ∈ S.jobs, {u | S.Present i u}.indicator (fun _ => (1 : ℝ)) u := by
    funext u
    unfold sharing
    rw [Finset.card_filter]
    push_cast
    apply Finset.sum_congr rfl
    intro i _
    simp [Set.indicator_apply]
  rw [hsum]
  exact Finset.measurable_sum _ fun i _ => measurable_const.indicator (measurableSet_present i)

theorem abs_share_le (C u : ℝ) : ‖C / S.sharing u‖ ≤ |C| := by
  rw [norm_div, Real.norm_eq_abs, Real.norm_natCast]
  rcases Nat.eq_zero_or_pos (S.sharing u) with h | h
  · rw [h]
    simp
  · exact div_le_self (abs_nonneg C) (by exact_mod_cast h)

theorem intervalIntegrable_share (C a b : ℝ) :
    IntervalIntegrable (fun u => C / S.sharing u) volume a b := by
  rw [intervalIntegrable_iff]
  apply IntegrableOn.of_bound (by simp [Set.uIoc])
    (measurable_const.div measurable_sharing).aestronglyMeasurable |C|
  exact Filter.Eventually.of_forall fun u => abs_share_le C u

/-! ## §3. How service accrues. -/

/-- The service up to `t` looks at the jobs up to `t`. -/
theorem service_congr {S' : Schedule ι} {C : ℝ} {i : ι} {t : ℝ}
    (harr : S'.arrives i = S.arrives i) (ht : S.arrives i ≤ t)
    (h : ∀ u ≤ t, S'.sharing u = S.sharing u) : S'.service C i t = S.service C i t := by
  unfold service
  rw [harr]
  apply intervalIntegral.integral_congr
  intro u hu
  rw [Set.uIcc_of_le ht] at hu
  simp only [h u hu.2]

theorem service_add (C : ℝ) (i : ι) (t t' : ℝ) :
    S.service C i t' = S.service C i t + ∫ u in t..t', C / S.sharing u :=
  (intervalIntegral.integral_add_adjacent_intervals (intervalIntegrable_share C _ _)
    (intervalIntegrable_share C _ _)).symm

/-- Over a stretch with `k` jobs present the service grows by the share. -/
theorem service_eq_add {C : ℝ} {i : ι} {t t' : ℝ} {k : ℕ} (htt : t ≤ t')
    (h : ∀ u, t < u → u ≤ t' → S.sharing u = k) :
    S.service C i t' = S.service C i t + (t' - t) * (C / k) := by
  rw [service_add C i t t']
  congr 1
  have hconst : ∫ u in t..t', C / S.sharing u = ∫ _ in t..t', C / k := by
    apply intervalIntegral.integral_congr_ae
    refine Filter.Eventually.of_forall fun u hu => ?_
    rw [Set.uIoc_of_le htt] at hu
    rw [h u hu.1 hu.2]
  rw [hconst, intervalIntegral.integral_const, smul_eq_mul]

/-- The service grows strictly while its job is present. -/
theorem service_lt {C : ℝ} (hC : 0 < C) {i : ι} (hi : i ∈ S.jobs) {t t' : ℝ} (htt : t < t')
    (h : ∀ u, t < u → u ≤ t' → S.Present i u) : S.service C i t < S.service C i t' := by
  have hpos : 0 < ∫ u in t..t', C / S.sharing u := by
    apply intervalIntegral.intervalIntegral_pos_of_pos_on (intervalIntegrable_share C _ _) _ htt
    intro u hu
    have hone := sharing_pos hi (h u hu.1 (le_of_lt hu.2))
    exact div_pos hC (by exact_mod_cast hone)
  rw [service_add C i t t']
  linarith

/-- Of two ideal schedules that agree up to `d`, neither lets a job leave at `d`
that the other keeps. -/
theorem Ideal.not_earlier {S' : Schedule ι} {C : ℝ} (hC : 0 < C) {demand : ι → ℝ}
    (H : S.Ideal C demand) (H' : S'.Ideal C demand) (hjobs : S'.jobs = S.jobs)
    (harr : S'.arrives = S.arrives) {i : ι} (hi : i ∈ S.jobs) {d d' : ℝ}
    (hd : S.leaves i = some d) (hd' : S'.leaves i = some d') (hlt : d < d')
    (hfirst : ∀ j ∈ S.jobs, S.leaves j = S'.leaves j ∨
      (∀ e ∈ S.leaves j, d ≤ e) ∧ ∀ e ∈ S'.leaves j, d ≤ e) : False := by
  classical
  obtain ⟨hle, hserved⟩ := H i hi d hd
  obtain ⟨_, hserved'⟩ := H' i (hjobs ▸ hi) d' hd'
  have hsame : ∀ u ≤ d, S'.sharing u = S.sharing u := by
    intro u hu
    unfold sharing
    rw [hjobs]
    congr 1
    apply Finset.filter_congr
    intro j hj
    unfold Present
    rw [harr]
    rcases hfirst j hj with heq | ⟨hleft, hright⟩
    · rw [heq]
    · exact ⟨fun h => ⟨h.1, fun e he => hu.trans (hleft e he)⟩,
        fun h => ⟨h.1, fun e he => hu.trans (hright e he)⟩⟩
  have hupto : S'.service C i d = demand i := by
    rw [service_congr (congrFun harr i) hle hsame, hserved]
  have hgrows : S'.service C i d < S'.service C i d' := by
    apply service_lt hC (hjobs ▸ hi) hlt
    intro u hu hu'
    refine ⟨?_, fun e he => ?_⟩
    · rw [harr]
      exact lt_of_le_of_lt hle hu
    · rw [hd'] at he
      injection he with he
      exact he ▸ hu'
  rw [hupto, hserved'] at hgrows
  exact lt_irrefl _ hgrows

/-- **At most one ideal schedule** lets every one of a set of jobs leave. -/
theorem Ideal.unique {S' : Schedule ι} {C : ℝ} (hC : 0 < C) {demand : ι → ℝ}
    (H : S.Ideal C demand) (H' : S'.Ideal C demand) (hjobs : S'.jobs = S.jobs)
    (harr : S'.arrives = S.arrives) (hleft : ∀ i ∈ S.jobs, S.leaves i ≠ none)
    (hleft' : ∀ i ∈ S.jobs, S'.leaves i ≠ none) :
    ∀ i ∈ S.jobs, S'.leaves i = S.leaves i := by
  classical
  by_contra hne
  push Not at hne
  obtain ⟨i₀, hi₀, hdiff₀⟩ := hne
  -- the first instant at which the two differ
  obtain ⟨i, hi, hmin⟩ := Finset.exists_min_image
    (S.jobs.filter fun j => S'.leaves j ≠ S.leaves j)
    (fun j => min ((S.leaves j).getD 0) ((S'.leaves j).getD 0))
    ⟨i₀, Finset.mem_filter.mpr ⟨hi₀, hdiff₀⟩⟩
  obtain ⟨hin, hdiff⟩ := Finset.mem_filter.mp hi
  obtain ⟨d, hd⟩ := Option.ne_none_iff_exists'.mp (hleft i hin)
  obtain ⟨d', hd'⟩ := Option.ne_none_iff_exists'.mp (hleft' i hin)
  rw [hd, hd'] at hmin hdiff
  have hfirst : ∀ j ∈ S.jobs, S.leaves j = S'.leaves j ∨
      (∀ e ∈ S.leaves j, min d d' ≤ e) ∧ ∀ e ∈ S'.leaves j, min d d' ≤ e := by
    intro j hj
    by_cases heq : S'.leaves j = S.leaves j
    · exact .inl heq.symm
    · have hle := hmin j (Finset.mem_filter.mpr ⟨hj, heq⟩)
      simp only [Option.getD_some] at hle
      refine .inr ⟨fun e he => hle.trans ?_, fun e he => hle.trans ?_⟩
      · rw [show S.leaves j = some e from he]
        exact min_le_left _ _
      · rw [show S'.leaves j = some e from he]
        exact min_le_right _ _
  rcases lt_trichotomy d d' with hlt | heq | hlt
  · rw [min_eq_left hlt.le] at hfirst
    exact H.not_earlier hC H' hjobs harr hin hd hd' hlt hfirst
  · exact hdiff (by rw [heq])
  · rw [min_eq_right hlt.le] at hfirst
    refine H'.not_earlier hC H hjobs.symm harr.symm (hjobs ▸ hin) hd' hd hlt ?_
    intro j hj
    exact (hfirst j (hjobs ▸ hj)).imp Eq.symm And.symm

end Schedule

end Lib
