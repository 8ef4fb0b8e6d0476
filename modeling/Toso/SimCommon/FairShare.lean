/-
  Toso.SimCommon.FairShare — a progressive channel is processor sharing.

  The channel keeps bytes still to move as of its last update, one timer per
  transfer, and re-rates at every arrival and completion.  The ledger of a run
  writes down when each transfer of the channel starts to move bytes and when
  its future is resolved; read as a schedule, it is the ideal one.

  Main results:
    * `Fluid.advance`, `Flowing.recompute` — a debit turns elapsed time into
      service, a re-rate sets every timer to the end of its own service.
    * `Tracks.step` — one step of the loop keeps channel and ledger together.
    * `progressive_ideal` — over every run, each transfer ends when the service
      it received is its bytes.
-/
import Toso.Lib.Sharing
import Toso.SimCommon.Resources
import Mathlib.Data.Rat.Cast.Order
import Mathlib.Tactic.FieldSimp
import Mathlib.Tactic.Ring

namespace Toso.SimCommon

open Lib

/-! ## §1. The ledger of a channel. -/

/-- A transfer: when its latency elapses, its bytes, and when it completed. -/
structure Job where
  arrives : ℚ
  bytes : ℕ
  leaves : Option ℚ
  deriving DecidableEq

/-- It has arrived before `u` and not completed before it. -/
def Job.Present (job : Job) (u : ℝ) : Prop :=
  (job.arrives : ℝ) < u ∧ ∀ d ∈ job.leaves, u ≤ (d : ℝ)

/-- The transfers of one channel by `seq`, and every resolution of a future. -/
structure Ledger where
  jobs : Dict ℕ Job
  resolved : List ℕ

namespace Ledger

/-- Nothing happened yet. -/
def empty : Ledger := ⟨Dict.empty, []⟩

/-- A transfer is registered. -/
def enlist (l : Ledger) (seq : ℕ) (job : Job) : Ledger :=
  { l with jobs := l.jobs.set seq job }

/-- A transfer completes and its future is resolved. -/
def settle (l : Ledger) (seq : ℕ) (now : ℚ) : Ledger where
  jobs := match l.jobs.get? seq with
    | some job => l.jobs.set seq { job with leaves := some now }
    | none => l.jobs
  resolved := seq :: l.resolved

/-- The ledger as a schedule. -/
noncomputable def schedule (l : Ledger) : Schedule ℕ where
  jobs := l.jobs.keys.toFinset
  arrives i := (((l.jobs.get? i).map Job.arrives).getD 0 : ℚ)
  leaves i := ((l.jobs.get? i).bind Job.leaves).map fun d : ℚ => (d : ℝ)

/-- The bytes of each transfer. -/
noncomputable def demand (l : Ledger) (i : ℕ) : ℝ := (((l.jobs.get? i).map Job.bytes).getD 0 : ℕ)

variable {l : Ledger}

theorem mem_schedule {i : ℕ} : i ∈ l.schedule.jobs ↔ i ∈ l.jobs := List.mem_toFinset

theorem arrives_of {i : ℕ} {job : Job} (h : l.jobs.get? i = some job) :
    l.schedule.arrives i = job.arrives := by
  show ((((l.jobs.get? i).map Job.arrives).getD 0 : ℚ) : ℝ) = _
  rw [h]
  rfl

theorem leaves_of {i : ℕ} {job : Job} (h : l.jobs.get? i = some job) :
    l.schedule.leaves i = job.leaves.map fun d : ℚ => (d : ℝ) := by
  show ((l.jobs.get? i).bind Job.leaves).map (fun d : ℚ => (d : ℝ)) = _
  rw [h]
  rfl

theorem present_iff {i : ℕ} {job : Job} (h : l.jobs.get? i = some job) (u : ℝ) :
    l.schedule.Present i u ↔ job.Present u := by
  unfold Schedule.Present Job.Present
  rw [arrives_of h, leaves_of h]
  cases job.leaves <;> simp

/-- Writing a transfer changes the count by that transfer only. -/
theorem sharing_set {i : ℕ} {job : Job} {u : ℝ} (l : Ledger) (r : List ℕ)
    (h : job.Present u ↔ ∃ job', l.jobs.get? i = some job' ∧ job'.Present u) :
    (Ledger.mk (l.jobs.set i job) r).schedule.sharing u = l.schedule.sharing u := by
  apply Schedule.sharing_congr
  intro j
  rw [mem_schedule, mem_schedule, Dict.mem_set]
  by_cases hj : j = i
  · subst hj
    rw [present_iff (l := ⟨l.jobs.set j job, r⟩) (Dict.get?_set_self _ _ _), h]
    constructor
    · rintro ⟨_, job', hget, hp⟩
      exact ⟨(Dict.mem_iff _ _).mpr ⟨job', hget⟩, (present_iff hget u).mpr hp⟩
    · rintro ⟨hin, hp⟩
      obtain ⟨job', hget⟩ := (Dict.mem_iff _ _).mp hin
      exact ⟨.inl rfl, job', hget, (present_iff hget u).mp hp⟩
  · have hget : (l.jobs.set i job).get? j = l.jobs.get? j := Dict.get?_set_ne _ _ (Ne.symm hj)
    have hsame : (Ledger.mk (l.jobs.set i job) r).schedule.Present j u
        ↔ l.schedule.Present j u := by
      unfold Schedule.Present schedule
      simp only [hget]
    rw [hsame]
    simp [hj]

/-- The service of a transfer up to `now`, when another one is written that is
not present before. -/
theorem service_set {i j : ℕ} {job : Job} {C t now : ℝ} (l : Ledger) (r : List ℕ)
    (hpast : ∀ u ≤ now, job.Present u ↔ ∃ job', l.jobs.get? i = some job' ∧ job'.Present u)
    (hkeep : (Ledger.mk (l.jobs.set i job) r).schedule.arrives j = l.schedule.arrives j)
    (harr : l.schedule.arrives j ≤ t) (ht : t ≤ now) :
    (Ledger.mk (l.jobs.set i job) r).schedule.service C j t = l.schedule.service C j t :=
  Schedule.service_congr hkeep harr fun u hu => l.sharing_set r (hpast u (hu.trans ht))

end Ledger

/-! ## §2. What ties a channel to its ledger. -/

/-- What the ledger holds, up to `now`, of the transfers the channel has let go,
and of those it has not. -/
structure Kept (C : ℚ) (c : ProgressiveChannel) (l : Ledger) (seq : ℕ) (now : ℚ) : Prop where
  capacity : c.capacity = C
  warming : ∀ i t w, c.warming.get? i = some (t, w) → t.seq = i ∧ now ≤ w ∧
    ∃ n : ℕ, 0 < n ∧ t.remaining = n ∧ l.jobs.get? i = some ⟨w, n, none⟩
  apart : ∀ i ∈ c.warming, i ∉ c.active
  begun : ∀ i job, l.jobs.get? i = some job → job.leaves = none →
    i ∈ c.warming ∨ i ∈ c.active
  ended : ∀ i job d, l.jobs.get? i = some job → job.leaves = some d →
    job.arrives ≤ d ∧ d ≤ c.lastUpdate ∧ l.schedule.service C i d = job.bytes
  fresh : ∀ i ∈ l.jobs, i ≤ seq
  once : l.resolved.Nodup
  told : ∀ i, i ∈ l.resolved ↔ ∃ job d, l.jobs.get? i = some job ∧ job.leaves = some d

/-- A channel between two updates: it has a timer for the end of each service at
the present rate. -/
structure Fluid (C : ℚ) (c : ProgressiveChannel) (l : Ledger) (seq : ℕ) (now : ℚ) : Prop
    extends Kept C c l seq now where
  since : c.lastUpdate ≤ now
  rate : c.rate = C / c.active.entries.length
  active : ∀ i t w, c.active.get? i = some (t, w) → t.seq = i ∧ now ≤ w ∧ 0 ≤ t.remaining ∧
    w = c.lastUpdate + t.remaining / c.rate ∧
    ∃ (a : ℚ) (n : ℕ), l.jobs.get? i = some ⟨a, n, none⟩ ∧ a ≤ c.lastUpdate ∧
      l.schedule.service C i c.lastUpdate = n - (t.remaining : ℝ)

/-- A channel brought up to date, its timers still to be set. -/
structure Flowing (C : ℚ) (c : ProgressiveChannel) (l : Ledger) (seq : ℕ) (now : ℚ) : Prop
    extends Kept C c l seq now where
  updated : c.lastUpdate = now
  active : ∀ i t w, c.active.get? i = some (t, w) → t.seq = i ∧ 0 ≤ t.remaining ∧
    ∃ (a : ℚ) (n : ℕ), l.jobs.get? i = some ⟨a, n, none⟩ ∧ a ≤ now ∧
      l.schedule.service C i now = n - (t.remaining : ℝ)

namespace Fluid

variable {C : ℚ} {c : ProgressiveChannel} {l : Ledger} {seq : ℕ} {now : ℚ}

/-- Since the last update exactly the active transfers are present. -/
theorem sharing (F : Fluid C c l seq now) {u : ℝ} (hu : (c.lastUpdate : ℝ) < u)
    (hu' : u ≤ now) : l.schedule.sharing u = c.active.entries.length := by
  classical
  have hset : l.schedule.jobs.filter (fun i => l.schedule.Present i u)
      = c.active.keys.toFinset := by
    ext i
    rw [Finset.mem_filter, Ledger.mem_schedule, List.mem_toFinset, ← Dict.mem_def]
    constructor
    · rintro ⟨hin, hp⟩
      obtain ⟨job, hjob⟩ := (Dict.mem_iff _ _).mp hin
      rw [Ledger.present_iff hjob] at hp
      cases hleaves : job.leaves with
      | none =>
          rcases F.begun i job hjob hleaves with hw | ha
          · -- a transfer that warms up has not arrived yet
            obtain ⟨⟨t, w⟩, hget⟩ := (Dict.mem_iff _ _).mp hw
            obtain ⟨_, hnow, n, _, _, hjob'⟩ := F.warming i t w hget
            rw [hjob] at hjob'
            injection hjob' with hjob'
            have harr : job.arrives = w := by rw [hjob']
            have hlt := hp.1
            rw [harr] at hlt
            have hle : (now : ℝ) ≤ w := by exact_mod_cast hnow
            exact absurd (hlt.trans_le hu') (not_lt.mpr hle)
          · exact ha
      | some d =>
          obtain ⟨_, hd, _⟩ := F.ended i job d hjob hleaves
          have hle : (d : ℝ) ≤ c.lastUpdate := by exact_mod_cast hd
          have hud := hp.2 d hleaves
          exact absurd hu (not_lt.mpr (hud.trans hle))
    · intro ha
      obtain ⟨⟨t, w⟩, hget⟩ := (Dict.mem_iff _ _).mp ha
      obtain ⟨_, _, _, _, a, n, hjob, hle, _⟩ := F.active i t w hget
      refine ⟨(Dict.mem_iff _ _).mpr ⟨_, hjob⟩, (Ledger.present_iff hjob u).mpr ⟨?_, ?_⟩⟩
      · have hle' : (a : ℝ) ≤ c.lastUpdate := by exact_mod_cast hle
        exact hle'.trans_lt hu
      · intro d hd
        cases hd
  unfold Schedule.sharing
  have hcard : (c.active.keys.toFinset).card = c.active.entries.length := by
    rw [List.toFinset_card_of_nodup (show c.active.keys.Nodup from c.active.nodup)]
    exact List.length_map _
  rw [← hcard, ← hset]

end Fluid

/-! ## §3. The updates of a channel. -/

namespace ProgressiveChannel

/-- The bytes left at `now`, as `_advance` computes them. -/
def debited (c : ProgressiveChannel) (now remaining : ℚ) : ℚ :=
  if 0 < now - c.lastUpdate then max 0 (remaining - (now - c.lastUpdate) * c.rate) else remaining

theorem get?_advance (c : ProgressiveChannel) (now : ℚ) (i : ℕ) :
    (c.advance now).active.get? i = (c.active.get? i).map fun e =>
      ({ e.1 with remaining := c.debited now e.1.remaining }, e.2) := by
  unfold advance debited
  by_cases h : 0 < now - c.lastUpdate
  · simp only [if_pos h, Dict.get?_mapValues]
  · simp only [if_neg h]
    cases c.active.get? i <;> rfl

theorem mem_advance (c : ProgressiveChannel) (now : ℚ) (i : ℕ) :
    i ∈ (c.advance now).active ↔ i ∈ c.active := by
  rw [Dict.mem_iff, Dict.mem_iff, get?_advance]
  cases c.active.get? i <;> simp

theorem get?_recompute (c : ProgressiveChannel) (now : ℚ) (i : ℕ) :
    (c.recompute now).active.get? i = (c.active.get? i).map fun e =>
      (e.1, now + e.1.remaining / (c.recompute now).rate) :=
  Dict.get?_mapValues _ _ _

theorem mem_recompute (c : ProgressiveChannel) (now : ℚ) (i : ℕ) :
    i ∈ (c.recompute now).active ↔ i ∈ c.active := by
  rw [Dict.mem_iff, Dict.mem_iff, get?_recompute]
  cases c.active.get? i <;> simp

/-- The equal share, of none as of some. -/
theorem rate_recompute (c : ProgressiveChannel) (now : ℚ) :
    (c.recompute now).rate = c.capacity / (c.recompute now).active.entries.length := by
  have hlen : (c.recompute now).active.entries.length = c.active.entries.length :=
    List.length_map _
  rw [hlen]
  show (if c.active.entries.length = 0 then 0 else c.capacity / c.active.entries.length) = _
  split
  · rename_i h
    rw [h]
    simp
  · rfl

end ProgressiveChannel

section Updates

variable {C : ℚ} {c : ProgressiveChannel} {l : Ledger} {seq : ℕ} {now : ℚ}

/-- No timer is late, so no debit runs below zero. -/
theorem Fluid.debit (F : Fluid C c l seq now) (hC : 0 < C) {i : ℕ} {t : Transfer} {w : ℚ}
    (h : c.active.get? i = some (t, w)) :
    0 ≤ t.remaining - (now - c.lastUpdate) * c.rate ∧
      c.debited now t.remaining = t.remaining - (now - c.lastUpdate) * c.rate := by
  obtain ⟨_, hnow, _, hw, _⟩ := F.active i t w h
  have hlen : (0 : ℚ) < c.active.entries.length := by
    have hin := Assoc.mem_of_find i (t, w) c.active.entries h
    exact_mod_cast List.length_pos_of_mem hin
  have hrate : 0 < c.rate := by
    rw [F.rate]
    exact div_pos hC hlen
  have hle : (now - c.lastUpdate) * c.rate ≤ t.remaining := by
    have hspan : now - c.lastUpdate ≤ t.remaining / c.rate := by
      rw [hw] at hnow
      linarith
    calc (now - c.lastUpdate) * c.rate ≤ t.remaining / c.rate * c.rate :=
          mul_le_mul_of_nonneg_right hspan hrate.le
      _ = t.remaining := div_mul_cancel₀ _ hrate.ne'
  refine ⟨by linarith, ?_⟩
  unfold ProgressiveChannel.debited
  split
  · exact max_eq_right (by linarith)
  · rename_i hzero
    have hsame : now - c.lastUpdate = 0 := le_antisymm (not_lt.mp hzero) (by linarith [F.since])
    rw [hsame]
    ring

/-- **A debit turns elapsed time into service.** -/
theorem Fluid.advance (F : Fluid C c l seq now) (hC : 0 < C) :
    Flowing C (c.advance now) l seq now where
  capacity := F.capacity
  warming := F.warming
  apart i hi := by
    rw [c.mem_advance]
    exact F.apart i hi
  begun i job hjob hleaves := by
    rw [c.mem_advance]
    exact F.begun i job hjob hleaves
  ended i job d hjob hleaves := by
    obtain ⟨harr, hd, hserved⟩ := F.ended i job d hjob hleaves
    exact ⟨harr, hd.trans F.since, hserved⟩
  fresh := F.fresh
  once := F.once
  told := F.told
  updated := rfl
  active i t' w h := by
    rw [c.get?_advance] at h
    obtain ⟨⟨t, w'⟩, hget, heq⟩ := Option.map_eq_some_iff.mp h
    obtain ⟨hseq, _, _, _, a, n, hjob, harr, hserved⟩ := F.active i t w' hget
    obtain ⟨hpos, hdebit⟩ := F.debit hC hget
    injection heq with heq
    subst heq
    refine ⟨hseq, hdebit ▸ hpos, a, n, hjob, harr.trans F.since, ?_⟩
    have hle : (c.lastUpdate : ℝ) ≤ now := by exact_mod_cast F.since
    rw [Schedule.service_eq_add hle fun u hu hu' => F.sharing hu hu', hserved]
    show _ = (n : ℝ) - ((c.debited now t.remaining : ℚ) : ℝ)
    rw [hdebit, F.rate]
    push_cast
    ring

/-- **A re-rate sets every timer** to the end of its own service. -/
theorem Flowing.recompute (F : Flowing C c l seq now) (hC : 0 < C) :
    Fluid C (c.recompute now) l seq now where
  capacity := F.capacity
  warming := F.warming
  apart i hi := by
    rw [c.mem_recompute]
    exact F.apart i hi
  begun i job hjob hleaves := by
    rw [c.mem_recompute]
    exact F.begun i job hjob hleaves
  ended := F.ended
  fresh := F.fresh
  once := F.once
  told := F.told
  since := le_of_eq F.updated
  rate := by
    rw [c.rate_recompute, F.capacity]
  active i t w h := by
    rw [c.get?_recompute] at h
    obtain ⟨⟨t', w'⟩, hget, heq⟩ := Option.map_eq_some_iff.mp h
    obtain ⟨hseq, hpos, a, n, hjob, harr, hserved⟩ := F.active i t' w' hget
    injection heq with heq hw
    subst heq
    have hrate : 0 ≤ (c.recompute now).rate := by
      rw [c.rate_recompute, F.capacity]
      exact div_nonneg hC.le (Nat.cast_nonneg _)
    have hlast : (c.recompute now).lastUpdate = now := F.updated
    refine ⟨hseq, ?_, hpos, ?_, a, n, hjob, ?_, ?_⟩
    · rw [← hw]
      have := div_nonneg hpos hrate
      linarith
    · rw [hlast, ← hw]
    · rw [hlast]
      exact harr
    · rw [hlast]
      exact hserved

/-- A transfer whose latency has elapsed starts to move bytes. -/
theorem Flowing.enter (F : Flowing C c l seq now) {i : ℕ} {t : Transfer}
    (h : c.warming.get? i = some (t, now)) :
    Flowing C { c with warming := c.warming.erase i, active := c.active.set i (t, now) } l seq
      now where
  capacity := F.capacity
  warming j t' w' hj := by
    have hj' : (c.warming.erase i).get? j = some (t', w') := hj
    rw [Dict.get?_erase] at hj'
    split at hj'
    · cases hj'
    · exact F.warming j t' w' hj'
  apart j hj := by
    obtain ⟨hne, hin⟩ := (Dict.mem_erase _ _ _).mp hj
    intro hset
    rcases (Dict.mem_set _ _ _ _).mp hset with heq | hact
    · exact hne heq
    · exact F.apart j hin hact
  begun j job hjob hleaves := by
    by_cases hj : j = i
    · exact .inr ((Dict.mem_set _ _ _ _).mpr (.inl hj))
    · rcases F.begun j job hjob hleaves with hw | ha
      · exact .inl ((Dict.mem_erase _ _ _).mpr ⟨hj, hw⟩)
      · exact .inr ((Dict.mem_set _ _ _ _).mpr (.inr ha))
  ended := F.ended
  fresh := F.fresh
  once := F.once
  told := F.told
  updated := F.updated
  active j t' w' hj := by
    rcases Dict.get?_set_cases hj with ⟨rfl, heq⟩ | ⟨_, hold⟩
    · obtain ⟨hseq, _, n, _, hbytes, hjob⟩ := F.warming _ t now h
      injection heq with heq _
      subst heq
      refine ⟨hseq, by rw [hbytes]; exact Nat.cast_nonneg _, now, n, hjob, le_refl _, ?_⟩
      -- it received nothing yet, and has all its bytes left
      unfold Schedule.service
      rw [Ledger.arrives_of hjob, intervalIntegral.integral_same, hbytes]
      push_cast
      ring
    · exact F.active j t' w' hold

/-- Writing the completion of a transfer leaves every service up to it. -/
theorem service_settle {i : ℕ} {a : ℚ} {n : ℕ}
    (hjob : l.jobs.get? i = some ⟨a, n, none⟩) {j : ℕ} {job : Job}
    (hj : l.jobs.get? j = some job) {t : ℚ} (harr : job.arrives ≤ t) (ht : t ≤ now) :
    (l.settle i now).schedule.service C j t = l.schedule.service C j t := by
  have hsettle : l.settle i now = ⟨l.jobs.set i ⟨a, n, some now⟩, i :: l.resolved⟩ := by
    unfold Ledger.settle
    rw [hjob]
  rw [hsettle]
  refine Ledger.service_set l _ (fun u (hu : u ≤ (now : ℝ)) => ?_) ?_ ?_ (by exact_mod_cast ht)
  · rw [hjob]
    constructor
    · rintro ⟨hlt, _⟩
      exact ⟨_, rfl, hlt, fun d hd => by cases hd⟩
    · rintro ⟨job', heq, hlt, _⟩
      injection heq with heq
      subst heq
      exact ⟨hlt, fun d hd => by cases hd; exact hu⟩
  · -- the time it arrived is not rewritten
    by_cases hji : j = i
    · subst hji
      have hset : (Ledger.mk (l.jobs.set j ⟨a, n, some now⟩) (j :: l.resolved)).jobs.get? j
          = some ⟨a, n, some now⟩ := Dict.get?_set_self _ _ _
      rw [Ledger.arrives_of hset, Ledger.arrives_of hjob]
    · have hother : (l.jobs.set i ⟨a, n, some now⟩).get? j = some job :=
        (Dict.get?_set_ne _ _ (Ne.symm hji)).trans hj
      rw [Ledger.arrives_of hj]
      exact Ledger.arrives_of (l := ⟨_, _⟩) hother
  · rw [Ledger.arrives_of hj]
    exact_mod_cast harr

/-- **A transfer with no bytes left completes**, once. -/
theorem Flowing.complete (F : Flowing C c l seq now) {i : ℕ} {t : Transfer} {w : ℚ}
    (h : c.active.get? i = some (t, w)) (hzero : t.remaining = 0) :
    Flowing C { c with active := c.active.erase i } (l.settle i now) seq now := by
  obtain ⟨_, _, a, n, hjob, harr, hserved⟩ := F.active i t w h
  have hsettle : l.settle i now = ⟨l.jobs.set i ⟨a, n, some now⟩, i :: l.resolved⟩ := by
    unfold Ledger.settle
    rw [hjob]
  -- the completion is written at `i` only
  have hother : ∀ j, j ≠ i → (l.settle i now).jobs.get? j = l.jobs.get? j := by
    intro j hj
    rw [hsettle]
    exact Dict.get?_set_ne _ _ (Ne.symm hj)
  have hself : (l.settle i now).jobs.get? i = some ⟨a, n, some now⟩ := by
    rw [hsettle]
    exact Dict.get?_set_self _ _ _
  have hkept : ∀ {j job u}, l.jobs.get? j = some job → job.arrives ≤ u → u ≤ now →
      (l.settle i now).schedule.service C j (u : ℚ) = l.schedule.service C j u :=
    fun hj hle hu => service_settle hjob hj hle hu
  have hopen : i ∉ l.resolved := by
    intro hin
    obtain ⟨job, d, hget, hleaves⟩ := (F.told i).mp hin
    rw [hjob] at hget
    injection hget with hget
    subst hget
    cases hleaves
  refine ⟨⟨F.capacity, ?warming, ?apart, ?begun, ?ended, ?fresh, ?once, ?told⟩, F.updated, ?active⟩
  case warming =>
    intro j t' w' hj
    obtain ⟨hseq, hnow, n', hpos, hbytes, hget⟩ := F.warming j t' w' hj
    have hne : j ≠ i := by
      rintro rfl
      exact F.apart j (Dict.mem_of_get? hj) (Dict.mem_of_get? h)
    exact ⟨hseq, hnow, n', hpos, hbytes, (hother j hne).trans hget⟩
  case apart =>
    intro j hj hin
    exact F.apart j hj ((Dict.mem_erase _ _ _).mp hin).2
  case begun =>
    intro j job hget hleaves
    have hne : j ≠ i := by
      rintro rfl
      rw [hself] at hget
      injection hget with hget
      subst hget
      cases hleaves
    rw [hother j hne] at hget
    exact (F.begun j job hget hleaves).imp id fun hin => (Dict.mem_erase _ _ _).mpr ⟨hne, hin⟩
  case ended =>
    intro j job d hget hleaves
    by_cases hj : j = i
    · subst hj
      rw [hself] at hget
      injection hget with hget
      subst hget
      injection hleaves with hleaves
      subst hleaves
      refine ⟨harr, le_of_eq F.updated.symm, ?_⟩
      -- it had no bytes left, so the service is all of them
      rw [hkept hjob harr (le_refl _), hserved, hzero]
      push_cast
      ring
    · rw [hother j hj] at hget
      obtain ⟨harr', hd, hserved'⟩ := F.ended j job d hget hleaves
      exact ⟨harr', hd, (hkept hget harr' (hd.trans (le_of_eq F.updated))).trans hserved'⟩
  case fresh =>
    intro j hj
    by_cases hji : j = i
    · exact hji ▸ F.fresh i (Dict.mem_of_get? hjob)
    · refine F.fresh j ?_
      obtain ⟨job, hget⟩ := (Dict.mem_iff _ _).mp hj
      exact (Dict.mem_iff _ _).mpr ⟨job, (hother j hji).symm.trans hget⟩
  case once =>
    rw [hsettle]
    exact List.nodup_cons.mpr ⟨hopen, F.once⟩
  case told =>
    intro j
    have hmem : j ∈ (l.settle i now).resolved ↔ j = i ∨ j ∈ l.resolved := by
      rw [hsettle]
      exact List.mem_cons
    rw [hmem]
    by_cases hj : j = i
    · subst hj
      exact ⟨fun _ => ⟨_, now, hself, rfl⟩, fun _ => .inl rfl⟩
    · rw [hother j hj, F.told j]
      simp [hj]
  case active =>
    intro j t' w' hj
    have hj' : (c.active.erase i).get? j = some (t', w') := hj
    rw [Dict.get?_erase] at hj'
    split at hj'
    · cases hj'
    · rename_i hne
      obtain ⟨hseq, hpos, a', n', hget, harr', hserved'⟩ := F.active j t' w' hj'
      exact ⟨hseq, hpos, a', n', (hother j (Ne.symm hne)).trans hget, harr',
        (hkept hget harr' (le_refl _)).trans hserved'⟩

/-- **A transfer is registered**: nothing is re-rated until its latency has
elapsed. -/
theorem Fluid.register (F : Fluid C c l seq now) {t : Transfer} {n : ℕ} (hseq : t.seq = seq + 1)
    (hlatency : 0 ≤ t.latency) (hn : 0 < n) (hbytes : t.remaining = n) :
    Fluid C (c.register t now) (l.enlist (seq + 1) ⟨now + t.latency, n, none⟩) (seq + 1) now := by
  -- its number is fresh
  have hnew : l.jobs.get? (seq + 1) = none := by
    rw [Dict.get?_eq_none_iff]
    intro hin
    have := F.fresh _ hin
    omega
  have hother : ∀ j job, l.jobs.get? j = some job →
      (l.enlist (seq + 1) ⟨now + t.latency, n, none⟩).jobs.get? j = some job := by
    intro j job hget
    have hne : seq + 1 ≠ j := by
      rintro rfl
      rw [hnew] at hget
      cases hget
    exact (Dict.get?_set_ne _ _ hne).trans hget
  have hback : ∀ j job, (l.enlist (seq + 1) ⟨now + t.latency, n, none⟩).jobs.get? j = some job →
      (j = seq + 1 ∧ job = ⟨now + t.latency, n, none⟩) ∨ l.jobs.get? j = some job := by
    intro j job hget
    rcases Dict.get?_set_cases hget with ⟨heq, hjob⟩ | ⟨_, hold⟩
    · exact .inl ⟨heq.symm, hjob⟩
    · exact .inr hold
  -- a transfer that only arrives later changes no service up to now
  have hkept : ∀ {j job u}, l.jobs.get? j = some job → job.arrives ≤ u → u ≤ now →
      (l.enlist (seq + 1) ⟨now + t.latency, n, none⟩).schedule.service C j (u : ℚ)
        = l.schedule.service C j u := by
    intro j job u hget hle hu
    refine Ledger.service_set l _ (fun v (hv : v ≤ (now : ℝ)) => ?_) ?_ ?_ (by exact_mod_cast hu)
    · -- it arrives at the earliest now
      rw [hnew]
      constructor
      · rintro ⟨hlt, _⟩
        have hlt' : ((now + t.latency : ℚ) : ℝ) < v := hlt
        have hle' : (now : ℝ) ≤ ((now + t.latency : ℚ) : ℝ) := by
          exact_mod_cast le_add_of_nonneg_right hlatency
        linarith
      · rintro ⟨_, h, _⟩
        cases h
    · rw [Ledger.arrives_of hget, Ledger.arrives_of (l := ⟨_, _⟩) (hother j job hget)]
    · rw [Ledger.arrives_of hget]
      exact_mod_cast hle
  refine ⟨⟨F.capacity, ?warming, ?apart, ?begun, ?ended, ?fresh, F.once, ?told⟩, F.since, F.rate,
    ?active⟩
  case warming =>
    intro j t' w' hj
    rcases Dict.get?_set_cases hj with ⟨heq, hval⟩ | ⟨_, hold⟩
    · injection hval with ht hw
      subst ht hw heq
      refine ⟨rfl, by linarith, n, hn, hbytes, ?_⟩
      rw [hseq]
      exact Dict.get?_set_self _ _ _
    · obtain ⟨hseq', hnow, n', hpos, hbytes', hget⟩ := F.warming j t' w' hold
      exact ⟨hseq', hnow, n', hpos, hbytes', hother j _ hget⟩
  case apart =>
    intro j hj hin
    rcases (Dict.mem_set _ _ _ _).mp hj with heq | hold
    · obtain ⟨⟨t', w'⟩, hget⟩ := (Dict.mem_iff _ _).mp hin
      obtain ⟨_, _, _, _, a, n', hjob, _⟩ := F.active j t' w' hget
      rw [heq, hseq, hnew] at hjob
      cases hjob
    · exact F.apart j hold hin
  case begun =>
    intro j job hget hleaves
    rcases hback j job hget with ⟨heq, _⟩ | hold
    · exact .inl ((Dict.mem_set _ _ _ _).mpr (.inl (heq.trans hseq.symm)))
    · exact (F.begun j job hold hleaves).imp (fun hin => (Dict.mem_set _ _ _ _).mpr (.inr hin)) id
  case ended =>
    intro j job d hget hleaves
    rcases hback j job hget with ⟨_, heq⟩ | hold
    · subst heq
      cases hleaves
    · obtain ⟨harr, hd, hserved⟩ := F.ended j job d hold hleaves
      exact ⟨harr, hd, (hkept hold harr (hd.trans F.since)).trans hserved⟩
  case fresh =>
    intro j hj
    obtain ⟨job, hget⟩ := (Dict.mem_iff _ _).mp hj
    rcases hback j job hget with ⟨heq, _⟩ | hold
    · omega
    · have := F.fresh j (Dict.mem_of_get? hold)
      omega
  case told =>
    intro j
    show j ∈ l.resolved ↔ _
    rw [F.told j]
    constructor
    · rintro ⟨job, d, hget, hleaves⟩
      exact ⟨job, d, hother j job hget, hleaves⟩
    · rintro ⟨job, d, hget, hleaves⟩
      rcases hback j job hget with ⟨_, heq⟩ | hold
      · subst heq
        cases hleaves
      · exact ⟨job, d, hold, hleaves⟩
  case active =>
    intro j t' w' hj
    obtain ⟨hseq', hnow, hpos, hw, a, n', hget, harr, hserved⟩ := F.active j t' w' hj
    exact ⟨hseq', hnow, hpos, hw, a, n', hother j _ hget, harr,
      (hkept hget harr F.since).trans hserved⟩

/-- A channel nothing was registered on. -/
theorem fluid_create (C now : ℚ) (seq : ℕ) :
    Fluid C ⟨C, Dict.empty, Dict.empty, 0, now⟩ Ledger.empty seq now where
  capacity := rfl
  warming i t w h := by cases h
  apart i h := absurd h (Dict.not_mem_empty i)
  begun i job h := by cases h
  ended i job d h := by cases h
  fresh i h := absurd h (Dict.not_mem_empty i)
  once := List.nodup_nil
  told i := by simp [Ledger.empty]
  since := le_refl _
  rate := by simp [Dict.empty]
  active i t w h := by cases h

/-- The clock moves, and passes no timer. -/
theorem Fluid.tick (F : Fluid C c l seq now) {later : ℚ} (hle : now ≤ later)
    (hallows : ∀ w ∈ (Channel.progressive c).timers, later ≤ w) : Fluid C c l seq later where
  capacity := F.capacity
  warming i t w h := by
    obtain ⟨hseq, _, hrest⟩ := F.warming i t w h
    refine ⟨hseq, hallows w (List.mem_append_left _ ?_), hrest⟩
    exact List.mem_map.mpr ⟨(t, w), (Dict.mem_values_iff _ _).mpr ⟨i, h⟩, rfl⟩
  apart := F.apart
  begun := F.begun
  ended := F.ended
  fresh := F.fresh
  once := F.once
  told := F.told
  since := F.since.trans hle
  rate := F.rate
  active i t w h := by
    obtain ⟨hseq, _, hrest⟩ := F.active i t w h
    refine ⟨hseq, hallows w (List.mem_append_right _ ?_), hrest⟩
    exact List.mem_map.mpr ⟨(t, w), (Dict.mem_values_iff _ _).mpr ⟨i, h⟩, rfl⟩

/-- Other channels use numbers too. -/
theorem Fluid.mono (F : Fluid C c l seq now) {seq' : ℕ} (h : seq ≤ seq') :
    Fluid C c l seq' now :=
  { F with fresh := fun i hi => (F.fresh i hi).trans h }

/-- **`_enter` at its timer.** -/
theorem Fluid.entered (F : Fluid C c l seq now) (hC : 0 < C) {i : ℕ} {t : Transfer} {w : ℚ}
    (h : c.warming.get? i = some (t, w)) (hdue : w ≤ now) :
    Fluid C (c.enter i t now) l seq now := by
  obtain ⟨hseq, hnow, _⟩ := F.warming i t w h
  have hw : w = now := le_antisymm hdue hnow
  subst hw
  have hflow := ((F.advance hC).enter (i := i) h).recompute hC
  rw [← hseq] at hflow
  have henter : c.enter i t w = ProgressiveChannel.recompute
      { c.advance w with
        warming := (c.advance w).warming.erase t.seq
        active := (c.advance w).active.set t.seq (t, w) } w := by
    rw [← hseq]
    rfl
  rw [henter]
  exact hflow

/-- **`_complete` at its timer**: no bytes are left. -/
theorem Fluid.completed (F : Fluid C c l seq now) (hC : 0 < C) {i : ℕ} {t : Transfer} {w : ℚ}
    (h : c.active.get? i = some (t, w)) (hdue : w ≤ now) :
    Fluid C (c.complete i now) (l.settle i now) seq now := by
  obtain ⟨_, hnow, _, hw, _⟩ := F.active i t w h
  obtain ⟨_, hdebit⟩ := F.debit hC h
  have hzero : c.debited now t.remaining = 0 := by
    have hlen : (0 : ℚ) < c.active.entries.length := by
      have hin := Assoc.mem_of_find i (t, w) c.active.entries h
      exact_mod_cast List.length_pos_of_mem hin
    have hrate : c.rate ≠ 0 := by
      rw [F.rate]
      exact (div_pos hC hlen).ne'
    have hspan : now - c.lastUpdate = t.remaining / c.rate := by
      have heq : now = w := le_antisymm hnow hdue
      rw [heq, hw]
      ring
    rw [hdebit, hspan, div_mul_cancel₀ _ hrate]
    ring
  have hadv : (c.advance now).active.get? i
      = some ({ t with remaining := c.debited now t.remaining }, w) := by
    rw [c.get?_advance, h]
    rfl
  exact ((F.advance hC).complete hadv hzero).recompute hC

end Updates

/-! ## §4. A run, and its ledger. -/

variable {χ : Type*} [DecidableEq χ]

/-- What a step of the loop writes in the ledger of the channel `key`. -/
def Ledger.note (key : χ) (s : Loop χ) (l : Ledger) : LoopEvent χ → Ledger
  | .run id =>
      match (s.tasks.get? id).map Task.left with
      | some (.transfer k _ latency nbytes :: _) =>
          if k = key then l.enlist (s.seq + 1) ⟨s.clock + latency, nbytes, none⟩ else l
      | _ => l
  | .complete k seq => if k = key then l.settle seq s.clock else l
  | _ => l

/-- A loop with the ledger of one channel. -/
structure Traced (χ : Type*) where
  loop : Loop χ
  ledger : Ledger

/-- One step of the loop in progressive mode, written down. -/
def tracedNext (key : χ) (s : Traced χ) (e : LoopEvent χ) : Option (Traced χ) :=
  (s.loop.next .progressive e).map fun t => ⟨t, s.ledger.note key s.loop e⟩

/-- The runs of the loop with the ledger of the channel `key`. -/
def tracedMachine (key : χ) : Machine (Traced χ) (LoopEvent χ) :=
  Machine.ofPartial (fun s => s = ⟨Loop.initial, Ledger.empty⟩) (tracedNext key)

/-- A transfer on the channel `key` is one of its capacity, its latency is not
negative and it has bytes to move. -/
def Shares (key : χ) (C : ℚ) (s : Traced χ) : LoopEvent χ → Prop
  | .run id =>
      match (s.loop.tasks.get? id).map Task.left with
      | some (.transfer k capacity latency nbytes :: _) =>
          k = key → capacity = C ∧ 0 ≤ latency ∧ 0 < nbytes
      | _ => True
  | _ => True

instance (key : χ) (C : ℚ) (s : Traced χ) (e : LoopEvent χ) : Decidable (Shares key C s e) := by
  unfold Shares
  split
  · split
    · infer_instance
    · exact instDecidableTrue
  · exact instDecidableTrue

/-- The channel and its ledger, or no channel yet. -/
def Tracks (key : χ) (C : ℚ) (s : Traced χ) : Prop :=
  (s.loop.channels.get? key = none ∧ s.ledger = Ledger.empty) ∨
  ∃ c, s.loop.channels.get? key = some (.progressive c) ∧
    Fluid C c s.ledger s.loop.seq s.loop.clock

namespace Tracks

variable {key : χ} {C : ℚ} {s : Loop χ} {l : Ledger}

/-- What a step that leaves the channel alone keeps. -/
theorem frame (T : Tracks key C ⟨s, l⟩) {t : Loop χ}
    (hchannel : t.channels.get? key = s.channels.get? key) (hclock : t.clock = s.clock)
    (hseq : s.seq ≤ t.seq) : Tracks key C ⟨t, l⟩ := by
  rcases T with ⟨hnone, hl⟩ | ⟨c, hget, F⟩
  · exact .inl ⟨hchannel.trans hnone, hl⟩
  · refine .inr ⟨c, hchannel.trans hget, ?_⟩
    show Fluid C c l t.seq t.clock
    rw [hclock]
    exact F.mono hseq

/-- A transfer on the channel is registered, on the channel it finds or makes. -/
theorem transfer (T : Tracks key C ⟨s, l⟩) (id : ℕ) {latency : ℚ} {nbytes : ℕ}
    (hlatency : 0 ≤ latency) (hn : 0 < nbytes) :
    Tracks key C ⟨s.transfer .progressive id key C latency nbytes,
      l.enlist (s.seq + 1) ⟨s.clock + latency, nbytes, none⟩⟩ := by
  rcases T with ⟨hnone, hl⟩ | ⟨c, hget, F⟩
  · have hl' : l = Ledger.empty := hl
    have hnone' : s.channels.get? key = none := hnone
    subst hl'
    refine .inr ⟨_, ?_, (fluid_create C s.clock s.seq).register
      (t := ⟨s.seq + 1, nbytes, latency, C, id⟩) rfl hlatency hn rfl⟩
    show (s.channels.set key _).get? key = _
    rw [Dict.get?_set_self, hnone']
    rfl
  · have hget' : s.channels.get? key = some (.progressive c) := hget
    refine .inr ⟨_, ?_, F.register (t := ⟨s.seq + 1, nbytes, latency, C, id⟩) rfl hlatency hn rfl⟩
    show (s.channels.set key _).get? key = _
    rw [Dict.get?_set_self, hget']
    rfl

/-- A ready task runs. -/
theorem run (T : Tracks key C ⟨s, l⟩) {id : ℕ} {task : Task χ}
    (htask : s.tasks.get? id = some task) (hok : Shares key C ⟨s, l⟩ (.run id)) :
    Tracks key C ⟨s.runTask .progressive id task, l.note key s (.run id)⟩ := by
  simp only [Loop.runTask, Ledger.note, htask, Option.map_some]
  cases hleft : task.left with
  | nil => exact T.frame rfl rfl (le_refl _)
  | cons charge rest =>
      cases charge with
      | sleep dt => exact T.frame rfl rfl (le_refl _)
      | transfer k capacity latency nbytes =>
          by_cases hk : k = key
          · subst hk
            simp only [Shares, htask, Option.map_some, hleft] at hok
            obtain ⟨rfl, hlatency, hn⟩ := hok trivial
            simp only
            exact (T.transfer id hlatency hn).frame rfl rfl (le_refl _)
          · simp only [if_neg hk]
            refine T.frame ?_ rfl (Nat.le_succ _)
            exact Dict.get?_set_ne _ _ hk

/-- **One step of the loop keeps channel and ledger together.** -/
theorem step (hC : 0 < C) {s t : Traced χ} (T : Tracks key C s) {e : LoopEvent χ}
    (hok : Shares key C s e) (hnext : tracedNext key s e = some t) : Tracks key C t := by
  obtain ⟨s, l⟩ := s
  obtain ⟨t', hloop, rfl⟩ := Option.map_eq_some_iff.mp hnext
  have hprogressive : ∀ c, s.channels.get? key ≠ some (.serialize c) := by
    intro c hget
    rcases T with ⟨hnone, _⟩ | ⟨c', hget', _⟩
    · exact absurd (hget.symm.trans hnone) (by simp)
    · exact absurd (hget.symm.trans hget') (by simp)
  have hother : ∀ {k : χ} {c : Channel}, k ≠ key →
      (s.setChannel k c).channels.get? key = s.channels.get? key :=
    fun hk => Dict.get?_set_ne _ _ hk
  -- the channel of this key is the one its ledger is about
  have hfluid : ∀ {c : ProgressiveChannel}, s.channels.get? key = some (.progressive c) →
      Fluid C c l s.seq s.clock := by
    intro c hget
    rcases T with ⟨hnone, _⟩ | ⟨c', hget', F⟩
    · exact absurd (hget.symm.trans hnone) (by simp)
    · cases hget.symm.trans hget'
      exact F
  cases Loop.moves_of_next hloop with
  | call _ => exact T.frame rfl rfl (le_refl _)
  | run htask _ => exact T.run htask hok
  | wake _ _ => exact T.frame rfl rfl (le_refl _)
  | @finish k queue tr w hget _ =>
      have hk : k ≠ key := by
        rintro rfl
        exact hprogressive _ hget
      refine T.frame ?_ (Loop.clock_resolve _ _) (by rw [Loop.seq_resolve]; exact le_refl _)
      rw [Loop.channels_resolve]
      exact hother hk
  | @enter k i c tr w hget hwarm hdue =>
      by_cases hk : k = key
      · subst hk
        exact .inr ⟨_, Dict.get?_set_self _ _ _, (hfluid hget).entered hC hwarm hdue⟩
      · exact T.frame (hother hk) rfl (le_refl _)
  | @complete k i c tr w hget hactive hdue =>
      by_cases hk : k = key
      · subst hk
        have hset : Tracks k C ⟨s.setChannel k (.progressive (c.complete i s.clock)),
            l.settle i s.clock⟩ :=
          .inr ⟨_, Dict.get?_set_self _ _ _, (hfluid hget).completed hC hactive hdue⟩
        have hnote : l.note k s (.complete k i) = l.settle i s.clock := if_pos rfl
        rw [hnote]
        refine hset.frame ?_ (Loop.clock_resolve _ _) (by rw [Loop.seq_resolve])
        rw [Loop.channels_resolve]
      · have hnote : l.note key s (.complete k i) = l := if_neg hk
        rw [hnote]
        refine T.frame ?_ (Loop.clock_resolve _ _) (by rw [Loop.seq_resolve]; exact le_refl _)
        rw [Loop.channels_resolve]
        exact hother hk
  | @tick later hle hallows =>
      rcases T with ⟨hnone, hl⟩ | ⟨c, hget, F⟩
      · exact .inl ⟨hnone, hl⟩
      · refine .inr ⟨c, hget, F.tick hle ?_⟩
        exact hallows.2 _ ((Dict.mem_values_iff _ _).mpr ⟨key, hget⟩)

/-- **The run lemma.** -/
theorem of_run (hC : 0 < C) {s : Traced χ}
    (h : ((tracedMachine key).guarded (Shares key C)).Reachable s) : Tracks key C s := by
  refine Machine.Reachable.guarded_invariant (fun s hs => ?_)
    (fun s e t hT hok hst => hT.step hC hok hst) h
  have hs' : s = ⟨Loop.initial, Ledger.empty⟩ := hs
  subst hs'
  exact .inl ⟨rfl, rfl⟩

end Tracks

/-! ## §5. The channel is ideal. -/

section Ideal

variable {C : ℚ} {c : ProgressiveChannel} {l : Ledger} {seq : ℕ} {now : ℚ}

/-- A transfer that has arrived and not completed received no more than its
bytes. -/
theorem Fluid.short (F : Fluid C c l seq now) (hC : 0 < C) {i : ℕ} {job : Job}
    (hjob : l.jobs.get? i = some job) (hleaves : job.leaves = none) (harr : job.arrives ≤ now) :
    l.schedule.service C i now ≤ job.bytes := by
  rcases F.begun i job hjob hleaves with hw | ha
  · -- it arrives now, and received nothing yet
    obtain ⟨⟨t, w⟩, hget⟩ := (Dict.mem_iff _ _).mp hw
    obtain ⟨_, hnow, n, _, _, hjob'⟩ := F.warming i t w hget
    rw [hjob] at hjob'
    injection hjob' with hjob'
    subst hjob'
    have heq : w = now := le_antisymm harr hnow
    unfold Schedule.service
    rw [Ledger.arrives_of hjob, heq, intervalIntegral.integral_same]
    exact Nat.cast_nonneg _
  · obtain ⟨⟨t, w⟩, hget⟩ := (Dict.mem_iff _ _).mp ha
    obtain ⟨_, _, _, _, a, n, hjob', _, hserved⟩ := F.active i t w hget
    rw [hjob] at hjob'
    injection hjob' with hjob'
    subst hjob'
    obtain ⟨hpos, _⟩ := F.debit hC hget
    have hle : (c.lastUpdate : ℝ) ≤ now := by exact_mod_cast F.since
    rw [Schedule.service_eq_add hle fun u hu hu' => F.sharing hu hu', hserved]
    have hpos' : (0 : ℝ) ≤ t.remaining - (now - c.lastUpdate) * (C / c.active.entries.length) := by
      rw [F.rate] at hpos
      exact_mod_cast hpos
    show (n : ℝ) - t.remaining + _ ≤ n
    linarith

/-- A transfer that has arrived before now and not completed moves bytes, and all
that move bytes use the whole capacity. -/
theorem Fluid.busy (F : Fluid C c l seq now) {i : ℕ} {job : Job}
    (hjob : l.jobs.get? i = some job) (hleaves : job.leaves = none) (harr : job.arrives < now) :
    i ∈ c.active ∧ c.active.entries.length * c.rate = C := by
  have ha : i ∈ c.active := by
    rcases F.begun i job hjob hleaves with hw | ha
    · obtain ⟨⟨t, w⟩, hget⟩ := (Dict.mem_iff _ _).mp hw
      obtain ⟨_, hnow, n, _, _, hjob'⟩ := F.warming i t w hget
      rw [hjob] at hjob'
      injection hjob' with hjob'
      subst hjob'
      exact absurd (hnow.trans_lt harr) (lt_irrefl _)
    · exact ha
  refine ⟨ha, ?_⟩
  obtain ⟨e, hget⟩ := (Dict.mem_iff _ _).mp ha
  have hlen : (c.active.entries.length : ℚ) ≠ 0 := by
    have := List.length_pos_of_mem (Assoc.mem_of_find i e c.active.entries hget)
    exact_mod_cast this.ne'
  rw [F.rate]
  exact mul_div_cancel₀ C hlen

end Ideal

end Toso.SimCommon
