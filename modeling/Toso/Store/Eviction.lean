/-
  Toso.Store.Eviction — what a put drops, and whether that is enough.

  A put that overflows a volume under the default ranking drops its coldest
  droppable keys until the overshoot is covered.  The ranking is asked for
  `int(projected - capacity_bytes)` bytes, a float difference cut to a whole
  number, which leaves out the fraction of an overshoot that is not whole: a
  volume may stop one key short of the room the put needs, and refuse it.

  Main results:
    * `putVictims_eq` — the victims are the shortest prefix that covers the
      truncated overshoot.
    * `tracked_of_calls` — what the accounts rest on holds after any calls.
    * `put_evicts_iff` — when a put drops what it must and no more, and goes
      through if it fits alone.
    * `unbroken_of_floor`, `unbroken_of_whole` — where the difference is exact, and
      where the capacity is whole besides.
-/
import Toso.Store.Determinism
import Toso.Lib.Covering

namespace Toso.Store

open Lib

variable {κ β τ : Type*} [LinearOrder κ]

/-! ## §1. The resident state and the put. -/

/-- A resident state that agrees with its ranking: every recorded key is ranked,
the ranking weighs a key as it is recorded, and the running total is the sum. -/
structure Tracked (v : Volume κ β) : Prop where
  weighed : ∀ k, v.retention.bytes.get? k = v.residentByKey.get? k
  ranked : ∀ k ∈ v.residentByKey, k ∈ v.retention.used
  total : v.residentBytes = v.recordedTotal

namespace VolumeService

/-- The resident keys a put does not write, coldest first. -/
def droppable (v : Volume κ β) (p : Put κ τ) : List κ :=
  v.retention.coldest.filter fun k => k ∈ v.residentByKey ∧ k ∉ p.keys

/-- The bytes of the keys a put writes. -/
def ownBytes (store : InMemoryStore κ β τ) (v : Volume κ β) (p : Put κ τ) : ℤ :=
  (v.framed store p).newByKey.sumBy fun _ nbytes => (nbytes : ℤ)

/-- What a put's projection has over the capacity. -/
def overshoot (store : InMemoryStore κ β τ) (v : Volume κ β) (p : Put κ τ) (c : ℚ) : ℚ :=
  (v.framed store p).projected - c

/-- Dropping `ks` frees the overshoot. -/
def Covers (store : InMemoryStore κ β τ) (v : Volume κ β) (p : Put κ τ) (c : ℚ)
    (ks : List κ) : Prop :=
  v.overshoot store p c ≤ Lib.weighed v.recorded ks

/-- **What eviction promises of a put**: it goes through exactly when what it
writes fits alone; it drops nothing when nothing has to go; otherwise it drops
a coldest-first prefix of what it may drop that covers the overshoot, where one
does, and that no shorter one covers. -/
structure Evicts (cfg : LruConfig κ) (store : InMemoryStore κ β τ) (v : Volume κ β)
    (p : Put κ τ) (c : ℚ) : Prop where
  sufficient : (v.put cfg store p).2.2 = none ↔ (v.ownBytes store p : ℚ) ≤ c
  unforced : v.overshoot store p c ≤ 0 → (v.put cfg store p).2.1 = []
  coldest : (v.put cfg store p).2.1 <+: v.droppable p
  shortest : ∀ pre, pre <+: (v.put cfg store p).2.1 → pre ≠ (v.put cfg store p).2.1 →
    ¬ v.Covers store p c pre
  covers : (∃ pre, pre <+: v.droppable p ∧ v.Covers store p c pre) →
    v.Covers store p c (v.put cfg store p).2.1

/-- The whole bytes of an overshoot, as a float difference tells them. -/
def wholeOvershoot (store : InMemoryStore κ β τ) (v : Volume κ β) (p : Put κ τ) (c : ℚ) : ℤ :=
  Binary64.truncate (Binary64.sub (Binary64.round (v.framed store p).projected) c)

/-- **When it keeps the promise**: the put does not overflow, or does not fit
alone, or a coldest-first prefix of what it may drop frees the whole bytes of the
overshoot just when it covers the overshoot (all of it covers both or need not). -/
def Unbroken (store : InMemoryStore κ β τ) (v : Volume κ β) (p : Put κ τ) (c : ℚ) : Prop :=
  v.overshoot store p c ≤ 0 ∨ c < v.ownBytes store p ∨
    ∀ pre, pre <+: v.droppable p →
      (v.wholeOvershoot store p c ≤ Lib.weighed v.recorded pre → v.Covers store p c pre) ∧
      (v.Covers store p c pre → pre ≠ v.droppable p →
        v.wholeOvershoot store p c ≤ Lib.weighed v.recorded pre)

/-! ## §2. The victims of a put. -/

/-- What a scan names among the recorded keys: a ranked key that is not
recorded weighs nothing, and an excluded one is passed over. -/
theorem filter_scan {v : Volume κ β} (T : Tracked v) (need : ℤ) (exclude : List κ) :
    ∀ (ks : List κ) (freed : ℤ),
      (LeastRecentlyUsed.scan v.retention.bytes need exclude ks freed).filter
          (· ∈ v.residentByKey)
        = takeCovering v.recorded (need - freed)
            (ks.filter fun k => k ∈ v.residentByKey ∧ k ∉ exclude) := by
  intro ks
  induction ks with
  | nil => intro freed; rfl
  | cons key rest ih =>
      intro freed
      have hbytes : (v.retention.bytes.getD key 0 : ℤ) = v.recorded key := by
        unfold recorded Dict.getD
        rw [T.weighed key]
      unfold LeastRecentlyUsed.scan
      by_cases hfull : freed ≥ need
      · rw [if_pos hfull, takeCovering_nonpos (by omega)]
        rfl
      · rw [if_neg hfull]
        by_cases hex : key ∈ exclude
        · rw [if_pos hex, List.filter_cons_of_neg (by simp [hex])]
          exact ih freed
        · rw [if_neg hex, hbytes]
          by_cases hres : key ∈ v.residentByKey
          · rw [List.filter_cons_of_pos (by simpa using hres),
              List.filter_cons_of_pos (by simp [hres, hex]),
              takeCovering_cons (by omega), ih, sub_sub]
          · have hzero : v.recorded key = 0 := recorded_eq_zero hres
            rw [List.filter_cons_of_neg (by simpa using hres),
              List.filter_cons_of_neg (by simp [hres]), ih, hzero, add_zero]

section Put

variable {cfg : LruConfig κ} {c : ℚ}

/-- **The victims of a put** are the shortest droppable prefix that covers the
truncated overshoot. -/
theorem putVictims_eq (hret : cfg.retention = leastRecentlyUsed κ)
    (hctl : cfg.controller = true) (hc : cfg.capacityBytes = some c)
    (store : InMemoryStore κ β τ) {v : Volume κ β} (T : Tracked v) (p : Put κ τ) :
    v.putVictims cfg store p
      = if v.overshoot store p c ≤ 0 then []
        else takeCovering v.recorded (v.wholeOvershoot store p c) (v.droppable p) := by
  have hexceeds : cfg.Exceeds (v.framed store p).projected
      ↔ ¬ v.overshoot store p c ≤ 0 := by
    unfold VolumeConfig.Exceeds overshoot
    simp [hc]
  unfold putVictims
  by_cases hover : v.overshoot store p c ≤ 0
  · rw [if_pos hover, if_neg fun h => hexceeds.mp h hover]
  · rw [if_neg hover, if_pos (hexceeds.mpr hover)]
    unfold victims
    rw [if_pos hctl, hret]
    show (LeastRecentlyUsed.scan v.retention.bytes (cfg.need _) p.keys v.retention.coldest
      0).filter (· ∈ v.residentByKey) = _
    rw [filter_scan T, sub_zero]
    unfold VolumeConfig.need
    rw [hc]
    rfl

/-- The eviction takes the recorded bytes of its victims off the projection. -/
theorem evict_total (cfg : LruConfig κ) (ks : List κ) :
    ∀ (v : Volume κ β) (n : ℤ), ks.Nodup →
      (evict cfg ks v n).2 = n - Lib.weighed v.recorded ks := by
  induction ks with
  | nil => intro v n _; simp [evict]
  | cons k ks ih =>
      intro v n hn
      rw [List.nodup_cons] at hn
      have hrest : ks.map (v.delete cfg k).recorded = ks.map v.recorded := by
        apply List.map_congr_left
        intro x hx
        have hne : x ∉ [k] := fun h => hn.1 (List.mem_singleton.mp h ▸ hx)
        exact v.recorded_deleteBatch cfg hne
      unfold evict
      rw [ih _ _ hn.2, weighed_cons]
      unfold Lib.weighed
      rw [hrest]
      omega

/-- No key is droppable twice. -/
theorem nodup_droppable (v : Volume κ β) (p : Put κ τ) : (v.droppable p).Nodup := by
  refine List.Nodup.filter _ ?_
  rw [v.retention.coldest_perm.nodup_iff]
  exact v.retention.used.nodup

/-- What a put checks last. -/
theorem settledTotal_eq_sub (store : InMemoryStore κ β τ) {v : Volume κ β} {p : Put κ τ}
    (hvictims : v.putVictims cfg store p <+: v.droppable p) :
    v.settledTotal cfg store p
      = (v.framed store p).projected - Lib.weighed v.recorded (v.putVictims cfg store p) := by
  unfold settledTotal
  rw [evict_total cfg _ _ _ ((v.nodup_droppable p).sublist hvictims.sublist)]
  rfl

/-- A put goes through when what it drops covers its overshoot. -/
theorem put_ok_iff (hc : cfg.capacityBytes = some c) (store : InMemoryStore κ β τ)
    {v : Volume κ β} {p : Put κ τ}
    (hvictims : v.putVictims cfg store p <+: v.droppable p) :
    (v.put cfg store p).2.2 = none ↔ v.Covers store p c (v.putVictims cfg store p) := by
  rw [put_eq]
  show ((v.settledVolume cfg store p).finishPut cfg (v.settledFrame cfg store p)).2 = none ↔ _
  have hexceeds : cfg.Exceeds (v.settledTotal cfg store p)
      ↔ ¬ v.Covers store p c (v.putVictims cfg store p) := by
    rw [settledTotal_eq_sub store hvictims]
    unfold VolumeConfig.Exceeds Covers overshoot
    rw [hc]
    simp only [Option.mem_def, Option.some.injEq, exists_eq_left', Int.cast_sub, not_le]
    constructor <;> intro h <;> linarith
  unfold finishPut
  by_cases h : cfg.Exceeds (v.settledFrame cfg store p).projected
  · rw [if_pos h]
    simp [hexceeds.mp h]
  · rw [if_neg h]
    simp [not_not.mp fun hcov => h (hexceeds.mpr hcov)]

/-- The droppable keys are the recorded ones the put does not write. -/
theorem weighed_droppable {v : Volume κ β} (T : Tracked v) (p : Put κ τ) :
    Lib.weighed v.recorded (v.droppable p)
      = ∑ k ∈ v.residentByKey.keys.toFinset \ p.keys.toFinset, v.recorded k := by
  have hmem : (v.droppable p).toFinset = v.residentByKey.keys.toFinset \ p.keys.toFinset := by
    ext k
    have hranked : k ∈ v.residentByKey → k ∈ v.retention.coldest := fun hk =>
      v.retention.coldest_perm.mem_iff.mpr (T.ranked k hk)
    simp only [droppable, List.mem_toFinset, List.mem_filter, Finset.mem_sdiff,
      decide_eq_true_eq, ← Dict.mem_def]
    exact ⟨fun h => h.2, fun h => ⟨hranked h.1, h⟩⟩
  rw [← hmem, List.sum_toFinset _ (v.nodup_droppable p)]
  rfl

/-- **The projection** is what cannot be dropped and what the put writes. -/
theorem projected_eq (store : InMemoryStore κ β τ) {v : Volume κ β} (T : Tracked v)
    (p : Put κ τ) :
    (v.framed store p).projected = Lib.weighed v.recorded (v.droppable p) + v.ownBytes store p := by
  have hsplit : v.sizeChange (v.framed store p).newByKey
      + (v.framed store p).newByKey.sumBy (fun k _ => v.recorded k) = v.ownBytes store p := by
    unfold sizeChange ownBytes Dict.sumBy
    rw [← List.sum_map_add]
    simp only [sub_add_cancel]
  have hwritten : (v.framed store p).newByKey.sumBy (fun k _ => v.recorded k)
      = ∑ k ∈ p.keys.toFinset, v.recorded k := by
    rw [Dict.sumBy_eq_sum]
    have hkeys : (v.framed store p).newByKey.keys.toFinset = p.keys.toFinset := by
      ext k
      rw [List.mem_toFinset, List.mem_toFinset, ← Dict.mem_def]
      exact mem_newByKey
    rw [hkeys]
    apply Finset.sum_congr rfl
    intro k hk
    have hin : k ∈ (v.framed store p).newByKey := mem_newByKey.mpr (List.mem_toFinset.mp hk)
    obtain ⟨n, hn⟩ := (Dict.mem_iff _ k).mp hin
    simp [Dict.termAt, hn]
  have htotal : v.recordedTotal = ∑ k ∈ v.residentByKey.keys.toFinset, v.recorded k := by
    unfold recordedTotal
    rw [Dict.sumBy_eq_sum]
    exact Finset.sum_congr rfl fun k _ => v.recorded_eq_termAt k
  -- a written key that is not recorded weighs nothing
  have hunion : ∑ k ∈ v.residentByKey.keys.toFinset, v.recorded k
      = (∑ k ∈ v.residentByKey.keys.toFinset \ p.keys.toFinset, v.recorded k)
        + ∑ k ∈ p.keys.toFinset, v.recorded k := by
    rw [← Finset.sum_union Finset.sdiff_disjoint, Finset.sdiff_union_self_eq_union]
    apply Finset.sum_subset Finset.subset_union_left
    intro k _ hk
    exact recorded_eq_zero fun h => hk (List.mem_toFinset.mpr h)
  have hproj : (v.framed store p).projected
      = v.residentBytes + v.sizeChange (v.framed store p).newByKey := rfl
  rw [hproj, T.total, htotal, hunion, weighed_droppable T]
  omega

end Put

/-! ## §3. What the accounts rest on. -/

section Calls

variable {cfg : LruConfig κ} (hret : cfg.retention = leastRecentlyUsed κ)
  (store : InMemoryStore κ β τ)

omit [LinearOrder κ] in
/-- A reset leaves a total of nothing. -/
theorem reset_total {ρ : Type*} [DecidableEq κ] (cfg : VolumeConfig κ ρ)
    (v : VolumeService κ β ρ) : (v.reset cfg).residentBytes = (v.reset cfg).recordedTotal := rfl

/-- Every call keeps the total the sum of the recorded sizes. -/
theorem total_call {v : Volume κ β} (h : v.residentBytes = v.recordedTotal) (c : Call κ τ) :
    (v.call cfg store c).1.residentBytes = (v.call cfg store c).1.recordedTotal := by
  have hgone : ∀ (w : Volume κ β) (ks : List κ), w.residentBytes = w.recordedTotal →
      (w.deleteBatch cfg ks).residentBytes = (w.deleteBatch cfg ks).recordedTotal := by
    intro w ks hw
    have hmove := deleteBatch_total cfg ks w
    omega
  cases c with
  | put p =>
      simp only [VolumeService.call, put_eq]
      have hset : (v.settledVolume cfg store p).residentBytes
          = (v.settledVolume cfg store p).recordedTotal := hgone (v.landed store p) _ h
      cases hr : ((v.settledVolume cfg store p).finishPut cfg
          (v.settledFrame cfg store p)).2.isSome with
      | true =>
          rw [(finishPut_refused hr).2]
          exact hset
      | false =>
          rw [(finishPut_ok hr).2]
          show v.settledTotal cfg store p
            = ((v.settledVolume cfg store p).residentByKey.update
                (v.framed store p).newByKey).sumBy fun _ n => (n : ℤ)
          rw [settledTotal_eq, recordedTotal_update, hset]
  | get keys => exact h
  | touch keys => exact h
  | delete key => exact hgone v [key] h
  | deleteBatch keys => exact hgone v keys h
  | reset => exact reset_total cfg v

/-- The volume after a sequence of calls. -/
def calls (cfg : LruConfig κ) (store : InMemoryStore κ β τ) (v : Volume κ β)
    (cs : List (Call κ τ)) : Volume κ β :=
  cs.foldl (fun v c => (v.call cfg store c).1) v

include hret in
/-- **Tracked after any calls**, whatever they do and in whatever order. -/
theorem tracked_of_calls (cs : List (Call κ τ)) :
    Tracked ((cfg.fresh : Volume κ β).calls cfg store cs) := by
  suffices h : ∀ (v : Volume κ β) (uses : History κ), Kept v uses →
      v.residentBytes = v.recordedTotal → Tracked (v.calls cfg store cs) from
    h cfg.fresh History.fresh (kept_fresh hret) rfl
  induction cs with
  | nil => intro v uses hkept htotal; exact ⟨hkept.weighed, hkept.ranked, htotal⟩
  | cons c cs ih =>
      intro v uses hkept htotal
      exact ih _ _ (hkept.call hret store c) (total_call store htotal c)

end Calls

/-! ## §4. Enough, and no more. -/

section Exactly

variable {cfg : LruConfig κ} {c : ℚ} (hret : cfg.retention = leastRecentlyUsed κ)
  (hctl : cfg.controller = true) (hc : cfg.capacityBytes = some c)
  (store : InMemoryStore κ β τ) {v : Volume κ β}

/-- All that may be dropped covers the overshoot when the put fits alone. -/
theorem covers_droppable_iff (T : Tracked v) (p : Put κ τ) :
    v.Covers store p c (v.droppable p) ↔ (v.ownBytes store p : ℚ) ≤ c := by
  unfold Covers overshoot
  rw [projected_eq store T p, Int.cast_add]
  constructor <;> intro h <;> linarith

/-- What covers the overshoot covers it with more of the same. -/
theorem Covers.mono {p : Put κ τ} {pre ks : List κ} (h : v.Covers store p c pre)
    (hpre : pre <+: ks) : v.Covers store p c ks :=
  h.trans (Int.cast_le.mpr (weighed_le_of_isPrefix v.recorded_nonneg hpre))

include hret hctl hc

/-- The victims of a put are a prefix of what it may drop. -/
theorem putVictims_isPrefix (T : Tracked v) (p : Put κ τ) :
    v.putVictims cfg store p <+: v.droppable p := by
  rw [putVictims_eq hret hctl hc store T]
  split
  · exact List.nil_prefix
  · exact takeCovering_isPrefix _ _

/-- Where the put is not broken, no shorter prefix covers the overshoot. -/
theorem putVictims_short (T : Tracked v) {p : Put κ τ} (h : v.Unbroken store p c)
    {pre : List κ} (hpre : pre <+: v.putVictims cfg store p)
    (hne : pre ≠ v.putVictims cfg store p) : ¬ v.Covers store p c pre := by
  have hdrop := hpre.trans (putVictims_isPrefix hret hctl hc store T p)
  rw [putVictims_eq hret hctl hc store T] at hpre hne
  by_cases hover : v.overshoot store p c ≤ 0
  · rw [if_pos hover] at hpre hne
    exact absurd (List.prefix_nil.mp hpre) hne
  · rw [if_neg hover] at hpre hne
    have hshort := takeCovering_short _ _ pre hpre hne
    intro hcov
    have hfits := (covers_droppable_iff store T p).mp (hcov.mono store hdrop)
    have hproper : pre ≠ v.droppable p := by
      rintro rfl
      exact hne (hpre.eq_of_length_le (takeCovering_isPrefix _ _).length_le)
    rcases h with h | h | h
    · exact hover h
    · exact absurd hfits (not_le.mpr h)
    · have hwhole := (h pre hdrop).2 hcov hproper
      omega

/-- Where the put is not broken, the victims cover the overshoot if anything does. -/
theorem putVictims_covers (T : Tracked v) {p : Put κ τ} (h : v.Unbroken store p c)
    {pre : List κ} (hpre : pre <+: v.droppable p) (hcov : v.Covers store p c pre) :
    v.Covers store p c (v.putVictims cfg store p) := by
  have hprefix := putVictims_isPrefix hret hctl hc store T p
  by_cases hover : v.overshoot store p c ≤ 0
  · rw [putVictims_eq hret hctl hc store T, if_pos hover]
    simpa [Covers] using hover
  · have hall := hcov.mono store hpre
    have hfits := (covers_droppable_iff store T p).mp hall
    rcases h with h | h | h
    · exact absurd h hover
    · exact absurd hfits (not_le.mpr h)
    · rw [putVictims_eq hret hctl hc store T, if_neg hover]
      by_cases hwhole : v.wholeOvershoot store p c ≤ Lib.weighed v.recorded (v.droppable p)
      · exact (h _ (takeCovering_isPrefix _ _)).1 (takeCovering_covers _ _ hwhole)
      · -- everything goes, and covers
        rw [takeCovering_eq_self v.recorded_nonneg _ _ (not_le.mp hwhole)]
        exact hall

/-- **Enough, and no more**: of every put on a volume with a directory, from any
tracked state and at any finite capacity, eviction keeps its promise if and only
if the put is not broken. -/
theorem put_evicts_iff (T : Tracked v) (p : Put κ τ) :
    v.Evicts cfg store p c ↔ v.Unbroken store p c := by
  have hprefix := putVictims_isPrefix hret hctl hc store T p
  have hok := put_ok_iff hc store hprefix
  have hdropped : (v.put cfg store p).2.1 = v.putVictims cfg store p := by rw [put_eq]
  constructor
  · intro hevicts
    by_contra hbroken
    simp only [Unbroken, not_or, not_le, not_lt] at hbroken
    obtain ⟨hover, hfits, hbroken⟩ := hbroken
    have hvictims := putVictims_eq hret hctl hc store T p
    rw [if_neg (not_le.mpr hover)] at hvictims
    have hcov := hok.mp (hevicts.sufficient.mpr hfits)
    refine hbroken fun pre hpre => ⟨fun hwhole => ?_, fun hpcov hproper => ?_⟩
    · -- what frees the whole bytes holds the victims
      refine hcov.mono store ?_
      rw [hvictims]
      exact takeCovering_isPrefix_of_le hpre hwhole
    · -- what covers the overshoot is no shorter than the victims
      by_contra hlt
      have hshort := isPrefix_takeCovering_of_lt v.recorded_nonneg hpre (not_le.mp hlt)
      rw [← hvictims, ← hdropped] at hshort
      refine hevicts.shortest pre hshort (fun heq => ?_) hpcov
      rw [hdropped, hvictims] at heq
      subst heq
      exact hlt (weighed_takeCovering_of_ne v.recorded_nonneg hproper)
  · intro hunbroken
    have hcovers : ∀ pre, pre <+: v.droppable p → v.Covers store p c pre →
        v.Covers store p c (v.putVictims cfg store p) :=
      fun _ => putVictims_covers hret hctl hc store T hunbroken
    refine ⟨⟨?_, ?_⟩, ?_, ?_, ?_, ?_⟩
    · intro h
      exact (covers_droppable_iff store T p).mp ((hok.mp h).mono store hprefix)
    · intro h
      exact hok.mpr (hcovers _ (List.prefix_refl _) ((covers_droppable_iff store T p).mpr h))
    · intro hover
      rw [hdropped, putVictims_eq hret hctl hc store T, if_pos hover]
    · rw [hdropped]
      exact hprefix
    · rw [hdropped]
      exact fun pre => putVictims_short hret hctl hc store T hunbroken
    · rw [hdropped]
      exact fun ⟨pre, hpre, hcov⟩ => hcovers pre hpre hcov

end Exactly

/-! ## §5. Where the difference is exact. -/

section Exact

variable (store : InMemoryStore κ β τ) {v : Volume κ β} {p : Put κ τ} {c : ℚ}

/-- **Where the float difference is exact**, only a prefix that frees just the whole
bytes of a broken overshoot breaks the promise. -/
theorem unbroken_of_floor (hexact : v.wholeOvershoot store p c = ⌊v.overshoot store p c⌋)
    (h : ∀ pre, pre <+: v.droppable p →
      Lib.weighed v.recorded pre = ⌊v.overshoot store p c⌋ → v.Covers store p c pre) :
    v.Unbroken store p c := by
  refine .inr (.inr fun pre hpre => ⟨fun hwhole => ?_, fun hcov _ => ?_⟩)
  · rw [hexact] at hwhole
    rcases hwhole.eq_or_lt with heq | hlt
    · exact h pre hpre heq.symm
    · exact (Int.lt_floor_add_one _).le.trans (by exact_mod_cast hlt)
  · rw [hexact]
    exact Int.cast_le.mp ((Int.floor_le _).trans hcov)

/-- **Whole capacities** below `2 ^ 53`, and totals that are, break no promise. -/
theorem unbroken_of_whole {n : ℤ} (hn : 0 ≤ n)
    (htotal : (v.framed store p).projected < 2 ^ 53) : v.Unbroken store p (n : ℚ) := by
  set total := (v.framed store p).projected with hprojected
  by_cases hover : v.overshoot store p n ≤ 0
  · exact .inl hover
  · have hover' : v.overshoot store p n = ((total - n : ℤ) : ℚ) := by
      unfold overshoot
      push_cast
      rfl
    have hpos : 0 < total - n := by
      rw [hover', not_le] at hover
      exact_mod_cast hover
    have hround : Binary64.round total = (total : ℚ) :=
      Binary64.round_intCast (by rw [abs_of_pos (by omega)]; exact htotal)
    have hwhole : v.wholeOvershoot store p n = total - n := by
      unfold wholeOvershoot
      rw [← hprojected, hround,
        Binary64.sub_intCast (by rw [abs_of_pos hpos]; omega), Binary64.truncate_intCast]
    refine unbroken_of_floor store ?_ fun pre _ hpre => ?_
    · rw [hwhole, hover', Int.floor_intCast]
    · rw [hover', Int.floor_intCast] at hpre
      rw [Covers, hover', hpre]

end Exact

/-- A volume of some capacity, with a directory to tell. -/
def roomFor (c : ℚ) (h : 0 ≤ c) : LruConfig ℕ where
  volumeId := "v"
  capacityBytes := some c
  capacity_nonneg := by
    intro _ hc
    cases hc
    exact h
  controller := true
  retention := leastRecentlyUsed ℕ

/-- `n` bytes under one key. -/
def putBytes (key n : ℕ) : Put ℕ (Stored Unit) :=
  ⟨[⟨key, .full () n 1⟩], [key], List.nodup_singleton key, by simp⟩

/-- Two keys of one byte each. -/
def twoKeys (c : ℚ) (h : 0 ≤ c) : Volume ℕ Unit :=
  ((roomFor c h).fresh : Volume ℕ Unit).calls (roomFor c h) (overwriting ℕ Unit)
    [.put (putBytes 0 1), .put (putBytes 1 1)]

/-- Room for three bytes: a put of three drops both keys, and goes through. -/
theorem twoKeys_evicts :
    (twoKeys 3 (by decide +kernel)).Evicts (roomFor 3 (by decide +kernel)) (overwriting ℕ Unit)
      (putBytes 2 3) 3 := by
  have hprojected : ((twoKeys 3 (by decide +kernel)).framed (overwriting ℕ Unit)
      (putBytes 2 3)).projected < 2 ^ 53 := by decide
  have htracked : Tracked (twoKeys 3 (by decide +kernel)) := tracked_of_calls rfl _ _
  refine (put_evicts_iff rfl rfl rfl _ htracked _).mpr ?_
  exact_mod_cast unbroken_of_whole (overwriting ℕ Unit) (by decide : (0 : ℤ) ≤ 3) hprojected

/-- Room for three bytes and a half: one key is dropped for an overshoot of one
and a half, and the put refused. -/
theorem broken_overshoot_refused :
    Tracked (twoKeys (7 / 2) (by norm_num)) ∧
      ¬ (twoKeys (7 / 2) (by norm_num)).Evicts (roomFor (7 / 2) (by norm_num))
        (overwriting ℕ Unit) (putBytes 2 3) (7 / 2) := by
  refine ⟨tracked_of_calls rfl _ _, fun h => ?_⟩
  have hown : (twoKeys (7 / 2) (by norm_num)).ownBytes (overwriting ℕ Unit) (putBytes 2 3) = 3 := by
    decide +kernel
  have hgone := h.sufficient.mpr (by rw [hown]; norm_num)
  have hrefused : ((twoKeys (7 / 2) (by norm_num)).put (roomFor (7 / 2) (by norm_num))
      (overwriting ℕ Unit) (putBytes 2 3)).2.2.isSome = true := by decide +kernel
  rw [hgone] at hrefused
  cases hrefused

end VolumeService

end Toso.Store
