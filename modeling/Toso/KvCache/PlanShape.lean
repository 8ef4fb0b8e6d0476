/-
  Toso.KvCache.PlanShape — a priced plan is well formed.

  A plan is put together from three sources: the prefix runs the directory was read
  for, the head of the reuse ranking, and the test that the head is worth pulling
  from.  Whoever runs the plan slices the request's keys by its numbers, so they have
  to agree: what is local, what is pulled and what is reused are one prefix.

  Main results:
    * `worthPulling_lt` — a head that passes the test holds a longer run.
    * `prefixLengthsOf_runs` — what the directory's runs say of the holders.
    * `priced_well_formed` — every plan of the pool is well formed, priced exactly and
      at rates that are not zero.
    * `priced_in_floats` — in floats its times may not add up, and at no rate it raises.
    * `WellFormed.split` — the local blocks and the pull are the reused prefix.
-/
import Toso.KvCache.PullCost
import Toso.KvCache.FloatPlan
import Toso.Lib.Binary64

namespace Toso.KvCache

open Lib Proposed SimCommon Domain

variable {ν ι κ : Type*}

/-! ## §1. Prefix runs. -/

section Runs

variable [DecidableEq ι]

/-- Counts that are prefix runs over `keys`: each is within the keys, and its instance
holds that many of the leading ones. -/
def Runs (holds : ι → κ → Prop) (keys : List κ) (counts : Dict ι ℕ) : Prop :=
  ∀ inst run, counts.get? inst = some run →
    run ≤ keys.length ∧ ∀ key ∈ keys.take run, holds inst key

theorem Runs.getD_le {holds : ι → κ → Prop} {keys : List κ} {counts : Dict ι ℕ}
    (h : Runs holds keys counts) (inst : ι) : counts.getD inst 0 ≤ keys.length := by
  unfold Dict.getD
  cases hrun : counts.get? inst with
  | none => exact Nat.zero_le _
  | some run => exact (h inst run hrun).1

/-- The run an instance is looked up at, its absence read as none. -/
theorem Runs.getD_holds {holds : ι → κ → Prop} {keys : List κ} {counts : Dict ι ℕ}
    (h : Runs holds keys counts) (inst : ι) :
    ∀ key ∈ keys.take (counts.getD inst 0), holds inst key := by
  unfold Dict.getD
  cases hrun : counts.get? inst with
  | none => exact fun key hkey => absurd hkey (by simp)
  | some run => exact (h inst run hrun).2

/-- **A head worth pulling from** has a run, and a longer one. -/
theorem worthPulling_lt {counts : Dict ι ℕ} {inst head : ι} {threshold : ℚ}
    (hthreshold : 1 ≤ threshold) (h : worthPulling counts inst threshold head = true) :
    head ∈ counts ∧ counts.getD inst 0 < counts.getD head 0 := by
  have hlt : (counts.getD inst 0 : ℚ) * threshold < counts.getD head 0 := of_decide_eq_true h
  have hown : (counts.getD inst 0 : ℚ) ≤ counts.getD inst 0 * threshold :=
    le_mul_of_one_le_right (Nat.cast_nonneg _) hthreshold
  have hrun : counts.getD inst 0 < counts.getD head 0 := by exact_mod_cast hown.trans_lt hlt
  refine ⟨?_, hrun⟩
  by_contra hmem
  have hnone : counts.getD head 0 = 0 := by
    rw [Dict.getD, (Dict.get?_eq_none_iff counts head).mpr hmem]
    rfl
  omega

end Runs

section Directory

variable [LinearOrder ι] [DecidableEq κ]

/-- **The directory's counts are prefix runs** of the instances it names. -/
theorem prefixLengthsOf_runs (located : κ → List ι) (keys : List κ) :
    Runs (fun inst key => inst ∈ located key) keys (prefixLengthsOf located keys) := by
  intro inst run hrun
  cases hkeys : keys with
  | nil =>
      rw [hkeys] at hrun
      cases hrun
  | cons first rest =>
      rw [hkeys, prefixLengthsOf, Selection.get?_dictOf_map] at hrun
      -- only holders of the first key are counted
      by_cases hmem : inst ∈ sorted (located first)
      · rw [if_pos hmem, Option.some.injEq] at hrun
        rw [← hrun]
        refine ⟨longestPrefixRun_le _ _, fun key hkey => ?_⟩
        have hpresent := mem_of_take_run _ _ _ le_rfl key hkey
        simpa using (List.mem_filter.mp hpresent).2
      · rw [if_neg hmem] at hrun
        cases hrun

end Directory

/-! ## §2. A well-formed plan. -/

section Plan

variable [DecidableEq ι]

/-- The time a plan is priced to move its pull in. -/
def Plan.transferT (p : Pricing ι) (inst : ι) (plan : Plan ι κ) : ℚ :=
  match plan.reuseSource with
  | none => 0
  | some src => readTime (p.endpoint src) (p.endpoint inst) plan.transferBytes p.profile

/-- **A well-formed plan** for one ask on one instance. -/
structure WellFormed (holds : ι → κ → Prop) (p : Pricing ι) (ask : PrefillAsk ν ι κ) (inst : ι)
    (plan : Plan ι κ) : Prop where
  /-- The prompt is what is cached and what is not. -/
  tokens : plan.cachedTokens + plan.uncachedTokens = ask.request.promptTokens
  /-- The match is within the keys, and no shorter than the instance's own run. -/
  own : ask.counts.getD inst 0 ≤ plan.matchBlocks
  within : plan.matchBlocks ≤ ask.keys.length
  /-- What is local is the instance's own run, and the rest of the match is pulled. -/
  localBlocks : plan.localBlocks = ask.counts.getD inst 0
  pulled : plan.localBlocks + plan.pullKeys.length = plan.matchBlocks
  /-- A source is another instance, which holds the match, and the pull is what of it
  the instance lacks. -/
  source : ∀ src, plan.reuseSource = some src → src ≠ inst ∧ src ∈ ask.counts ∧
    (∀ key ∈ ask.keys.take plan.matchBlocks, holds src key) ∧
    plan.pullKeys = (ask.keys.take plan.matchBlocks).drop (ask.counts.getD inst 0) ∧
    plan.pullKeys ≠ []
  /-- Without one, nothing is pulled and nothing moves. -/
  alone : plan.reuseSource = none → plan.pullKeys = [] ∧ plan.transferBytes = 0
  /-- The times add up. -/
  done : plan.doneTime = ask.now + plan.ttft
  ttft : plan.ttft = plan.queueWait + plan.transferT p inst + plan.prefillT

/-- **The local blocks and the pull are the reused prefix.** -/
theorem WellFormed.split {holds : ι → κ → Prop} {p : Pricing ι} {ask : PrefillAsk ν ι κ}
    {inst : ι} {plan : Plan ι κ} (h : WellFormed holds p ask inst plan) :
    ask.keys.take plan.localBlocks ++ plan.pullKeys = ask.keys.take plan.matchBlocks := by
  cases hsrc : plan.reuseSource with
  | none =>
      obtain ⟨hpull, _⟩ := h.alone hsrc
      have hpulled := h.pulled
      rw [hpull, List.length_nil, Nat.add_zero] at hpulled
      rw [hpull, List.append_nil, hpulled]
  | some src =>
      obtain ⟨_, _, _, hpull, _⟩ := h.source src hsrc
      have htake : ask.keys.take plan.localBlocks =
          (ask.keys.take plan.matchBlocks).take (ask.counts.getD inst 0) := by
        rw [List.take_take, h.localBlocks, Nat.min_eq_left h.own]
      rw [hpull, htake]
      exact List.take_append_drop _ _

omit [DecidableEq ι] in
/-- A candidate's times: done once the wait, the transfer and the prefill are over. -/
theorem candidate_times (p : Pricing ι) (cluster : ClusterSensor ι) (request : Request ν κ)
    (inst : ι) (now : ℚ) (reused : ℕ) (source : Option ι) (pullKeys : List κ) :
    let plan := candidate p cluster request inst now reused source pullKeys
    plan.doneTime = now + plan.ttft ∧
      plan.ttft = plan.queueWait + plan.transferT p inst + plan.prefillT := by
  intro plan
  cases source with
  | none =>
      simp only [plan, candidate, predict, Plan.transferT]
      constructor <;> ring
  | some src =>
      by_cases hpull : pullKeys = []
      · simp only [plan, candidate, predict, Plan.transferT, if_pos hpull]
        constructor <;> ring
      · simp only [plan, candidate, predict, Plan.transferT, if_neg hpull]
        constructor <;> ring

/-- **A candidate that recomputes** from its own run. -/
theorem candidate_alone {holds : ι → κ → Prop} {p : Pricing ι} {ask : PrefillAsk ν ι κ}
    (cluster : ClusterSensor ι) (inst : ι) (hruns : Runs holds ask.keys ask.counts) :
    WellFormed holds p ask inst
      (candidate p cluster ask.request inst ask.now (ask.counts.getD inst 0) none []) where
  tokens := Nat.add_sub_of_le (Nat.min_le_right _ _)
  own := le_rfl
  within := hruns.getD_le inst
  localBlocks := rfl
  pulled := rfl
  source src hsrc := by cases hsrc
  alone _ := ⟨rfl, rfl⟩
  done := (candidate_times p cluster ask.request inst ask.now _ none []).1
  ttft := (candidate_times p cluster ask.request inst ask.now _ none []).2

/-- **A candidate that pulls** from another instance with a longer run. -/
theorem candidate_pulls {holds : ι → κ → Prop} {p : Pricing ι} {ask : PrefillAsk ν ι κ}
    (cluster : ClusterSensor ι) {inst src : ι} (hruns : Runs holds ask.keys ask.counts)
    (hne : src ≠ inst) (hmem : src ∈ ask.counts)
    (hlt : ask.counts.getD inst 0 < ask.counts.getD src 0) :
    WellFormed holds p ask inst
      (candidate p cluster ask.request inst ask.now (ask.counts.getD src 0) (some src)
        ((ask.keys.take (ask.counts.getD src 0)).drop (ask.counts.getD inst 0))) := by
  set pull := (ask.keys.take (ask.counts.getD src 0)).drop (ask.counts.getD inst 0) with hpull
  -- the source's run is within the keys, so the pull is as long as the runs differ
  have hlen : pull.length = ask.counts.getD src 0 - ask.counts.getD inst 0 := by
    rw [hpull, List.length_drop, List.length_take, Nat.min_eq_left (hruns.getD_le src)]
  have hnonempty : pull ≠ [] := by
    rw [← List.length_pos_iff]
    omega
  have hlocal : ask.counts.getD src 0 - pull.length = ask.counts.getD inst 0 := by omega
  have hsource : (candidate p cluster ask.request inst ask.now (ask.counts.getD src 0) (some src)
      pull).reuseSource = some src := by
    simp only [candidate, if_neg hnonempty]
  exact {
    tokens := Nat.add_sub_of_le (Nat.min_le_right _ _)
    own := hlt.le
    within := hruns.getD_le src
    localBlocks := hlocal
    pulled := by
      show ask.counts.getD src 0 - pull.length + pull.length = ask.counts.getD src 0
      omega
    source := by
      intro src' hsrc
      rw [hsource, Option.some.injEq] at hsrc
      subst hsrc
      exact ⟨hne, hmem, hruns.getD_holds src, rfl, hnonempty⟩
    alone := by
      intro hnone
      rw [hsource] at hnone
      cases hnone
    done := (candidate_times p cluster ask.request inst ask.now _ (some src) pull).1
    ttft := (candidate_times p cluster ask.request inst ask.now _ (some src) pull).2 }

/-- **Every plan that is priced is well formed.** -/
theorem planOn_wellFormed {holds : ι → κ → Prop} {p : Pricing ι} {cluster : ClusterSensor ι}
    {ask : PrefillAsk ν ι κ} (hruns : Runs holds ask.keys ask.counts)
    (hthreshold : 1 ≤ p.threshold) (inst : ι) {plan : Plan ι κ}
    (h : planOn p cluster ask inst = .ok plan) : WellFormed holds p ask inst plan := by
  unfold planOn Selection.require at h
  -- without a named source the code asks for a head, and raises
  cases hsources : ask.peer.sources with
  | none =>
      rw [hsources] at h
      cases h
  | some sources =>
      cases sources with
      | nil =>
          have hhead : ask.peer.head = none := by
            rw [Selection.head, Selection.named, hsources]
            rfl
          simp only [hsources, Except.map, Except.ok.injEq, pricedReuse, hhead] at h
          rw [← h]
          exact candidate_alone cluster inst hruns
      | cons src rest =>
          have hhead : ask.peer.head = some src := by
            rw [Selection.head, Selection.named, hsources]
            rfl
          by_cases hworth : worthPulling ask.counts inst p.threshold src = true
          · obtain ⟨hmem, hlt⟩ := worthPulling_lt hthreshold hworth
            -- the head's run is longer, so it is not the instance's own
            have hne : src ≠ inst := by
              rintro rfl
              exact absurd hlt (lt_irrefl _)
            simp only [hsources, hworth, if_true, Except.map, Except.ok.injEq, pricedReuse, hhead,
              if_neg hne] at h
            rw [← h]
            exact candidate_pulls cluster hruns hne hmem hlt
          · have habstain : (Selection.abstain : Ranked ι κ).head = none := rfl
            simp only [hsources, hworth, Except.map, Except.ok.injEq, pricedReuse] at h
            rw [← h]
            exact candidate_alone cluster inst hruns

/-- A plan is priced unless the ranking named every holder in directory order. -/
theorem planOn_answers (p : Pricing ι) (cluster : ClusterSensor ι) (ask : PrefillAsk ν ι κ)
    (inst : ι) : (∃ plan, planOn p cluster ask inst = .ok plan) ↔ ask.peer.sources ≠ none := by
  unfold planOn Selection.require
  cases hsources : ask.peer.sources with
  | none => simp [Except.map]
  | some sources => cases sources <;> simp [Except.map]

/-- The pool, each instance at its plan. -/
theorem plansOf_spec {p : Pricing ι} {cluster : ClusterSensor ι} {ask : PrefillAsk ν ι κ} :
    ∀ {pool : List ι} {plans : List (ι × Dim ι κ)}, plansOf p cluster ask pool = .ok plans →
      plans.map Prod.fst = pool ∧
        ∀ c ∈ plans, ∃ plan, planOn p cluster ask c.1 = .ok plan ∧ c.2 = .plan plan
  | [], plans, h => by
      cases h
      exact ⟨rfl, fun c hc => absurd hc List.not_mem_nil⟩
  | inst :: rest, plans, h => by
      unfold plansOf at h
      cases hplan : planOn p cluster ask inst with
      | error e =>
          rw [hplan] at h
          cases h
      | ok plan =>
          cases hrest : plansOf p cluster ask rest with
          | error e =>
              rw [hplan, hrest] at h
              cases h
          | ok plans' =>
              obtain ⟨hfst, hall⟩ := plansOf_spec hrest
              rw [hplan, hrest] at h
              cases h
              refine ⟨by rw [List.map_cons, hfst], fun c hc => ?_⟩
              rcases List.mem_cons.mp hc with rfl | hmem
              · exact ⟨plan, hplan, rfl⟩
              · exact hall c hmem

/-- A pool is priced unless there is somebody in it to ask about and no head to ask. -/
theorem plansOf_answers (p : Pricing ι) (cluster : ClusterSensor ι) (ask : PrefillAsk ν ι κ) :
    ∀ pool : List ι, (∃ plans, plansOf p cluster ask pool = .ok plans) ↔
      (pool ≠ [] → ask.peer.sources ≠ none)
  | [] => ⟨fun _ h => absurd rfl h, fun _ => ⟨[], rfl⟩⟩
  | inst :: rest => by
      constructor
      · rintro ⟨plans, hplans⟩ _
        obtain ⟨hfst, hall⟩ := plansOf_spec hplans
        have hinst : inst ∈ plans.map Prod.fst := by
          rw [hfst]
          exact List.mem_cons_self
        obtain ⟨c, hc, _⟩ := List.mem_map.mp hinst
        obtain ⟨plan, hplan, _⟩ := hall c hc
        exact (planOn_answers p cluster ask c.1).mp ⟨plan, hplan⟩
      · intro h
        have hpeer := h (List.cons_ne_nil inst rest)
        obtain ⟨plan, hplan⟩ := (planOn_answers p cluster ask inst).mpr hpeer
        obtain ⟨plans, hplans⟩ := (plansOf_answers p cluster ask rest).mpr fun _ => hpeer
        refine ⟨(inst, .plan plan) :: plans, ?_⟩
        unfold plansOf
        rw [hplan, hplans]
        rfl

/-- **The priced pool.**  Whatever the ranking of peers, each instance of a pool that is
priced is keyed at one plan, and the plan is well formed: the counts being prefix runs
over the keys, the threshold at least one, no rate zero and nothing rounded.  A pool is
refused only where it names an instance twice, or where the ranking names every holder and
so has no head to ask. -/
theorem priced_well_formed {holds : ι → κ → Prop} {p : Pricing ι} (cluster : ClusterSensor ι)
    {ask : PrefillAsk ν ι κ} (hruns : Runs holds ask.keys ask.counts)
    (hthreshold : 1 ≤ p.threshold) (hrates : RatesNonzero p.profile p.model) (requester : ι) :
    (∀ s, priced p cluster ask requester = .ok s → s.sources = some p.instances ∧
      ∀ inst ∈ p.instances, ∃ plan, s.dims inst = [.plan plan] ∧
        planOnIn id p cluster ask inst = .ok (.ok plan) ∧ WellFormed holds p ask inst plan) ∧
    ((∃ s, priced p cluster ask requester = .ok s) ↔
      p.instances.Nodup ∧ (p.instances ≠ [] → ask.peer.sources ≠ none)) := by
  rw [← plansOf_answers p cluster ask]
  unfold priced
  cases hplans : plansOf p cluster ask p.instances with
  | error e => simp [Except.bind]
  | ok plans =>
      obtain ⟨hfst, hall⟩ := plansOf_spec hplans
      by_cases hpool : p.instances.Nodup
      · obtain ⟨s, hs, hsources, _, _, hdims⟩ :=
          Selection.priced_eq plans (none : Option Empty) (by rw [hfst]; exact hpool)
        refine ⟨?_, fun _ => ⟨hpool, plans, rfl⟩, fun _ => ⟨s, hs⟩⟩
        intro s' hs'
        have hsame : s' = s := Except.ok.inj (hs'.symm.trans hs)
        subst hsame
        refine ⟨by rw [hsources, hfst], fun inst hinst => ?_⟩
        rw [← hfst] at hinst
        obtain ⟨c, hc, rfl⟩ := List.mem_map.mp hinst
        obtain ⟨plan, hplan, hkey⟩ := hall c hc
        have hexact : planOnIn id p cluster ask c.1 = .ok (.ok plan) := by
          rw [planOnIn_exact hrates, hplan]
          rfl
        exact ⟨plan, by rw [hdims c hc, hkey], hexact,
          planOn_wellFormed hruns hthreshold c.1 hplan⟩
      · have hrefused : ∀ s : Ranked ι κ, Selection.priced plans none ≠ .ok s := by
          intro s hs
          have hnamed : ¬ ((plans.map fun c => (c.1, [c.2])).map Prod.fst).Nodup := by
            rw [List.map_map, show (Prod.fst ∘ fun c : ι × Dim ι κ => (c.1, [c.2])) = Prod.fst
              from rfl, hfst]
            exact hpool
          unfold Selection.priced Selection.keyed Selection.namedOnce at hs
          rw [if_neg hnamed] at hs
          cases hs
        exact ⟨fun s hs => absurd hs (hrefused s),
          fun h => h.elim fun s hs => absurd hs (hrefused s), fun h => absurd h.1 hpool⟩

/-- Instance 0 holds one block and instance 1 the first three: instance 0 pulls the two
between, and instance 1 recomputes from its own. -/
theorem priced_well_formed_two :
    let p : Pricing ℕ := { baselineConfig.pricing with instances := [0, 1] }
    let ask : PrefillAsk ℕ ℕ ℕ := ⟨⟨8, 0, [10, 11, 12, 13], 2048, 1, 2048, "", rfl⟩, 0,
      [10, 11, 12, 13], (Dict.empty.set 0 1).set 1 3, ⟨some [1], none, none, none⟩⟩
    let cluster : ClusterSensor ℕ := (Scheduler.attach baselineConfig : Scheduler ℕ ℕ ℕ).cluster
    (∀ s, priced p cluster ask 0 = .ok s → s.sources = some [0, 1] ∧
      ∀ inst ∈ [0, 1], ∃ plan, s.dims inst = [.plan plan] ∧
        planOnIn id p cluster ask inst = .ok (.ok plan) ∧
        WellFormed (fun inst key => key ≤ 10 + 2 * inst) p ask inst plan) ∧
    ∃ s, priced p cluster ask 0 = .ok s := by
  intro p ask cluster
  have hruns : Runs (fun inst key => key ≤ 10 + 2 * inst) ask.keys ask.counts := by
    intro inst run hrun
    have hmem := (Dict.get?_eq_some_iff ask.counts inst run).mp hrun
    have hentries : ask.counts.entries = [(0, 1), (1, 3)] := rfl
    rw [hentries] at hmem
    simp only [List.mem_cons, Prod.mk.injEq, List.not_mem_nil, or_false] at hmem
    rcases hmem with ⟨rfl, rfl⟩ | ⟨rfl, rfl⟩ <;> decide
  have hpool : p.instances.Nodup ∧ (p.instances ≠ [] → ask.peer.sources ≠ none) :=
    ⟨by decide, fun _ => Option.some_ne_none _⟩
  have hthreshold : 1 ≤ p.threshold := by decide +kernel
  have hpriced := priced_well_formed cluster hruns hthreshold defaultProfile_ratesNonzero 0
  exact ⟨hpriced.1, hpriced.2.mpr hpool⟩

/-- **In floats** the TTFT of 512 tokens to compute, priced at 0.03 on an instance that is
free, is not their prefill time, though there is no wait and no transfer.  On a device
without a rate the same ask raises. -/
theorem priced_in_floats :
    let p : Pricing ℕ := { baselineConfig.pricing with instances := [0] }
    let ask : PrefillAsk ℕ ℕ ℕ := ⟨⟨8, 0, [10], 512, 1, 512, "", rfl⟩,
      Binary64.round (3 / 100), [10], Dict.empty, .abstain⟩
    let cluster : ClusterSensor ℕ := (Scheduler.attach baselineConfig : Scheduler ℕ ℕ ℕ).cluster
    Runs (fun _ _ => False) ask.keys ask.counts ∧ 1 ≤ p.threshold ∧
      (∃ plan, planOnIn Binary64.round p cluster ask 0 = .ok (.ok plan) ∧
        plan.reuseSource = none ∧ plan.queueWait = 0 ∧ plan.ttft ≠ plan.prefillT ∧
        ¬ WellFormed (fun _ _ => False) p ask 0 plan) ∧
      planOnIn Binary64.round { p with profile := unratedProfile } cluster ask 0
        = .ok (.error .zeroDivision) := by
  intro p ask cluster
  have hplan : (planOnIn Binary64.round p cluster ask 0).toOption.map (fun priced =>
      priced.toOption.map fun plan =>
        (plan.reuseSource, plan.queueWait, Decidable.decide (plan.ttft = plan.prefillT)))
        = some (some (none, 0, false)) := by
    decide +kernel
  have hruns : Runs (fun _ _ => False) ask.keys ask.counts := by
    intro inst run hrun
    cases hrun
  refine ⟨hruns, by decide +kernel, ?_, by decide +kernel⟩
  cases hok : planOnIn Binary64.round p cluster ask 0 with
  | error e =>
      rw [hok] at hplan
      cases hplan
  | ok priced =>
      cases priced with
      | error e =>
          rw [hok] at hplan
          cases hplan
      | ok plan =>
          rw [hok] at hplan
          have hfields := Option.some.inj (Option.some.inj hplan)
          simp only [Prod.mk.injEq, decide_eq_false_iff_not] at hfields
          obtain ⟨hsource, hwait, hapart⟩ := hfields
          refine ⟨plan, rfl, hsource, hwait, hapart, fun hwf => hapart ?_⟩
          rw [hwf.ttft, hwait, Plan.transferT, hsource, zero_add, zero_add]

end Plan

end Toso.KvCache
