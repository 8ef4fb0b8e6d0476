/-
  Toso.KvCache.Reference — what a decision is meant to be.

  The reference judges the pick: it takes the least instance of the prefill
  pool, refuses if that one misses its SLO, takes the least instance of the
  decode pool at the winning plan, and refuses if that one misses its own.  The
  scheduler composes two chains, with the bound below the cut in one and above
  it in the other, and reads the directory pinned to the decision's keys.

  Main results:
    * `Reference.unique` — there is one reference answer.
    * `decideAt_eq` — pinned to its own keys, a decision reads the live
      directory, and lets it go.
    * `decides_reference` — the scheduler decides the reference answer; a
      refusal writes nothing.
    * `decides_nothing` — a pool that names an instance twice raises instead, and so
      does a plan priced at no rate.
-/
import Toso.KvCache.Scheduler
import Toso.KvCache.FloatPlan
import Toso.Proposed.Bounds
import Mathlib.Tactic.Linarith

namespace Toso.KvCache

open Lib Proposed SimCommon Domain

variable {ν ι κ : Type*}

/-! ## §1. The directory, pinned for one decision. -/

/-- `DirectorySensor`: the live directory (the holders of each key), and the keys and
holders a decision pinned. -/
structure DirectorySensor (ι κ : Type*) where
  live : κ → List ι
  pin : Option (List κ × (κ → List ι))

namespace DirectorySensor

variable [DecidableEq κ]

/-- `locate`: `none` is its assertion, that a pinned directory answers only for the
keys of that decision. -/
def locate (d : DirectorySensor ι κ) (keys : List κ) : Option (κ → List ι) :=
  match d.pin with
  | none => some d.live
  | some (pinned, located) => if keys.all (· ∈ pinned) then some located else none

/-- `pinned`: one coherent read of `keys` for the whole of `body`, let go on every way
out; `none` is the assertion that no decision holds one already. -/
def pinned {β : Type*} (d : DirectorySensor ι κ) (keys : List κ)
    (body : DirectorySensor ι κ → Option β) : Option β × DirectorySensor ι κ :=
  match d.pin with
  | some _ => (none, d)
  | none =>
      (body { d with pin := some (keys, fun key => if key ∈ keys then d.live key else []) },
        { d with pin := none })

end DirectorySensor

section Congr

variable [LinearOrder ι] [DecidableEq κ]

/-- Runs depend on the holders of the keys they are about. -/
theorem prefixLengthsOf_congr {located located' : κ → List ι} {keys : List κ}
    (h : ∀ k ∈ keys, located k = located' k) :
    prefixLengthsOf located keys = prefixLengthsOf located' keys := by
  cases keys with
  | nil => rfl
  | cons first rest =>
      have hrun : ∀ inst : ι, (first :: rest).filter (fun key => decide (inst ∈ located key)) =
          (first :: rest).filter fun key => decide (inst ∈ located' key) := by
        intro inst
        refine List.filter_congr fun key hkey => ?_
        rw [h key hkey]
      simp only [prefixLengthsOf, h first List.mem_cons_self, hrun]

namespace Scheduler

theorem reuse_congr (cfg : Settings ι) (s : Scheduler ν ι κ) {located located' : κ → List ι}
    {keys : List κ} (h : ∀ k ∈ keys, located k = located' k) (requester : ι) :
    reuse cfg s located keys requester = reuse cfg s located' keys requester := by
  have hlongest : longestPrefix (κ := κ) located keys requester =
      longestPrefix located' keys requester := by
    simp only [longestPrefix, prefixLengthsOf_congr h]
  unfold reuse Selector.pipe
  cases cfg.reuse with
  | none => rfl
  | peers =>
      simp only [sourceRanking]
      cases cfg.source with
      | longest =>
          show List.foldl _ (longestPrefix located keys requester) _ = _
          rw [hlongest]
      | spread =>
          simp only [Selector.pipe, Selector.annotate, hlongest]

variable [DecidableEq ν]

/-- **A decision reads the directory at its own keys.** -/
theorem decide_congr (cfg : Settings ι) (s : Scheduler ν ι κ) {located located' : κ → List ι}
    (now : ℚ) {request : Request ν κ} (h : ∀ k ∈ request.blockKeys, located k = located' k)
    (requester : ι) :
    decide cfg s located now request requester = decide cfg s located' now request requester := by
  unfold decide price
  rw [reuse_congr cfg s h, prefixLengthsOf_congr h]

/-- `decide`, at the directory sensor it is attached to. -/
def decideAt (cfg : Settings ι) (s : Scheduler ν ι κ) (dir : DirectorySensor ι κ) (now : ℚ)
    (request : Request ν κ) (requester : ι) :
    Option (Except SelectionError (Decided ν ι κ)) × DirectorySensor ι κ :=
  match s.placed.get? request.id with
  | some placed =>
      (some (.ok ⟨some placed, [], { s with placed := s.placed.erase request.id }⟩), dir)
  | none => dir.pinned request.blockKeys fun dir =>
      (dir.locate request.blockKeys).map fun located =>
        price cfg s located now request requester

/-- **Pinned to its own keys, a decision reads the live directory**, asserts nothing and
lets it go. -/
theorem decideAt_eq (cfg : Settings ι) (s : Scheduler ν ι κ) (live : κ → List ι) (now : ℚ)
    (request : Request ν κ) (requester : ι) :
    decideAt cfg s ⟨live, none⟩ now request requester =
      (some (decide cfg s live now request requester), ⟨live, none⟩) := by
  unfold decideAt
  cases hp : s.placed.get? request.id with
  | some placed => simp only [decide, hp]
  | none =>
      have hall : request.blockKeys.all (fun k => Decidable.decide (k ∈ request.blockKeys)) =
          true := by
        simp
      have hread : decide cfg s (fun key => if key ∈ request.blockKeys then live key else []) now
          request requester = decide cfg s live now request requester :=
        decide_congr cfg s now (fun k hk => if_pos hk) requester
      simp only [DirectorySensor.pinned, DirectorySensor.locate, hall, if_true, Option.map_some,
        ← hread]
      simp only [decide, hp]

/-! ## §2. The reference. -/

/-- The plan every instance is priced at, against the peer the reuse ranking names. -/
def Prices (cfg : Settings ι) (s : Scheduler ν ι κ) (located : κ → List ι) (now : ℚ)
    (request : Request ν κ) (requester : ι) (plan : ι → Plan ι κ) : Prop :=
  ∃ peer, reuse cfg s located request.blockKeys requester = .ok peer ∧
    ∀ inst, planOn cfg.pricing s.cluster ⟨request, now, request.blockKeys,
      prefixLengthsOf located request.blockKeys, peer⟩ inst = .ok (plan inst)

/-- No cost of a decision is divided by zero: computed with nothing rounded, the plans
and the decode steps are what they are here. -/
structure Costed (cfg : Settings ι) (s : Scheduler ν ι κ) (located : κ → List ι) (now : ℚ)
    (request : Request ν κ) (requester : ι) (plan : ι → Plan ι κ) : Prop where
  prefill : ∃ peer, reuse cfg s located request.blockKeys requester = .ok peer ∧
    ∀ inst, planOnIn id cfg.pricing s.cluster ⟨request, now, request.blockKeys,
      prefixLengthsOf located request.blockKeys, peer⟩ inst = .ok (.ok (plan inst))
  decode : ∀ batch, decodeStepTimeIn id batch cfg.profile cfg.model
    = .ok (decodeStepTime batch cfg.profile cfg.model)

/-- What orders the prefill pool: the predicted TTFT, or when an instance frees up. -/
def figure (cfg : Settings ι) (s : Scheduler ν ι κ) (plan : ι → Plan ι κ) (inst : ι) : ℚ :=
  match cfg.rank with
  | .ttft => (plan inst).ttft
  | .load => s.cluster.busyUntil inst

/-- The batch predicted for each instance at a completion. -/
def batchAt (cfg : Settings ι) (s : Scheduler ν ι κ) (now doneTime : ℚ) (inst : ι) : ℕ :=
  predictedBatch cfg.decodeBatch s.cluster s.reserved now inst doneTime

/-- The TBT predicted for joining a batch. -/
def tbtAt (cfg : Settings ι) (batch : ℕ) : ℚ :=
  predTbt batch cfg.profile cfg.model cfg.simulateDecode

/-- **The reference answer**: judge the least instance of each pool, refuse on a miss. -/
inductive Reference (cfg : Settings ι) (s : Scheduler ν ι κ) (now : ℚ) (plan : ι → Plan ι κ) :
    Option (Response ι κ) → Prop
  | noPrefill : cfg.prefillIds = [] → Reference cfg s now plan none
  | late {host : ι} : Selection.Leads (figure cfg s plan) cfg.prefillIds host →
      atMost cfg.sloTtft (plan host).ttft = false → Reference cfg s now plan none
  | noDecode {host : ι} : Selection.Leads (figure cfg s plan) cfg.prefillIds host →
      atMost cfg.sloTtft (plan host).ttft = true → cfg.decodeIds = [] →
      Reference cfg s now plan none
  | slow {host decoder : ι} : Selection.Leads (figure cfg s plan) cfg.prefillIds host →
      atMost cfg.sloTtft (plan host).ttft = true →
      Selection.Leads (batchAt cfg s now (plan host).doneTime) cfg.decodeIds decoder →
      atMost cfg.sloTbt (tbtAt cfg (batchAt cfg s now (plan host).doneTime decoder)) = false →
      Reference cfg s now plan none
  | accepted {host decoder : ι} : Selection.Leads (figure cfg s plan) cfg.prefillIds host →
      atMost cfg.sloTtft (plan host).ttft = true →
      Selection.Leads (batchAt cfg s now (plan host).doneTime) cfg.decodeIds decoder →
      atMost cfg.sloTbt (tbtAt cfg (batchAt cfg s now (plan host).doneTime decoder)) = true →
      Reference cfg s now plan (some ⟨host, decoder, plan host,
        tbtAt cfg (batchAt cfg s now (plan host).doneTime decoder)⟩)

omit [DecidableEq κ] [DecidableEq ν] in
/-- There always is one. -/
theorem Reference.total (cfg : Settings ι) (s : Scheduler ν ι κ) (now : ℚ)
    (plan : ι → Plan ι κ) : ∃ answer, Reference cfg s now plan answer := by
  by_cases hprefill : cfg.prefillIds = []
  · exact ⟨none, .noPrefill hprefill⟩
  · obtain ⟨host, hhost, _⟩ := Selection.exists_leads (figure cfg s plan) _ hprefill
    by_cases hlate : atMost cfg.sloTtft (plan host).ttft = true
    · by_cases hdecode : cfg.decodeIds = []
      · exact ⟨none, .noDecode hhost hlate hdecode⟩
      · obtain ⟨decoder, hdecoder, _⟩ := Selection.exists_leads
          (batchAt cfg s now (plan host).doneTime) _ hdecode
        cases hslow : atMost cfg.sloTbt
            (tbtAt cfg (batchAt cfg s now (plan host).doneTime decoder)) with
        | true => exact ⟨_, .accepted hhost hlate hdecoder hslow⟩
        | false => exact ⟨none, .slow hhost hlate hdecoder hslow⟩
    · exact ⟨none, .late hhost (by simpa using hlate)⟩

/-! ## §3. What the chains answer. -/

omit [DecidableEq ν] in
/-- The reuse ranking always answers, and never with every holder. -/
theorem reuse_total (cfg : Settings ι) (s : Scheduler ν ι κ) (located : κ → List ι)
    (keys : List κ) (requester : ι) :
    ∃ peer, reuse cfg s located keys requester = .ok peer ∧ peer.sources ≠ none := by
  unfold reuse Selector.pipe
  cases cfg.reuse with
  | none => exact ⟨.abstain, rfl, nofun⟩
  | peers =>
      obtain ⟨r, c, hr, hsources, hc⟩ := sourceRanking_eq cfg s located keys requester
      show ∃ peer, Except.bind (sourceRanking cfg s located keys requester) _ = .ok peer ∧ _
      rw [hr]
      show ∃ peer, Selection.best stand r = .ok peer ∧ _
      cases hnamed : r.named with
      | nil =>
          refine ⟨r, ?_, by rw [hsources]; exact nofun⟩
          unfold Selection.best
          rw [hnamed]
      | cons a rest =>
          obtain ⟨key, _, hk, _⟩ := hc a (by rw [hnamed]; exact List.mem_cons_self)
          have hcov : Selection.Covers key r.dims r.named := by
            intro x hx
            obtain ⟨key', dims, hk', hd, _⟩ := hc x hx
            rw [hk, Option.some.injEq] at hk'
            subst hk'
            unfold Selection.dims
            rw [hk, Option.bind_some, hd]
            rfl
          have hf : ∀ x ∈ r.named, (r.fold.getD stand) (r.dims x) = .ok (c x) := by
            intro x hx
            obtain ⟨key', dims, hk', hd, hfx⟩ := hc x hx
            unfold Selection.dims
            rw [hk', Option.bind_some, hd]
            exact hfx
          obtain ⟨b, hb, _⟩ := Selection.exists_leads c r.named
            (by rw [hnamed]; exact List.cons_ne_nil _ _)
          exact ⟨_, Selection.best_eq hsources hk hcov hf hb, nofun⟩

omit [DecidableEq ν] in
/-- Every instance has a plan. -/
theorem prices_total (cfg : Settings ι) (s : Scheduler ν ι κ) (located : κ → List ι) (now : ℚ)
    (request : Request ν κ) (requester : ι) :
    ∃ plan, Prices cfg s located now request requester plan := by
  obtain ⟨peer, hpeer, hsources⟩ := reuse_total cfg s located request.blockKeys requester
  have htotal : ∀ inst, ∃ p, planOn cfg.pricing s.cluster ⟨request, now, request.blockKeys,
      prefixLengthsOf located request.blockKeys, peer⟩ inst = .ok p := by
    intro inst
    unfold planOn Selection.require
    cases hs : peer.sources with
    | none => exact absurd hs hsources
    | some sources =>
        cases sources with
        | nil => exact ⟨_, rfl⟩
        | cons a rest => exact ⟨_, rfl⟩
  choose plan hplan using htotal
  exact ⟨plan, peer, hpeer, hplan⟩

omit [DecidableEq ν] in
/-- At rates that are not zero, what prices the pool costs it. -/
theorem Prices.costed {cfg : Settings ι} {s : Scheduler ν ι κ} {located : κ → List ι} {now : ℚ}
    {request : Request ν κ} {requester : ι} {plan : ι → Plan ι κ}
    (h : Prices cfg s located now request requester plan)
    (hrates : RatesNonzero cfg.profile cfg.model) :
    Costed cfg s located now request requester plan := by
  obtain ⟨peer, hpeer, hplan⟩ := h
  refine ⟨⟨peer, hpeer, fun inst => ?_⟩, decodeStepTimeIn_exact hrates⟩
  rw [planOnIn_exact (p := cfg.pricing) hrates, hplan]
  rfl

omit [LinearOrder ι] [DecidableEq κ] [DecidableEq ν] in
theorem plansOf_eq [DecidableEq ι] {p : Pricing ι} {cluster : ClusterSensor ι}
    {ask : PrefillAsk ν ι κ} {plan : ι → Plan ι κ}
    (h : ∀ inst, planOn p cluster ask inst = .ok (plan inst)) :
    ∀ pool : List ι, plansOf p cluster ask pool =
      .ok (pool.map fun inst => (inst, .plan (plan inst)))
  | [] => rfl
  | inst :: rest => by
      unfold plansOf
      rw [h inst, plansOf_eq h rest]
      rfl

omit [DecidableEq κ] [DecidableEq ν] in
/-- The answer of a chain cut to one source: whom it names, at its first dimension. -/
theorem winner_single {b : ι} {d : Dim ι κ} {ds : List (Dim ι κ)} {ready : Option Empty}
    {fold : Option (List (Dim ι κ) → Except SelectionError (List ℚ))} :
    winner (⟨some [b], some (Selection.dictOf [(b, d :: ds)]), ready, fold⟩ : Ranked ι κ) =
      some (b, d) := by
  have hget : (Selection.dictOf [(b, d :: ds)]).get? b = some (d :: ds) :=
    Dict.get?_set_self _ _ _
  unfold winner Selection.head Selection.dims
  simp only [Selection.named, Option.getD_some, List.head?_cons, Option.bind_some, hget,
    Option.map_some]

/-- What judging the pick of a pool comes to: nobody to pick, the leader, or nobody
because the leader missed. -/
def Judged {τ : Type*} [LinearOrder τ] (pool : List ι) (c : ι → τ) (p : ι → Bool)
    (d : ι → Dim ι κ) (r : Ranked ι κ) : Prop :=
  (pool = [] ∧ r.Abstains) ∨ ∃ b, Selection.Leads c pool b ∧
    ((p b = true ∧ ¬ r.Abstains ∧ winner r = some (b, d b)) ∨ (p b = false ∧ r.Abstains))

section Chain

variable {τ : Type*} [LinearOrder τ] {s : Ranked ι κ} {pool : List ι}
  {key : Dict ι (List (Dim ι κ))} {d : ι → Dim ι κ} {ds : ι → List (Dim ι κ)} {c : ι → τ}
  {g : τ → List ℚ} {p : ι → Bool} {bound : List (Dim ι κ) → Except SelectionError Bool}

omit [DecidableEq κ] [DecidableEq ν] in
/-- The bound above the cut judges the pick. -/
theorem judged_above (hg : StrictMono g) (hs : s.sources = some pool) (hk : s.key = some key)
    (hcov : Selection.Covers key (fun x => d x :: ds x) pool)
    (hf : ∀ x ∈ pool, (s.fold.getD stand) (d x :: ds x) = .ok (g (c x)))
    (hp : ∀ x ∈ pool, bound (d x :: ds x) = .ok (p x)) :
    ∃ r, Selection.bestThenBounded stand bound s = .ok r ∧ Judged pool c p d r := by
  cases hpool : pool with
  | nil =>
      rw [hpool] at hs
      have hab : s.Abstains := hs
      refine ⟨s, ?_, .inl ⟨rfl, hab⟩⟩
      unfold Selection.bestThenBounded Selection.best
      rw [Selection.named_of_sources hs]
      show Selection.bounded bound s = _
      unfold Selection.bounded
      rw [if_pos hab]
  | cons a rest =>
      obtain ⟨b, hb, _⟩ := Selection.exists_leads (fun x => g (c x)) pool
        (by rw [hpool]; exact List.cons_ne_nil _ _)
      have hlead := (Selection.leads_comp hg).mp hb
      rw [← hpool]
      refine ⟨_, Selection.bestThenBounded_eq hs hk hcov hf hp hb, .inr ⟨b, hlead, ?_⟩⟩
      by_cases hin : p b = true
      · refine .inl ⟨hin, ?_, ?_⟩
        · rw [if_pos hin]
          unfold Selection.Abstains
          simp
        · rw [if_pos hin]
          exact winner_single
      · refine .inr ⟨by simpa using hin, ?_⟩
        rw [if_neg hin]
        rfl

omit [DecidableEq κ] [DecidableEq ν] in
/-- So does the bound below it, where it is downward closed along the fold. -/
theorem judged_below (hg : StrictMono g) (hs : s.sources = some pool) (hk : s.key = some key)
    (hcov : Selection.Covers key (fun x => d x :: ds x) pool)
    (hf : ∀ x ∈ pool, (s.fold.getD stand) (d x :: ds x) = .ok (g (c x)))
    (hp : ∀ x ∈ pool, bound (d x :: ds x) = .ok (p x))
    (hdown : ∀ x y, p x = true → c y ≤ c x → p y = true) :
    ∃ r, Selection.boundedThenBest stand bound s = .ok r ∧ Judged pool c p d r := by
  obtain ⟨r, hr, hj⟩ := judged_above hg hs hk hcov hf hp
  refine ⟨r, ?_, hj⟩
  rw [← hr]
  cases hpool : pool with
  | nil =>
      rw [hpool] at hs
      exact Selection.agree_abstains hs bound
  | cons a rest =>
      obtain ⟨b, hb, _⟩ := Selection.exists_leads (fun x => g (c x)) pool
        (by rw [hpool]; exact List.cons_ne_nil _ _)
      refine Selection.agree_of_downClosed hs hk hcov hf hp hb ?_
      intro x _ y _ hx hle
      exact hdown x y hx (hg.le_iff_le.mp hle)

end Chain

/-- One figure, compared as it stands. -/
theorem strictMono_single : StrictMono fun q : ℚ => [q] := by
  intro a b hab
  exact List.cons_lt_cons_iff.mpr (.inl hab)

omit [DecidableEq κ] [DecidableEq ν] in
/-- **The prefill chain judges the pick**, by either fold. -/
theorem prefill_judged {cfg : Settings ι} {s : Scheduler ν ι κ} {ask : PrefillAsk ν ι κ}
    {plan : ι → Plan ι κ} (hplan : ∀ inst, planOn cfg.pricing s.cluster ask inst =
      .ok (plan inst)) (hnodup : cfg.prefillIds.Nodup) (requester : ι) :
    ∃ r, prefill cfg s ask requester = .ok r ∧
      Judged cfg.prefillIds (figure cfg s plan) (fun i => atMost cfg.sloTtft (plan i).ttft)
        (fun i => .plan (plan i)) r := by
  have hmap : (cfg.prefillIds.map fun inst => (inst, [(Dim.plan (plan inst) : Dim ι κ)])).map
      Prod.fst = cfg.prefillIds := by
    rw [List.map_map]
    exact List.map_id _
  -- the pool is priced: each instance keyed at its plan
  have hpriced : priced cfg.pricing s.cluster ask requester =
      .ok (⟨some cfg.prefillIds, some (Selection.dictOf (cfg.prefillIds.map fun inst =>
        (inst, [Dim.plan (plan inst)]))), none, none⟩ : Ranked ι κ) := by
    unfold priced
    rw [plansOf_eq hplan]
    show Selection.priced _ none = _
    unfold Selection.priced
    rw [List.map_map]
    show Selection.keyed (cfg.prefillIds.map fun inst => (inst, [Dim.plan (plan inst)])) none = _
    rw [Selection.keyed_eq _ none (by rw [hmap]; exact hnodup), hmap]
  have hcov : Selection.Covers (Selection.dictOf (cfg.prefillIds.map fun inst =>
      (inst, [(Dim.plan (plan inst) : Dim ι κ)]))) (fun i => [.plan (plan i)])
      cfg.prefillIds := by
    intro x hx
    rw [Selection.get?_dictOf_map, if_pos hx]
  cases hrank : cfg.rank with
  -- by time to first token: bound first, and the order agrees with the bound
  | ttft =>
      have hfig : figure cfg s plan = fun i => (plan i).ttft := by
        funext i
        simp only [figure, hrank]
      have heq : prefill cfg s ask requester = Selection.boundedThenBest stand
          (ttftAtMost cfg.sloTtft) ⟨some cfg.prefillIds, some (Selection.dictOf
            (cfg.prefillIds.map fun inst => (inst, [Dim.plan (plan inst)]))), none,
            some byTtft⟩ := by
        simp only [prefill, hrank, Selector.pipe]
        rw [hpriced]
        rfl
      rw [heq, hfig]
      refine judged_below strictMono_single rfl rfl hcov (fun _ _ => rfl) (fun _ _ => rfl) ?_
      intro x y hx hle
      exact atMost_of_le hx hle
  -- by load: a second dimension is annotated, and the bound comes last
  | load =>
      have hfig : figure cfg s plan = s.cluster.busyUntil := by
        funext i
        simp only [figure, hrank]
      rw [hfig]
      by_cases hempty : cfg.prefillIds = []
      · -- nobody to annotate
        refine ⟨⟨some [], some (Selection.dictOf []), none, some byQueue⟩, ?_,
          .inl ⟨hempty, rfl⟩⟩
        simp only [prefill, hrank, Selector.pipe, Selector.annotate]
        rw [hpriced, hempty]
        rfl
      · have heq : prefill cfg s ask requester = Selection.bestThenBounded stand
            (ttftAtMost cfg.sloTtft) ⟨some cfg.prefillIds, some (Selection.dictOf
              (cfg.prefillIds.map fun inst =>
                (inst, [Dim.plan (plan inst), Dim.time (s.cluster.busyUntil inst)]))), none,
              some byQueue⟩ := by
          have hdims : ∀ x ∈ cfg.prefillIds, Selection.dims (⟨some cfg.prefillIds,
              some (Selection.dictOf (cfg.prefillIds.map fun inst =>
                (inst, [Dim.plan (plan inst)]))), none, none⟩ : Ranked ι κ) x =
              [.plan (plan x)] :=
            fun x hx => Selection.dims_eq rfl hcov hx
          have hannot : Selection.annotated (fun inst => Dim.time (s.cluster.busyUntil inst))
              (⟨some cfg.prefillIds, some (Selection.dictOf (cfg.prefillIds.map fun inst =>
                (inst, [Dim.plan (plan inst)]))), none, none⟩ : Ranked ι κ) =
              ⟨some cfg.prefillIds, some (Selection.dictOf (cfg.prefillIds.map fun inst =>
                (inst, [Dim.plan (plan inst), Dim.time (s.cluster.busyUntil inst)]))), none,
                none⟩ := by
            unfold Selection.annotated
            congr 2
            congr 1
            refine List.map_congr_left fun x hx => ?_
            rw [hdims x hx]
            rfl
          simp only [prefill, hrank, Selector.pipe, Selector.annotate]
          rw [hpriced]
          show List.foldl _ (Except.ok (if cfg.prefillIds = [] then _ else _)) _ = _
          rw [if_neg hempty, hannot]
          rfl
        have hcov' : Selection.Covers (Selection.dictOf (cfg.prefillIds.map fun inst =>
            (inst, [Dim.plan (plan inst), Dim.time (s.cluster.busyUntil inst)])))
            (fun i => [.plan (plan i), .time (s.cluster.busyUntil i)]) cfg.prefillIds := by
          intro x hx
          rw [Selection.get?_dictOf_map, if_pos hx]
        rw [heq]
        exact judged_above strictMono_single rfl rfl hcov' (fun _ _ => rfl) fun _ _ => rfl

/-- One count, compared as it stands. -/
theorem strictMono_count : StrictMono fun n : ℕ => [((n : ℤ) : ℚ)] := by
  intro a b hab
  exact List.cons_lt_cons_iff.mpr (.inl (by exact_mod_cast hab))

omit [DecidableEq κ] [DecidableEq ν] in
/-- **The decode chain judges the pick.**  TBT grows with the batch the chain folds on,
so the bound may stand below the cut. -/
theorem decode_judged {cfg : Settings ι} (s : Scheduler ν ι κ) (now : ℚ) (plan : Plan ι κ)
    (hnodup : cfg.decodeIds.Nodup) (requester : ι) :
    ∃ r, decode cfg s now plan requester = .ok r ∧
      Judged cfg.decodeIds (batchAt cfg s now plan.doneTime)
        (fun i => atMost cfg.sloTbt (tbtAt cfg (batchAt cfg s now plan.doneTime i)))
        (fun i => .count (batchAt cfg s now plan.doneTime i)) r := by
  have hcov : Selection.Covers (Selection.dictOf (cfg.decodeIds.map fun inst =>
      (inst, [(Dim.count (batchAt cfg s now plan.doneTime inst) : Dim ι κ)])))
      (fun i => [.count (batchAt cfg s now plan.doneTime i)]) cfg.decodeIds := by
    intro x hx
    rw [Selection.get?_dictOf_map, if_pos hx]
  have heq : decode cfg s now plan requester = Selection.boundedThenBest stand
      (tbtAtMost cfg.sloTbt cfg.profile cfg.model cfg.simulateDecode) ⟨some cfg.decodeIds,
        some (Selection.dictOf (cfg.decodeIds.map fun inst =>
          (inst, [Dim.count (batchAt cfg s now plan.doneTime inst)]))), none, none⟩ := by
    have hof : (Selection.of cfg.decodeIds none : Except SelectionError (Ranked ι κ)) =
        .ok ⟨some cfg.decodeIds, none, none, none⟩ := by
      unfold Selection.of Selection.namedOnce
      rw [if_pos hnodup]
      rfl
    unfold decode Selector.pipe decodeBatch
    show List.foldl _ (Except.map _ (Selection.of cfg.decodeIds none)) _ = _
    rw [hof]
    rfl
  rw [heq]
  refine judged_below strictMono_count rfl rfl hcov (fun _ _ => rfl) (fun _ _ => rfl) ?_
  intro x y hx hle
  refine atMost_of_le hx ?_
  exact predTbt_mono (by exact_mod_cast hle) cfg.profile cfg.model cfg.simulateDecode

/-! ## §4. The scheduler decides the reference answer. -/

/-- What answering comes to: a refusal writes nothing, an acceptance is booked. -/
def decided (s : Scheduler ν ι κ) (request : Request ν κ) (requester : ι) :
    Option (Response ι κ) → Decided ν ι κ
  | none => ⟨none, [], s⟩
  | some response => s.book request requester response

omit [DecidableEq κ] [DecidableEq ν] in
/-- No request is both refused and accepted: the hosts that lead their pools decide. -/
theorem Reference.refused_or_accepted {cfg : Settings ι} {s : Scheduler ν ι κ} {now : ℚ}
    {plan : ι → Plan ι κ} {response : Response ι κ} (hno : Reference cfg s now plan none)
    (hyes : Reference cfg s now plan (some response)) : False := by
  have hnil : ∀ {τ : Type} [LinearOrder τ] {c : ι → τ} {pool : List ι} {x : ι},
      Selection.Leads c pool x → pool = [] → False := by
    intro τ _ c pool x hx hpool
    rw [hpool] at hx
    exact List.not_mem_nil hx.1
  cases hyes with
  | accepted hl hok he hok' =>
      cases hno with
      | noPrefill hp => exact hnil hl hp
      | late hl' hmiss =>
          obtain rfl := hl.unique hl'
          rw [hok] at hmiss
          cases hmiss
      | noDecode _ _ hd => exact hnil he hd
      | slow hl' _ he' hmiss =>
          obtain rfl := hl.unique hl'
          obtain rfl := he.unique he'
          rw [hok'] at hmiss
          cases hmiss

omit [DecidableEq κ] [DecidableEq ν] in
/-- **There is one reference answer.** -/
theorem Reference.unique {cfg : Settings ι} {s : Scheduler ν ι κ} {now : ℚ}
    {plan : ι → Plan ι κ} {a b : Option (Response ι κ)} (ha : Reference cfg s now plan a)
    (hb : Reference cfg s now plan b) : a = b := by
  cases a with
  | none =>
      cases b with
      | none => rfl
      | some _ => exact (ha.refused_or_accepted hb).elim
  | some _ =>
      cases b with
      | none => exact (hb.refused_or_accepted ha).elim
      | some _ =>
          cases ha with
          | accepted hl _ he _ =>
              cases hb with
              | accepted hl' _ he' _ =>
                  obtain rfl := hl.unique hl'
                  obtain rfl := he.unique he'
                  rfl

/-- **Pricing decides the reference answer.** -/
theorem price_reference {cfg : Settings ι} (s : Scheduler ν ι κ) (located : κ → List ι) (now : ℚ)
    (request : Request ν κ) (requester : ι) (hprefill : cfg.prefillIds.Nodup)
    (hdecode : cfg.decodeIds.Nodup) {plan : ι → Plan ι κ}
    (hplan : Prices cfg s located now request requester plan) :
    ∃ answer, Reference cfg s now plan answer ∧
      price cfg s located now request requester = .ok (decided s request requester answer) := by
  obtain ⟨peer, hpeer, hplan⟩ := hplan
  obtain ⟨ranked, hranked, hj⟩ := prefill_judged hplan hprefill requester
  unfold price
  rw [hpeer]
  simp only [Except.bind]
  rw [hranked]
  rcases hj with ⟨hempty, hab⟩ | ⟨host, hlead, ⟨hmeets, hab, hwin⟩ | ⟨hmiss, hab⟩⟩
  · exact ⟨none, .noPrefill hempty, by simp only [if_pos hab, decided]⟩
  · simp only [if_neg hab, hwin]
    obtain ⟨decoders, hdecoders, hj'⟩ := decode_judged s now (plan host) hdecode requester
    rw [hdecoders]
    rcases hj' with ⟨hempty, hab'⟩ | ⟨e, hlead', ⟨hmeets', hab', hwin'⟩ | ⟨hmiss', hab'⟩⟩
    · exact ⟨none, .noDecode hlead hmeets hempty, by simp only [if_pos hab', decided]⟩
    · refine ⟨_, .accepted hlead hmeets hlead' hmeets', ?_⟩
      simp only [if_neg hab', hwin', decided, tbtAt]
    · exact ⟨none, .slow hlead hmeets hlead' hmiss', by simp only [if_pos hab', decided]⟩
  · exact ⟨none, .late hlead hmiss, by simp only [if_pos hab, decided]⟩

/-- **Every decision is the reference's**, where a pool names an instance once and no rate
is zero.  A request already placed is answered with what was recorded.  Any other is
answered with the one reference answer for the plans its instances are priced at; a
refusal leaves the plane as it was, and the directory is let go either way. -/
theorem decides_reference {cfg : Settings ι} (hprefill : cfg.prefillIds.Nodup)
    (hdecode : cfg.decodeIds.Nodup) (hrates : RatesNonzero cfg.profile cfg.model)
    (s : Scheduler ν ι κ) (live : κ → List ι) (now : ℚ) (request : Request ν κ)
    (requester : ι) :
    (∀ placed, s.placed.get? request.id = some placed →
      decideAt cfg s ⟨live, none⟩ now request requester =
        (some (.ok ⟨some placed, [], { s with placed := s.placed.erase request.id }⟩),
          ⟨live, none⟩)) ∧
    (s.placed.get? request.id = none → ∃ plan answer,
      Prices cfg s live now request requester plan ∧
      Costed cfg s live now request requester plan ∧ Reference cfg s now plan answer ∧
      (∀ other, Reference cfg s now plan other → other = answer) ∧
      decideAt cfg s ⟨live, none⟩ now request requester =
        (some (.ok (decided s request requester answer)), ⟨live, none⟩)) := by
  constructor
  · intro placed hp
    simp only [decideAt, hp]
  · intro hp
    obtain ⟨plan, hplan⟩ := prices_total cfg s live now request requester
    obtain ⟨answer, href, hprice⟩ :=
      price_reference s live now request requester hprefill hdecode hplan
    refine ⟨plan, answer, hplan, hplan.costed hrates, href,
      fun other hother => hother.unique href, ?_⟩
    rw [decideAt_eq]
    simp only [decide, hp, hprice]

end Scheduler

end Congr

/-! ## §5. A pick that misses. -/

/-- A baseline over two instances of one node, with an SLO of half a second. -/
def baselineConfig : Settings ℕ where
  ids := [0, 1]
  endpoint := fun
    | 0 => ⟨"s0", "s0", "n0"⟩
    | _ => ⟨"s1", "s1", "n0"⟩
  reuse := .none
  rank := .load
  balanceThreshold := 3 / 2
  source := .longest
  blockTokens := 512
  profile := defaultProfile
  model := defaultModel
  decodePool := []
  prefillPool := []
  sloTtft := some (1 / 2)
  sloTbt := none
  simulateDecode := false
  earlyRejection := .early

/-- Instance 1 holds the whole chain and is free in a tenth of a second; instance 0 is
free now, leads, and would miss the SLO: the request is refused. -/
theorem decides_reference_missed :
    let s : Scheduler ℕ ℕ ℕ :=
      (Scheduler.attach baselineConfig).dispatch (.computeBusy 1 (1 / 10))
    let request : Request ℕ ℕ := ⟨7, 0, [10, 11], 1024, 4, 1024, "", rfl⟩
    ∃ plan answer, Scheduler.Prices baselineConfig s (fun _ => [1]) 0 request 0 plan ∧
      Scheduler.Costed baselineConfig s (fun _ => [1]) 0 request 0 plan ∧
      Scheduler.Reference baselineConfig s 0 plan answer ∧
      (∀ other, Scheduler.Reference baselineConfig s 0 plan other → other = answer) ∧
      Scheduler.decideAt baselineConfig s ⟨fun _ => [1], none⟩ 0 request 0 =
        (some (.ok (Scheduler.decided s request 0 answer)), ⟨fun _ => [1], none⟩) ∧
      answer = none := by
  intro s request
  have hrefused : ((Scheduler.decide baselineConfig s (fun _ => [1]) 0 request 0).toOption.map
      fun d => d.answer) = some none := by
    decide +kernel
  have hprefill : baselineConfig.prefillIds.Nodup := by decide
  have hdecode : baselineConfig.decodeIds.Nodup := by decide
  obtain ⟨plan, answer, hplan, hcost, href, hone, hdec⟩ :=
    (Scheduler.decides_reference hprefill hdecode defaultProfile_ratesNonzero s (fun _ => [1]) 0
      request 0).2 rfl
  refine ⟨plan, answer, hplan, hcost, href, hone, hdec, ?_⟩
  rw [Scheduler.decideAt_eq, Prod.mk.injEq, Option.some.injEq] at hdec
  rw [hdec.1] at hrefused
  cases answer with
  | none => rfl
  | some response => cases hrefused

/-- **A prefill pool that names instance 0 twice** has a reference answer, and the decision
raises instead of giving it.  At a device without a rate, no plan of the pool is priced. -/
theorem decides_nothing :
    let s : Scheduler ℕ ℕ ℕ := Scheduler.attach baselineConfig
    let request : Request ℕ ℕ := ⟨7, 0, [10, 11], 1024, 4, 1024, "", rfl⟩
    let twice : Settings ℕ := { baselineConfig with prefillPool := [0, 0] }
    let unrated : Settings ℕ := { baselineConfig with profile := unratedProfile }
    (∃ plan answer, Scheduler.Prices twice s (fun _ => []) 0 request 0 plan ∧
      Scheduler.Reference twice s 0 plan answer ∧
      ∀ d, Scheduler.decideAt twice s ⟨fun _ => [], none⟩ 0 request 0
        ≠ (some (.ok d), ⟨fun _ => [], none⟩)) ∧
    ∀ inst ∈ unrated.prefillIds, planOnIn id unrated.pricing s.cluster ⟨request, 0,
      request.blockKeys, prefixLengthsOf (fun _ => []) request.blockKeys, .abstain⟩ inst
        = .ok (.error .zeroDivision) := by
  intro s request twice unrated
  constructor
  · obtain ⟨plan, hplan⟩ := Scheduler.prices_total twice s (fun _ => []) 0 request 0
    obtain ⟨answer, href⟩ := Scheduler.Reference.total twice s 0 plan
    refine ⟨plan, answer, hplan, href, fun d hd => ?_⟩
    have hraised : (Scheduler.decide twice s (fun _ => []) 0 request 0).toOption.isNone
        = true := by
      decide +kernel
    rw [Scheduler.decideAt_eq, Prod.mk.injEq, Option.some.injEq] at hd
    rw [hd.1] at hraised
    cases hraised
  · decide +kernel

end Toso.KvCache
