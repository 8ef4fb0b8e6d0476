/-
  Toso.KvCache.Prefill — one request's prefill, block by block.

  Four modules count the same blocks.  The plan counts them when it is priced:
  the match, and the keys to pull.  The serving host cuts the prompt by a token
  offset and the chain by a block offset; the accelerator divides the tokens it
  is handed, rounding up; the store wants one block for every key.  A block of
  KV is known here by what it holds, so that "filed under the right key" can be
  said.

  Main results:
    * `priced_fits` — what pricing says about blocks, for every instance.
    * `blocksFor_mul` — whole blocks divide exactly.
    * `prefill_files` — every block lands under its own key, pulled or not.
-/
import Toso.KvCache.Reference

namespace Toso.KvCache

open Lib Proposed SimCommon Domain

variable {ν ι κ : Type*}

/-! ## §1. Blocks of KV. -/

/-- A block of KV: one the store returned for a key, as it arrived, or one computed
over those positions of the prompt. -/
inductive KV (κ : Type*)
  | stored (key : κ)
  | computed (positions : List ℕ)
  deriving DecidableEq

/-- What a prefill raises past the two outcomes it handles. -/
inductive PrefillError
  /-- `ZeroDivisionError`. -/
  | zeroDivision
  /-- `ValueError` of `publish`. -/
  | arity (text : String)
  deriving DecidableEq

/-- `blocks_for`: a partial block still is one. -/
def blocksFor (blockTokens tokens : ℕ) : Except PrefillError ℕ :=
  if blockTokens = 0 then .error .zeroDivision
  else .ok (max 0 (-(-(tokens : ℤ) / (blockTokens : ℤ)))).toNat

/-- `kv_blocks`, the pass's own: one per block of the prompt it was handed. -/
def kvBlocks (blockTokens : ℕ) (prompt : List ℕ) (count : ℕ) : List (KV κ) :=
  (List.range count).map fun i => .computed ((prompt.drop (i * blockTokens)).take blockTokens)

/-- `SimulatedAccelerator.prefill`: the cached blocks, then the computed ones. -/
def forward (blockTokens : ℕ) (prompt : List ℕ) (cached : List (KV κ)) :
    Except PrefillError (List (KV κ)) :=
  (blocksFor blockTokens prompt.length).map fun count =>
    cached ++ kvBlocks blockTokens prompt count

/-- The text of `publish`'s `ValueError`. -/
def arityText (keys blocks : ℕ) : String :=
  "publishing " ++ toString keys ++ " keys with " ++ toString blocks ++ " KV blocks: a " ++
    "block is a key, so the two are the same list seen twice and a " ++
    "mismatch means the caller lost track of which is which"

/-- `KVStore.publish`: whether the volume kept them, and what the put named.  `room`
is the volume's answer. -/
def publish (room : Bool) (keys : List κ) (blocks : List (KV κ)) :
    Except PrefillError (Bool × List (κ × KV κ)) :=
  if keys = [] then .ok (true, [])
  else if keys.length = blocks.length then .ok (room, keys.zip blocks)
  else .error (.arity (arityText keys.length blocks.length))

/-! ## §2. The prefill a host serves. -/

/-- The prefill host's half of a `RequestResult`. -/
structure Row (ν ι : Type*) where
  id : ν
  ttft : ℚ
  promptTokens : ℕ
  cachedTokens : ℕ
  uncachedTokens : ℕ
  transferBytes : ℕ
  prefill : ι
  reuseSource : Option ι
  predictedQueueWait : ℚ
  published : Bool
  deriving DecidableEq

/-- `_make_accepted`. -/
def makeAccepted (request : Request ν κ) (response : Response ι κ) : Row ν ι where
  id := request.id
  ttft := response.plan.ttft
  promptTokens := request.promptTokens
  cachedTokens := response.plan.cachedTokens
  uncachedTokens := response.plan.uncachedTokens
  transferBytes := response.plan.transferBytes
  prefill := response.prefill
  reuseSource := response.plan.reuseSource
  predictedQueueWait := response.plan.queueWait
  published := true

/-- `_recompute`: what is left to compute without the reuse that vanished, and the
row corrected.  `cost` is the accelerator's. -/
def recompute (cost : ℕ → ℚ) (blockTokens : ℕ) (request : Request ν κ) (plan : Plan ι κ)
    (row : Row ν ι) : ℕ × Row ν ι :=
  let cached := min (plan.localBlocks * blockTokens) request.promptTokens
  let uncached := request.promptTokens - cached
  (uncached, { row with
    cachedTokens := cached
    uncachedTokens := uncached
    transferBytes := 0
    ttft := row.ttft + (cost uncached - plan.prefillT) })

/-- The pull the plan priced, if it priced one: what is left to compute, the blocks
pulled in, and the row.  `fetched` is the outcome: `KeyError` is all or nothing. -/
def pulled [DecidableEq κ] (cost : ℕ → ℚ) (blockTokens : ℕ) (fetched : Bool)
    (request : Request ν κ) (plan : Plan ι κ) (row : Row ν ι) : ℕ × List (KV κ) × Row ν ι :=
  if plan.reuseSource.isSome ∧ plan.pullKeys ≠ [] then
    if fetched then (plan.uncachedTokens, plan.pullKeys.map .stored, row)
    else
      let (uncached, row) := recompute cost blockTokens request plan row
      (uncached, [], row)
  else (plan.uncachedTokens, [], row)

/-- What a served prefill comes to: the local prefix it reports, the keys and the
blocks it publishes, what the put named, and the row. -/
structure Filled (ν ι κ : Type*) where
  reused : List κ
  fresh : List κ
  kv : List (KV κ)
  named : List (κ × KV κ)
  row : Row ν ι
  deriving DecidableEq

/-- `ServingHost.prefill`, once the answer names this host. -/
def prefill [DecidableEq κ] (cost : ℕ → ℚ) (blockTokens : ℕ) (fetched room : Bool)
    (request : Request ν κ) (response : Response ι κ) :
    Except PrefillError (Filled ν ι κ) :=
  let plan := response.plan
  let (uncached, blocks, row) :=
    pulled cost blockTokens fetched request plan (makeAccepted request response)
  -- sliced by offset: a fully cached request computes nothing
  let prompt := (List.range request.prompt).drop (request.promptTokens - uncached)
  (forward blockTokens prompt blocks).bind fun kv =>
    let fresh := request.blockKeys.drop plan.localBlocks
    (publish room fresh kv).map fun (kept, named) =>
      ⟨request.blockKeys.take plan.localBlocks, fresh, kv, named, { row with published := kept }⟩

/-! ## §3. Whole blocks divide exactly. -/

theorem blocksFor_mul {blockTokens : ℕ} (h : blockTokens ≠ 0) (n : ℕ) :
    blocksFor blockTokens (n * blockTokens) = .ok n := by
  unfold blocksFor
  rw [if_neg h]
  have hB : (blockTokens : ℤ) ≠ 0 := by exact_mod_cast h
  have hdiv : -(-((n * blockTokens : ℕ) : ℤ) / (blockTokens : ℤ)) = n := by
    push_cast
    rw [← Int.neg_mul, Int.mul_ediv_cancel _ hB, neg_neg]
  rw [hdiv]
  have hn : (max 0 (n : ℤ)).toNat = n := by omega
  rw [hn]

theorem kvBlocks_length (blockTokens : ℕ) (prompt : List ℕ) (count : ℕ) :
    (kvBlocks blockTokens prompt count : List (KV κ)).length = count := by
  unfold kvBlocks
  rw [List.length_map, List.length_range]

/-- The positions of block `j` of a prompt of `tokens`. -/
def blockPositions (blockTokens tokens j : ℕ) : List ℕ :=
  ((List.range tokens).drop (j * blockTokens)).take blockTokens

/-- Block `i` of the prompt past `first` whole blocks is block `first + i` of it. -/
theorem kvBlocks_getElem? (blockTokens tokens first count i : ℕ) (h : i < count) :
    (kvBlocks blockTokens ((List.range tokens).drop (first * blockTokens)) count :
      List (KV κ))[i]? = some (.computed (blockPositions blockTokens tokens (first + i))) := by
  unfold kvBlocks blockPositions
  rw [List.getElem?_map, List.getElem?_range h, Option.map_some, List.drop_drop]
  have hsum : first * blockTokens + i * blockTokens = (first + i) * blockTokens :=
    (Nat.add_mul first i blockTokens).symm
  rw [hsum]

/-! ## §4. What pricing says about blocks. -/

/-- What a plan counts, in blocks of a chain: the keys it pulls run from the local
prefix to the match, and there is a source exactly when there are any. -/
structure Plan.Fits (plan : Plan ι κ) (blockTokens : ℕ) (request : Request ν κ) : Prop where
  matched : plan.matchBlocks ≤ request.blockKeys.length
  pulls : plan.pullKeys = (request.blockKeys.take plan.matchBlocks).drop plan.localBlocks
  source : plan.reuseSource.isSome ↔ plan.pullKeys ≠ []
  cached : plan.cachedTokens = min (plan.matchBlocks * blockTokens) request.promptTokens
  uncached : plan.uncachedTokens = request.promptTokens - plan.cachedTokens

section Fits

variable [LinearOrder ι] [DecidableEq κ]

theorem longestPrefixRun_le (present : List κ) : ∀ keys : List κ,
    longestPrefixRun present keys ≤ keys.length
  | [] => le_refl _
  | k :: rest => by
      unfold longestPrefixRun
      have ih := longestPrefixRun_le present rest
      by_cases hk : k ∈ present
      · rw [if_pos hk, List.length_cons]
        omega
      · rw [if_neg hk]
        omega

omit [LinearOrder ι] in
/-- Every block within a run is present. -/
theorem mem_of_take_run (present : List κ) : ∀ (keys : List κ) (n : ℕ),
    n ≤ longestPrefixRun present keys → ∀ key ∈ keys.take n, key ∈ present
  | [], n, _, key, hkey => by
      rw [List.take_nil] at hkey
      cases hkey
  | k :: rest, 0, _, key, hkey => by cases hkey
  | k :: rest, n + 1, hle, key, hkey => by
      unfold longestPrefixRun at hle
      by_cases hk : k ∈ present
      · rw [if_pos hk] at hle
        rw [List.take_succ_cons] at hkey
        rcases List.mem_cons.mp hkey with rfl | hkey
        · exact hk
        · exact mem_of_take_run present rest n (by omega) key hkey
      · rw [if_neg hk] at hle
        omega

/-- The run of an instance, where it has one. -/
theorem prefixLengthsOf_cases (located : κ → List ι) (keys : List κ) (inst : ι) :
    (prefixLengthsOf located keys).getD inst 0 = 0 ∨
      (prefixLengthsOf located keys).getD inst 0
        = longestPrefixRun (keys.filter fun key => inst ∈ located key) keys := by
  cases keys with
  | nil => exact .inl rfl
  | cons first rest =>
      unfold prefixLengthsOf Dict.getD Selection.dictOf
      rw [Selection.get?_foldl_map]
      by_cases hmem : inst ∈ sorted (located first)
      · rw [if_pos hmem]
        exact .inr rfl
      · rw [if_neg hmem]
        exact .inl rfl

/-- No run is longer than the chain. -/
theorem prefixLengthsOf_le (located : κ → List ι) (keys : List κ) (inst : ι) :
    (prefixLengthsOf located keys).getD inst 0 ≤ keys.length := by
  rcases prefixLengthsOf_cases located keys inst with h | h
  · rw [h]
    exact Nat.zero_le _
  · rw [h]
    exact longestPrefixRun_le _ _

/-- The directory lists an instance for every block it is counted at. -/
theorem located_of_counted (located : κ → List ι) (keys : List κ) (inst : ι) (n : ℕ)
    (hle : n ≤ (prefixLengthsOf located keys).getD inst 0) :
    ∀ key ∈ keys.take n, inst ∈ located key := by
  intro key hkey
  rcases prefixLengthsOf_cases located keys inst with hzero | hrun
  · rw [hzero] at hle
    obtain rfl : n = 0 := by omega
    cases hkey
  · rw [hrun] at hle
    have hmem := mem_of_take_run _ keys n hle key hkey
    rw [List.mem_filter, decide_eq_true_eq] at hmem
    exact hmem.2

omit [DecidableEq κ] in
/-- What `_priced_reuse` answers: a local match that pulls nothing, or a peer's longer
or shorter run with the keys in between. -/
theorem pricedReuse_cases (counts : Dict ι ℕ) (keys : List κ) (inst : ι) (peer : Ranked ι κ) :
    pricedReuse counts keys inst peer = (counts.getD inst 0, none, []) ∨
      ∃ src, pricedReuse counts keys inst peer = (counts.getD src 0, some src,
        (keys.take (counts.getD src 0)).drop (counts.getD inst 0)) := by
  unfold pricedReuse
  cases peer.head with
  | none => exact .inl rfl
  | some src =>
      by_cases hsrc : src = inst
      · exact .inl (if_pos hsrc)
      · exact .inr ⟨src, if_neg hsrc⟩

omit [LinearOrder ι] [DecidableEq κ] in
/-- What a candidate is, where its source and its pull go together. -/
theorem candidate_eq (p : Pricing ι) (cluster : ClusterSensor ι) (request : Request ν κ)
    (inst : ι) (now : ℚ) (reused : ℕ) (source : Option ι) (pullKeys : List κ)
    (h : source = none → pullKeys = []) :
    let plan := candidate p cluster request inst now reused source pullKeys
    plan.matchBlocks = reused ∧ plan.pullKeys = pullKeys ∧
      (plan.reuseSource.isSome ↔ pullKeys ≠ []) ∧
      plan.cachedTokens = min (reused * p.blockTokens) request.promptTokens ∧
      plan.uncachedTokens = request.promptTokens - plan.cachedTokens := by
  cases source with
  | none =>
      rw [h rfl]
      exact ⟨rfl, rfl, by simp [candidate], rfl, rfl⟩
  | some src =>
      cases pullKeys with
      | nil => exact ⟨rfl, rfl, by simp [candidate], rfl, rfl⟩
      | cons k rest => exact ⟨rfl, rfl, by simp [candidate], rfl, rfl⟩

/-- **What one plan counts.**  It fits the chain, and the local blocks it counts on are
within the run of its own instance. -/
theorem planOn_fits {p : Pricing ι} {cluster : ClusterSensor ι} {request : Request ν κ} {now : ℚ}
    {located : κ → List ι} {peer : Ranked ι κ} {inst : ι} {plan : Plan ι κ}
    (h : planOn p cluster ⟨request, now, request.blockKeys,
      prefixLengthsOf located request.blockKeys, peer⟩ inst = .ok plan) :
    plan.Fits p.blockTokens request ∧
      plan.localBlocks ≤ (prefixLengthsOf located request.blockKeys).getD inst 0 := by
  unfold planOn at h
  cases hpeer : peer.require (worthPulling (prefixLengthsOf located request.blockKeys) inst
      p.threshold) with
  | error e =>
      rw [hpeer] at h
      cases h
  | ok named =>
      rw [hpeer] at h
      have hle := prefixLengthsOf_le located request.blockKeys
      set counts := prefixLengthsOf located request.blockKeys
      have hplan := Except.ok.inj h
      subst hplan
      -- reuse of its own run alone, or of a longer run of a peer
      rcases pricedReuse_cases counts request.blockKeys inst named with hr | ⟨src, hr⟩
      · simp only [hr]
        obtain ⟨hm, hp, hs, hc, hu⟩ := candidate_eq p cluster request inst now
          (counts.getD inst 0) none [] fun _ => rfl
        have hlocal : (candidate p cluster request inst now (counts.getD inst 0) none
            []).localBlocks = counts.getD inst 0 := by
          unfold Plan.localBlocks
          rw [hm, hp]
          rfl
        refine ⟨⟨?_, ?_, ?_, ?_, hu⟩, le_of_eq hlocal⟩
        · rw [hm]
          exact hle inst
        · rw [hp, hm, hlocal, List.drop_take_self]
        · rw [hp]
          exact hs
        · rw [hc, hm]
      · simp only [hr]
        set pull := (request.blockKeys.take (counts.getD src 0)).drop (counts.getD inst 0)
          with hpull
        obtain ⟨hm, hp, hs, hc, hu⟩ := candidate_eq p cluster request inst now
          (counts.getD src 0) (some src) pull fun hnone => absurd hnone (Option.some_ne_none src)
        have hlen : pull.length = counts.getD src 0 - counts.getD inst 0 := by
          rw [hpull, List.length_drop, List.length_take]
          have := hle src
          omega
        have hlocal : (candidate p cluster request inst now (counts.getD src 0) (some src)
            pull).localBlocks = min (counts.getD src 0) (counts.getD inst 0) := by
          unfold Plan.localBlocks
          rw [hm, hp, hlen]
          omega
        refine ⟨⟨?_, ?_, ?_, ?_, hu⟩, ?_⟩
        · rw [hm]
          exact hle src
        · -- a shorter run than its own leaves nothing to pull
          rw [hp, hm, hlocal, hpull]
          rcases Nat.le_total (counts.getD inst 0) (counts.getD src 0) with hcmp | hcmp
          · rw [Nat.min_eq_right hcmp]
          · rw [Nat.min_eq_left hcmp, List.drop_take_self]
            apply List.drop_eq_nil_of_le
            rw [List.length_take]
            omega
        · rw [hp]
          exact hs
        · rw [hc, hm]
        · rw [hlocal]
          exact Nat.min_le_right _ _

/-- **Every plan of a pricing fits its request.** -/
theorem priced_fits [DecidableEq ν] {cfg : Settings ι} {s : Scheduler ν ι κ}
    {located : κ → List ι} {now : ℚ} {request : Request ν κ} {requester : ι}
    {plan : ι → Plan ι κ}
    (h : Scheduler.Prices cfg s located now request requester plan) (inst : ι) :
    (plan inst).Fits cfg.blockTokens request ∧
      (plan inst).localBlocks ≤ (prefixLengthsOf located request.blockKeys).getD inst 0 := by
  obtain ⟨peer, _, hplan⟩ := h
  exact planOn_fits (hplan inst)

omit [DecidableEq κ] in
/-- A pool that names an instance twice prices nobody. -/
theorem prefill_repeated {cfg : Settings ι} {s : Scheduler ν ι κ} {ask : PrefillAsk ν ι κ}
    {plan : ι → Plan ι κ} (hplan : ∀ inst, planOn cfg.pricing s.cluster ask inst =
      .ok (plan inst)) (hrep : ¬ cfg.prefillIds.Nodup) (requester : ι) :
    Scheduler.prefill cfg s ask requester = .error .repeated := by
  have hpriced : priced cfg.pricing s.cluster ask requester = .error .repeated := by
    unfold priced
    rw [Scheduler.plansOf_eq hplan]
    show Selection.priced _ none = _
    unfold Selection.priced Selection.keyed Selection.namedOnce
    have hmap : (((cfg.prefillIds.map fun inst => (inst, (Dim.plan (plan inst) : Dim ι κ))).map
        fun c => (c.1, [c.2])).map Prod.fst) = cfg.prefillIds := by
      rw [List.map_map, List.map_map]
      exact List.map_id _
    rw [show cfg.pricing.instances = cfg.prefillIds from rfl, hmap, if_neg hrep]
    rfl
  unfold Scheduler.prefill
  cases cfg.rank with
  | load =>
      show Except.bind _ _ = _
      simp only [Selector.annotate, hpriced]
      rfl
  | ttft =>
      show Except.bind _ _ = _
      simp only [hpriced]
      rfl

/-- **The plan of an answer** that no earlier decision placed is the one its prefill
host was priced at. -/
theorem price_plan [DecidableEq ν] {cfg : Settings ι} {s : Scheduler ν ι κ}
    {located : κ → List ι} {now : ℚ} {request : Request ν κ} {requester : ι}
    {d : Scheduler.Decided ν ι κ} {response : Response ι κ}
    (h : Scheduler.price cfg s located now request requester = .ok d)
    (hanswer : d.answer = some response) :
    ∃ plan, Scheduler.Prices cfg s located now request requester plan ∧
      response.plan = plan response.prefill := by
  obtain ⟨plan, hplan⟩ := Scheduler.prices_total cfg s located now request requester
  refine ⟨plan, hplan, ?_⟩
  obtain ⟨peer, hpeer, hplan⟩ := hplan
  unfold Scheduler.price at h
  rw [hpeer] at h
  simp only [Except.bind] at h
  by_cases hnodup : cfg.prefillIds.Nodup
  · obtain ⟨ranked, hranked, hj⟩ := Scheduler.prefill_judged hplan hnodup requester
    rw [hranked] at h
    simp only at h
    by_cases hab : ranked.Abstains
    · rw [if_pos hab, Except.ok.injEq] at h
      subst h
      cases hanswer
    · rw [if_neg hab] at h
      have hwin : ∃ host, Scheduler.winner ranked = some (host, .plan (plan host)) := by
        rcases hj with ⟨_, habs⟩ | ⟨host, _, ⟨_, _, hwin⟩ | ⟨_, habs⟩⟩
        · exact absurd habs hab
        · exact ⟨host, hwin⟩
        · exact absurd habs hab
      obtain ⟨host, hwin⟩ := hwin
      rw [hwin] at h
      simp only at h
      -- the decode side decides who decodes, never the plan
      split at h
      · cases h
      · next decoders _ =>
          by_cases hd : decoders.Abstains
          · rw [if_pos hd, Except.ok.injEq] at h
            subst h
            cases hanswer
          · rw [if_neg hd] at h
            split at h
            · rw [Except.ok.injEq] at h
              subst h
              cases hanswer
              rfl
            · cases h
  · rw [prefill_repeated hplan hnodup] at h
    cases h

/-! ## §5. Every block under its own key. -/

omit [LinearOrder ι] [DecidableEq κ] in
/-- A plan pulls what it matched past its local prefix. -/
theorem Plan.Fits.pull_length {plan : Plan ι κ} {blockTokens : ℕ} {request : Request ν κ}
    (h : plan.Fits blockTokens request) :
    plan.localBlocks ≤ plan.matchBlocks ∧
      plan.pullKeys.length = plan.matchBlocks - plan.localBlocks := by
  have hle : plan.localBlocks ≤ plan.matchBlocks := Nat.sub_le _ _
  refine ⟨hle, ?_⟩
  have hlen := congrArg List.length h.pulls
  rw [List.length_drop, List.length_take, Nat.min_eq_left h.matched] at hlen
  exact hlen

omit [LinearOrder ι] [DecidableEq κ] in
/-- The pass over the prompt past `first` whole blocks of a chain of `n`. -/
theorem forward_eq {blockTokens : ℕ} (hB : blockTokens ≠ 0) (n first : ℕ)
    (cached : List (KV κ)) :
    forward blockTokens ((List.range (blockTokens * n)).drop (first * blockTokens)) cached =
      .ok (cached ++ kvBlocks blockTokens
        ((List.range (blockTokens * n)).drop (first * blockTokens)) (n - first)) := by
  unfold forward
  have hlen : ((List.range (blockTokens * n)).drop (first * blockTokens)).length
      = (n - first) * blockTokens := by
    rw [List.length_drop, List.length_range, Nat.sub_mul, Nat.mul_comm blockTokens n]
  rw [hlen, blocksFor_mul hB]
  rfl

/-- What a prefill of `request` by `plan` published: one block for each key past the
local prefix, the pulled ones as they arrived under the keys they were pulled for and
the computed ones over the positions of their own blocks, with the row adding up. -/
structure Filled.Files (blockTokens : ℕ) (fetched : Bool) (request : Request ν κ)
    (plan : Plan ι κ) (run : Filled ν ι κ) : Prop where
  reused : run.reused = request.blockKeys.take plan.localBlocks
  fresh : run.fresh = request.blockKeys.drop plan.localBlocks
  count : run.kv.length = run.fresh.length
  pulls : plan.pullKeys = run.fresh.take plan.pullKeys.length
  filed : ∀ i key, run.fresh[i]? = some key → run.kv[i]? = some
    (if fetched = true ∧ i < plan.pullKeys.length then .stored key
      else .computed (blockPositions blockTokens request.promptTokens (plan.localBlocks + i)))
  named : run.named = run.fresh.zip run.kv
  tokens : run.row.cachedTokens + run.row.uncachedTokens = request.promptTokens

omit [LinearOrder ι] [DecidableEq κ] in
/-- Blocks that line up with the keys past the local prefix are all published. -/
theorem publish_eq (room : Bool) {keys : List κ} {blocks : List (KV κ)}
    (h : blocks.length = keys.length) :
    ∃ kept, publish room keys blocks = .ok (kept, keys.zip blocks) := by
  unfold publish
  by_cases hnil : keys = []
  · subst hnil
    exact ⟨true, rfl⟩
  · rw [if_neg hnil, if_pos h.symm]
    exact ⟨room, rfl⟩

/-- The keys whose blocks came in. -/
def Plan.arrived (fetched : Bool) (plan : Plan ι κ) : List κ :=
  if fetched then plan.pullKeys else []

omit [LinearOrder ι] in
/-- The blocks a prefill starts from: those it pulled, or none; what is left to compute
begins right after them, at a whole block. -/
theorem pulled_eq {blockTokens : ℕ} {request : Request ν κ} {response : Response ι κ}
    (hfits : response.plan.Fits blockTokens request)
    (htokens : request.promptTokens = blockTokens * request.blockKeys.length)
    (cost : ℕ → ℚ) (fetched : Bool) :
    ∃ uncached row, pulled cost blockTokens fetched request response.plan
        (makeAccepted request response)
          = (uncached, (response.plan.arrived fetched).map .stored, row) ∧
      request.promptTokens - uncached
        = (response.plan.localBlocks + (response.plan.arrived fetched).length) * blockTokens ∧
      row.cachedTokens + row.uncachedTokens = request.promptTokens := by
  set plan := response.plan
  obtain ⟨hle, hlen⟩ := hfits.pull_length
  have hmatched := hfits.matched
  -- what reusing `m` whole blocks leaves of the prompt
  have hleft : ∀ m, m ≤ request.blockKeys.length →
      min (m * blockTokens) request.promptTokens = m * blockTokens ∧
      request.promptTokens - (request.promptTokens - m * blockTokens) = m * blockTokens := by
    intro m hm
    have hmul : m * blockTokens ≤ request.promptTokens := by
      rw [htokens, Nat.mul_comm blockTokens]
      exact Nat.mul_le_mul_right _ hm
    omega
  have hcached : plan.cachedTokens = plan.matchBlocks * blockTokens := by
    rw [hfits.cached]
    exact (hleft _ hmatched).1
  have huncached : plan.uncachedTokens
      = request.promptTokens - plan.matchBlocks * blockTokens := by
    rw [hfits.uncached, hcached]
  have hsum : plan.cachedTokens + plan.uncachedTokens = request.promptTokens := by
    have := hfits.cached
    have := hfits.uncached
    omega
  unfold pulled
  by_cases hpull : plan.pullKeys = []
  · -- nothing to pull: the local prefix is the match
    have harrived : plan.arrived fetched = [] := by
      unfold Plan.arrived
      cases fetched with
      | true => exact hpull
      | false => rfl
    rw [hpull, List.length_nil] at hlen
    have hlocal : plan.localBlocks = plan.matchBlocks := by omega
    refine ⟨plan.uncachedTokens, makeAccepted request response, ?_, ?_, hsum⟩
    · rw [if_neg fun h => h.2 hpull, harrived]
      rfl
    · rw [huncached, (hleft _ hmatched).2, harrived, hlocal]
      rfl
  · rw [if_pos ⟨hfits.source.mpr hpull, hpull⟩]
    cases fetched with
    | true =>
        refine ⟨plan.uncachedTokens, makeAccepted request response, rfl, ?_, hsum⟩
        rw [huncached, (hleft _ hmatched).2]
        have hsplit : plan.localBlocks + plan.pullKeys.length = plan.matchBlocks := by omega
        show _ = (plan.localBlocks + plan.pullKeys.length) * blockTokens
        rw [hsplit]
    | false =>
        -- the reuse vanished: only the local prefix is still cached
        have hlocal := hleft plan.localBlocks (hle.trans hmatched)
        refine ⟨_, _, rfl, ?_, ?_⟩
        · show request.promptTokens - (request.promptTokens
            - min (plan.localBlocks * blockTokens) request.promptTokens) = _
          rw [hlocal.1]
          exact hlocal.2
        · show min (plan.localBlocks * blockTokens) request.promptTokens + (request.promptTokens
            - min (plan.localBlocks * blockTokens) request.promptTokens) = _
          omega

omit [LinearOrder ι] in
/-- **One served prefill**, pull or no pull, whole or vanished. -/
theorem prefill_filed {blockTokens : ℕ} (hB : blockTokens ≠ 0) {request : Request ν κ}
    {response : Response ι κ} (hfits : response.plan.Fits blockTokens request)
    (htokens : request.promptTokens = blockTokens * request.blockKeys.length)
    (cost : ℕ → ℚ) (fetched room : Bool) :
    ∃ run, prefill cost blockTokens fetched room request response = .ok run ∧
      run.Files blockTokens fetched request response.plan := by
  obtain ⟨uncached, row, hpulled, hoffset, hsum⟩ := pulled_eq hfits htokens cost fetched
  obtain ⟨hle, hlen⟩ := hfits.pull_length
  have hmatched := hfits.matched
  set plan := response.plan with hplan
  have hfirst : plan.localBlocks + (plan.arrived fetched).length ≤ request.blockKeys.length := by
    have : (plan.arrived fetched).length ≤ plan.pullKeys.length := by
      unfold Plan.arrived
      cases fetched <;> simp
    omega
  -- the pass answers with the pulled blocks, then one per block of the rest
  have hpass := forward_eq hB request.blockKeys.length
    (plan.localBlocks + (plan.arrived fetched).length) ((plan.arrived fetched).map KV.stored)
  rw [← htokens, ← hoffset] at hpass
  set computed : List (KV κ) := kvBlocks blockTokens ((List.range request.promptTokens).drop
    (request.promptTokens - uncached))
    (request.blockKeys.length - (plan.localBlocks + (plan.arrived fetched).length)) with hcomputed
  have hcount : ((plan.arrived fetched).map KV.stored ++ computed).length
      = (request.blockKeys.drop plan.localBlocks).length := by
    rw [List.length_append, List.length_map, hcomputed, kvBlocks_length, List.length_drop]
    omega
  obtain ⟨kept, hpublish⟩ := publish_eq room hcount
  refine ⟨⟨request.blockKeys.take plan.localBlocks, request.blockKeys.drop plan.localBlocks,
    (plan.arrived fetched).map .stored ++ computed,
    (request.blockKeys.drop plan.localBlocks).zip ((plan.arrived fetched).map .stored ++ computed),
    { row with published := kept }⟩, ?_, rfl, rfl, hcount, ?_,
    ?_, rfl, hsum⟩
  · unfold prefill
    simp only [← hplan, hpulled]
    rw [request.prompt_len, hpass]
    simp only [Except.bind]
    rw [hpublish]
    rfl
  · -- the keys pulled are the first unpublished ones
    show plan.pullKeys = (request.blockKeys.drop plan.localBlocks).take plan.pullKeys.length
    rw [hlen]
    have hpulls := hfits.pulls
    rw [List.drop_take] at hpulls
    exact hpulls
  · intro i key hkey
    show ((plan.arrived fetched).map KV.stored ++ computed)[i]? = _
    by_cases hi : i < (plan.arrived fetched).length
    · have hfetched : fetched = true := by
        cases fetched with
        | true => rfl
        | false => exact absurd hi (Nat.not_lt_zero i)
      subst hfetched
      have hsame : plan.arrived true = plan.pullKeys := rfl
      rw [hsame] at hi
      rw [List.getElem?_append_left (by rw [List.length_map, hsame]; exact hi),
        List.getElem?_map, hsame, if_pos ⟨rfl, hi⟩]
      have hget : plan.pullKeys[i]? = some key := by
        have hpulls := hfits.pulls
        rw [hpulls, List.drop_take, List.getElem?_take_of_lt (by omega)]
        exact hkey
      rw [hget]
      rfl
    · have hneg : ¬ (fetched = true ∧ i < plan.pullKeys.length) := by
        rintro ⟨rfl, hlt⟩
        exact hi hlt
      have hbound : plan.localBlocks + i < request.blockKeys.length := by
        have := (List.getElem?_eq_some_iff.mp hkey).1
        rw [List.length_drop] at this
        omega
      rw [if_neg hneg, List.getElem?_append_right (by rw [List.length_map]; omega),
        List.length_map, hcomputed, hoffset,
        kvBlocks_getElem? _ _ _ _ _ (by omega)]
      have hindex : plan.localBlocks + (plan.arrived fetched).length
          + (i - (plan.arrived fetched).length) = plan.localBlocks + i := by
        omega
      rw [hindex]

/-- **Every block of every prefill is filed under its own key.**  For every plan a
pricing prices, on every instance, and either outcome of the pull: a prefill of whole
blocks answers with one block for each key past the plan's local blocks, so publishing
never refuses their number; the first are the ones pulled, under the keys pulled, the
rest those computed over their own keys' tokens; and the row's tokens are the prompt's.
With no tokens to a block the accelerator divides by zero. -/
theorem prefill_files [DecidableEq ν] {cfg : Settings ι} {s : Scheduler ν ι κ}
    {located : κ → List ι} {now : ℚ} {request : Request ν κ} {requester : ι}
    {plan : ι → Plan ι κ}
    (hplan : Scheduler.Prices cfg s located now request requester plan)
    (htokens : request.promptTokens = cfg.blockTokens * request.blockKeys.length)
    (host decoder : ι) (tbt : ℚ) (cost : ℕ → ℚ) (fetched room : Bool) :
    (cfg.blockTokens = 0 ∧ prefill cost cfg.blockTokens fetched room request
      ⟨host, decoder, plan host, tbt⟩ = .error .zeroDivision) ∨
    ∃ run, prefill cost cfg.blockTokens fetched room request
        ⟨host, decoder, plan host, tbt⟩ = .ok run ∧
      run.Files cfg.blockTokens fetched request (plan host) := by
  by_cases hB : cfg.blockTokens = 0
  · refine .inl ⟨hB, ?_⟩
    unfold prefill forward blocksFor
    simp only [hB, if_true]
    rfl
  · refine .inr (prefill_filed hB ?_ htokens cost fetched room)
    exact (priced_fits hplan host).1

end Fits

/-- Two instances that may pull from each other, a token to a block. -/
def peersConfig : Settings ℕ :=
  { baselineConfig with reuse := .peers, rank := .ttft, blockTokens := 1 }

/-- Instance 0 holds the first block of four and instance 1 the first three: instance 0
is priced at pulling the two between, and computes the last. -/
theorem prefill_files_pulled :
    let request : Request ℕ ℕ := ⟨7, 0, [10, 11, 12, 13], 4, 1, 4, "", rfl⟩
    let located : ℕ → List ℕ := fun key =>
      if key = 10 then [0, 1] else if key ≤ 12 then [1] else []
    ∃ plan, Scheduler.Prices peersConfig (Scheduler.attach peersConfig) located 0 request 0 plan ∧
      (plan 0).pullKeys = [11, 12] ∧
      ∃ run, prefill (fun _ => 0) 1 true true request ⟨0, 0, plan 0, 0⟩ = .ok run ∧
        run.fresh = [11, 12, 13] ∧ run.kv[2]? = some (.computed [3]) := by
  intro request located
  obtain ⟨plan, hplan⟩ := Scheduler.prices_total peersConfig (Scheduler.attach peersConfig)
    located 0 request 0
  have hpull : ((Scheduler.reuse peersConfig (Scheduler.attach peersConfig : Scheduler ℕ ℕ ℕ)
      located request.blockKeys 0).toOption.bind fun peer =>
        (planOn peersConfig.pricing (Scheduler.attach peersConfig : Scheduler ℕ ℕ ℕ).cluster
          (⟨request, 0, request.blockKeys, prefixLengthsOf located request.blockKeys, peer⟩ :
            PrefillAsk ℕ ℕ ℕ) 0).toOption.map fun p => (p.pullKeys, p.localBlocks))
      = some ([11, 12], 1) := by
    decide +kernel
  have hplan0 : ((plan 0).pullKeys, (plan 0).localBlocks) = ([11, 12], 1) := by
    obtain ⟨peer, hpeer, heach⟩ := hplan
    rw [hpeer] at hpull
    simp only [Except.toOption, Option.bind_some] at hpull
    rw [heach 0] at hpull
    exact Option.some.inj hpull
  obtain ⟨hkeys, hlocal⟩ := Prod.mk.injEq _ _ _ _ ▸ hplan0
  rcases prefill_files hplan rfl 0 0 0 (fun _ => 0) true true with ⟨h, _⟩ | ⟨run, hrun, hfiles⟩
  · exact absurd h (by decide)
  · have hfresh : run.fresh = [11, 12, 13] := by
      rw [hfiles.fresh, hlocal]
      rfl
    refine ⟨plan, hplan, hkeys, run, hrun, hfresh, ?_⟩
    have hfiled := hfiles.filed 2 13 (by rw [hfresh]; rfl)
    rw [hfiled, hkeys, hlocal]
    rfl

end Toso.KvCache
