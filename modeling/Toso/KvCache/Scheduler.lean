/-
  Toso.KvCache.Scheduler — one scheduler, two presets.

  One plane asked at two moments: `decide`, where a request should run, and
  `sources`, who serves a fetch.  A decision is two selections, and a refusal is
  `none`.  What the plane writes, it writes by dispatching actions; the one
  thing it keeps itself is `placed`, the answers it sent requests away with.

  Main results:
    * `decide_cases` — a decision replays what it placed, refuses and writes
      nothing, or books one response and dispatches it once.
    * `fetch_total` — answering a fetch never raises.
    * `sources_eq` — a fetch with a routed pull is answered with its peer, and
      answering is dispatched.
-/
import Toso.KvCache.Rankings
import Mathlib.Data.List.Lex

namespace Toso.KvCache

open Lib Proposed SimCommon Domain

/-! ## §1. Settings. -/

/-- `Reuse`: where a candidate may pull a prefix from while it is priced. -/
inductive Reuse
  | peers
  | none
  deriving DecidableEq

/-- `Rank`: which number orders the priced prefill pool. -/
inductive Rank
  | ttft
  | load
  deriving DecidableEq

/-- `Source`: which holders of a prefix a fetch is answered with. -/
inductive Source
  | longest
  | spread
  deriving DecidableEq

/-- `Occupancy`: which decode occupancy the TBT SLO is judged against. -/
inductive Occupancy
  | early
  | predict
  deriving DecidableEq

/-- What a scheduler is built with and attached to.  A pool that is `[]` names no
subset; an SLO that is `none` is infinite. -/
structure Settings (ι : Type*) where
  /-- The instances of the run, sorted. -/
  ids : List ι
  endpoint : ι → Endpoint
  reuse : Reuse
  rank : Rank
  balanceThreshold : ℚ
  source : Source
  blockTokens : ℕ
  profile : MachineProfile
  model : Model
  decodePool : List ι
  prefillPool : List ι
  sloTtft : Option ℚ
  sloTbt : Option ℚ
  simulateDecode : Bool
  earlyRejection : Occupancy

variable {ν ι κ : Type*}

namespace Settings

variable [LinearOrder ι]

/-- `prefill_ids` once attached. -/
def prefillIds (cfg : Settings ι) : List ι :=
  if cfg.prefillPool = [] then cfg.ids else sorted cfg.prefillPool

/-- `decode_ids` once attached. -/
def decodeIds (cfg : Settings ι) : List ι :=
  if cfg.decodePool = [] then cfg.ids else sorted cfg.decodePool

/-- `_lookahead`: does this run roll decode occupancy forward? -/
def lookahead (cfg : Settings ι) : Bool :=
  cfg.simulateDecode && decide (cfg.earlyRejection = .predict)

/-- What the prefill pool is priced with. -/
def pricing (cfg : Settings ι) : Pricing ι :=
  ⟨cfg.prefillIds, cfg.blockTokens, cfg.profile, cfg.model, cfg.balanceThreshold, cfg.endpoint⟩

/-- What the decode pool is ranked with. -/
def decodeBatch (cfg : Settings ι) : DecodeBatch ι :=
  ⟨cfg.decodeIds, cfg.simulateDecode, cfg.lookahead, cfg.profile, cfg.model⟩

end Settings

/-! ## §2. The plane and its chains. -/

/-- What a scheduler holds: its sensors and `_placed`.  `reserved` is composed
exactly in a run that rolls occupancy forward. -/
structure Scheduler (ν ι κ : Type*) where
  cluster : ClusterSensor ι
  routed : RoutedPullSensor ι κ
  load : SourceLoad ι
  reserved : Option (ReservationSensor ι)
  placed : Dict ν (Response ι κ)

namespace Scheduler

/-- `attach`: every sensor empty. -/
def attach [LinearOrder ι] (cfg : Settings ι) : Scheduler ν ι κ :=
  ⟨.new, ⟨[]⟩, ⟨fun _ => 0⟩, if cfg.lookahead then some ⟨[]⟩ else none, Dict.empty⟩

section Dispatch

variable [DecidableEq ι] [DecidableEq κ]

/-- `dispatch_sync`: every sensor that folds the action has folded it. -/
def dispatch (s : Scheduler ν ι κ) (action : Action ι κ) : Scheduler ν ι κ :=
  { s with
    cluster := s.cluster.fold action
    routed := s.routed.fold action
    load := s.load.fold action
    reserved := s.reserved.map fun r => r.fold action }

@[simp] theorem dispatch_placed (s : Scheduler ν ι κ) (action : Action ι κ) :
    (s.dispatch action).placed = s.placed := rfl

@[simp] theorem dispatch_routed (s : Scheduler ν ι κ) (action : Action ι κ) :
    (s.dispatch action).routed = s.routed.fold action := rfl

@[simp] theorem dispatch_cluster (s : Scheduler ν ι κ) (action : Action ι κ) :
    (s.dispatch action).cluster = s.cluster.fold action := rfl

@[simp] theorem dispatch_reserved (s : Scheduler ν ι κ) (action : Action ι κ) :
    (s.dispatch action).reserved = s.reserved.map fun r => r.fold action := rfl

end Dispatch

variable [LinearOrder ι] [DecidableEq κ]

/-- `_source_ranking`. -/
def sourceRanking (cfg : Settings ι) (s : Scheduler ν ι κ) (located : κ → List ι) :
    Ranking (List κ) ι κ :=
  match cfg.source with
  | .longest => longestPrefix located
  | .spread => Selector.pipe
      (Selector.annotate (fun _ source => .count (s.load.named source)) (longestPrefix located))
      [Selector.withFold (some (byPrefixAndLoad 1))]

/-- `_reuse`: which peer a candidate may pull the prefix from. -/
def reuse (cfg : Settings ι) (s : Scheduler ν ι κ) (located : κ → List ι) :
    Ranking (List κ) ι κ :=
  Selector.pipe
    (match cfg.reuse with
      | .peers => sourceRanking cfg s located
      | .none => localOnly)
    [Selection.best stand]

/-- `_fetch`: the pull already priced, else whoever holds the longest prefix. -/
def fetch (cfg : Settings ι) (s : Scheduler ν ι κ) (located : κ → List ι) :
    Ranking (List κ) ι κ :=
  Selector.pipe (Selector.firstMatch [routedPull s.routed, sourceRanking cfg s located])
    [Selection.ordered stand]

/-- `_prefill`: which host prefills. -/
def prefill (cfg : Settings ι) (s : Scheduler ν ι κ) : Ranking (PrefillAsk ν ι κ) ι κ :=
  match cfg.rank with
  | .load => Selector.pipe
      (Selector.annotate (fun _ inst => .time (s.cluster.busyUntil inst))
        (priced cfg.pricing s.cluster))
      [Selector.withFold (some byQueue), Selection.best stand,
        Selection.bounded (ttftAtMost cfg.sloTtft)]
  | .ttft => Selector.pipe (priced cfg.pricing s.cluster)
      [Selector.withFold (some byTtft), Selection.bounded (ttftAtMost cfg.sloTtft),
        Selection.best stand]

/-- `_decode`: which host decodes. -/
def decode (cfg : Settings ι) (s : Scheduler ν ι κ) (now : ℚ) : Ranking (Plan ι κ) ι κ :=
  Selector.pipe (decodeBatch cfg.decodeBatch s.cluster s.reserved now)
    [Selection.bounded (tbtAtMost cfg.sloTbt cfg.profile cfg.model cfg.simulateDecode),
      Selection.best stand]

/-! ## §3. The two questions. -/

/-- `sources`: which peers should serve `requester`'s fetch of `keys`.  Answering is
dispatched whichever link answered. -/
def sources (cfg : Settings ι) (s : Scheduler ν ι κ) (located : κ → List ι) (keys : List κ)
    (requester : ι) : Except SelectionError (Ranked ι κ × Scheduler ν ι κ) :=
  (fetch cfg s located keys requester).map fun answer =>
    (answer.settled, s.dispatch (.fetchAnswered requester keys))

/-- What one ask of `decide` comes to: its answer, what it dispatched, and the plane
it leaves. -/
structure Decided (ν ι κ : Type*) where
  answer : Option (Response ι κ)
  dispatched : List (Action ι κ)
  plane : Scheduler ν ι κ

/-- `key[head][0]` and the head: a winner and its first dimension. -/
def winner (s : Ranked ι κ) : Option (ι × Dim ι κ) :=
  s.head.bind fun head => (s.dims head).head?.map fun dim => (head, dim)

variable [DecidableEq ν]

/-- The end of `decide`: dispatch the commit, and remember a request it moved. -/
def book (s : Scheduler ν ι κ) (request : Request ν κ) (requester : ι)
    (response : Response ι κ) : Decided ν ι κ :=
  let action := Action.committed response request.outputTokens
  let plane := s.dispatch action
  ⟨some response, [action],
    if response.prefill = requester then plane
    else { plane with placed := plane.placed.set request.id response }⟩

section Book

variable (s : Scheduler ν ι κ) (request : Request ν κ) (requester : ι)
  (response : Response ι κ)

@[simp] theorem book_cluster : (s.book request requester response).plane.cluster =
    s.cluster.fold (.committed response request.outputTokens) := by
  unfold book
  by_cases h : response.prefill = requester <;> simp [h]

@[simp] theorem book_routed : (s.book request requester response).plane.routed =
    s.routed.fold (.committed response request.outputTokens) := by
  unfold book
  by_cases h : response.prefill = requester <;> simp [h]

@[simp] theorem book_reserved : (s.book request requester response).plane.reserved =
    s.reserved.map fun r => r.fold (.committed response request.outputTokens) := by
  unfold book
  by_cases h : response.prefill = requester <;> simp [h]

/-- What a booking remembers of itself: the request it moved. -/
theorem book_placed : (s.book request requester response).plane.placed =
    if response.prefill = requester then s.placed
    else s.placed.set request.id response := by
  unfold book
  by_cases h : response.prefill = requester <;> simp [h]

end Book

/-- `decide` of a request nobody placed: both selections. -/
def price (cfg : Settings ι) (s : Scheduler ν ι κ) (located : κ → List ι) (now : ℚ)
    (request : Request ν κ) (requester : ι) : Except SelectionError (Decided ν ι κ) :=
  (reuse cfg s located request.blockKeys requester).bind fun peer =>
  (prefill cfg s ⟨request, now, request.blockKeys, prefixLengthsOf located request.blockKeys,
      peer⟩ requester).bind fun ranked =>
  if ranked.Abstains then .ok ⟨none, [], s⟩
  else match winner ranked with
    | some (host, .plan plan) =>
        (decode cfg s now plan requester).bind fun decoders =>
        if decoders.Abstains then .ok ⟨none, [], s⟩
        else match winner decoders with
          | some (instance', .count batch) => .ok (s.book request requester
              ⟨host, instance', plan,
                predTbt batch cfg.profile cfg.model cfg.simulateDecode⟩)
          | _ => .error .dimension
    | _ => .error .dimension

/-- `decide`: where should `request` run?  `located` is the directory pinned for the
decision and `now` its clock. -/
def decide (cfg : Settings ι) (s : Scheduler ν ι κ) (located : κ → List ι) (now : ℚ)
    (request : Request ν κ) (requester : ι) : Except SelectionError (Decided ν ι κ) :=
  match s.placed.get? request.id with
  | some placed => .ok ⟨some placed, [], { s with placed := s.placed.erase request.id }⟩
  | none => price cfg s located now request requester

/-! ## §4. Answering a fetch never raises. -/

omit [DecidableEq ν] in
/-- Every source a source ranking names is keyed at something its fold reads. -/
theorem sourceRanking_eq (cfg : Settings ι) (s : Scheduler ν ι κ) (located : κ → List ι)
    (keys : List κ) (requester : ι) : ∃ (r : Ranked ι κ) (c : ι → List ℚ),
      sourceRanking cfg s located keys requester = .ok r ∧ r.sources = some r.named ∧
      ∀ source ∈ r.named, ∃ key dims, r.key = some key ∧ key.get? source = some dims ∧
        (r.fold.getD stand) dims = .ok (c source) := by
  obtain ⟨r, hr, hsources, hfold, hnodup, hkey⟩ := longestPrefix_eq located keys requester
  unfold sourceRanking
  cases cfg.source with
  | longest =>
      refine ⟨r, fun source => [-((prefixLengthsOf located keys).getD source 0 : ℤ)], hr,
        hsources, ?_⟩
      intro source hs
      obtain ⟨key, hk, hget⟩ := hkey source hs
      refine ⟨key, _, hk, hget, ?_⟩
      rw [hfold]
      simp [stand, Except.map]
  | spread =>
      -- an empty ranking has nothing to annotate and keeps its key as it is
      by_cases hnone : r.named = []
      · refine ⟨{ r with fold := some (byPrefixAndLoad 1) }, fun _ => [], ?_, hsources, ?_⟩
        · show Except.bind (Selector.annotate _ _ keys requester) _ = _
          unfold Selector.annotate
          rw [hr]
          show Except.bind (.ok (if r.named = [] then r else _)) _ = _
          rw [if_pos hnone]
          rfl
        · intro source hs
          change source ∈ r.named at hs
          rw [hnone] at hs
          cases hs
      · refine ⟨{ r.annotated (fun source => .count (s.load.named source)) with
            fold := some (byPrefixAndLoad 1) }, fun source =>
            [((-((prefixLengthsOf located keys).getD source 0 : ℤ) +
              min (s.load.named source : ℤ) 1 : ℤ) : ℚ), (s.load.named source : ℤ)], ?_,
          hsources, ?_⟩
        · show Except.bind (Selector.annotate _ _ keys requester) _ = _
          unfold Selector.annotate
          rw [hr]
          show Except.bind (.ok (if r.named = [] then r else _)) _ = _
          rw [if_neg hnone]
          rfl
        · intro source hs
          change source ∈ r.named at hs
          obtain ⟨key, hk, hget⟩ := hkey source hs
          obtain ⟨key', hk', hget'⟩ :=
            Selection.annotated_key (fun source => .count (s.load.named source)) hnodup hs
          have hdims : r.dims source =
              [.count (-((prefixLengthsOf located keys).getD source 0 : ℤ))] := by
            unfold Selection.dims
            rw [hk, Option.bind_some, hget]
            rfl
          rw [hdims] at hget'
          exact ⟨key', _, hk', hget', rfl⟩

omit [DecidableEq ν] in
/-- **Answering a fetch never raises.** -/
theorem fetch_total (cfg : Settings ι) (s : Scheduler ν ι κ) (located : κ → List ι)
    (keys : List κ) (requester : ι) : ∃ r, fetch cfg s located keys requester = .ok r := by
  unfold fetch Selector.pipe Selector.firstMatch Selector.firstMatchFrom
  rw [routedPull_eq]
  cases s.routed.peer requester keys with
  | some peer => exact ⟨_, rfl⟩
  | none =>
      obtain ⟨r, c, hr, _, hc⟩ := sourceRanking_eq cfg s located keys requester
      have hordered := Selection.ordered_eq c hc
      show ∃ q, Except.bind (Selector.firstMatchFrom keys requester
        [sourceRanking cfg s located] .abstain) (Selection.ordered stand) = .ok q
      have hlink : Selector.firstMatchFrom keys requester [sourceRanking cfg s located]
          .abstain = .ok (r.otherwise .abstain) := by
        unfold Selector.firstMatchFrom
        rw [hr]
        by_cases ha : (r.otherwise .abstain).Abstains
        · show (if _ then _ else _) = _
          rw [if_pos ha]
          rfl
        · show (if _ then _ else _) = _
          rw [if_neg ha]
      rw [hlink]
      by_cases ha : r.Abstains
      · refine ⟨.abstain, ?_⟩
        show Selection.ordered stand (r.otherwise .abstain) = _
        unfold Selection.otherwise
        rw [if_pos ha]
        rfl
      · show ∃ q, Selection.ordered stand (r.otherwise .abstain) = .ok q
        unfold Selection.otherwise
        rw [if_neg ha]
        cases ho : Selection.ordered stand r with
        | ok q => exact ⟨q, rfl⟩
        | error e =>
            rw [ho] at hordered
            cases hordered

/-! ## §5. What they do. -/

/-- What pricing a request comes to: a refusal that wrote nothing, or one booking. -/
theorem price_cases {cfg : Settings ι} {s : Scheduler ν ι κ} {located : κ → List ι} {now : ℚ}
    {request : Request ν κ} {requester : ι} {d : Decided ν ι κ}
    (h : price cfg s located now request requester = .ok d) :
    d = ⟨none, [], s⟩ ∨ ∃ response, d = s.book request requester response := by
  unfold price at h
  cases hpeer : reuse cfg s located request.blockKeys requester with
  | error e =>
      rw [hpeer] at h
      cases h
  | ok peer =>
      rw [hpeer] at h
      simp only [Except.bind] at h
      split at h
      · cases h
      · next ranked hranked =>
          by_cases ha : ranked.Abstains
          · rw [if_pos ha, Except.ok.injEq] at h
            exact .inl h.symm
          · rw [if_neg ha] at h
            split at h
            · next host plan hwin =>
                split at h
                · cases h
                · next decoders hdecode =>
                    by_cases hd : decoders.Abstains
                    · rw [if_pos hd, Except.ok.injEq] at h
                      exact .inl h.symm
                    · rw [if_neg hd] at h
                      split at h
                      · rw [Except.ok.injEq] at h
                        exact .inr ⟨_, h.symm⟩
                      · cases h
            · cases h

/-- **What a decision does**: replay what was placed, refuse and write nothing, or
book one response. -/
theorem decide_cases {cfg : Settings ι} {s : Scheduler ν ι κ} {located : κ → List ι} {now : ℚ}
    {request : Request ν κ} {requester : ι} {d : Decided ν ι κ}
    (h : decide cfg s located now request requester = .ok d) :
    (∃ placed, s.placed.get? request.id = some placed ∧
      d = ⟨some placed, [], { s with placed := s.placed.erase request.id }⟩) ∨
    (s.placed.get? request.id = none ∧ d = ⟨none, [], s⟩) ∨
    (s.placed.get? request.id = none ∧
      ∃ response, d = s.book request requester response) := by
  unfold decide at h
  cases hp : s.placed.get? request.id with
  | some placed =>
      rw [hp] at h
      simp only [Except.ok.injEq] at h
      exact .inl ⟨placed, rfl, h.symm⟩
  | none =>
      rw [hp] at h
      rcases price_cases h with hd | hd
      · exact .inr (.inl ⟨rfl, hd⟩)
      · exact .inr (.inr ⟨rfl, hd⟩)

/-- A raise comes of pricing, before anything was written. -/
theorem decide_error {cfg : Settings ι} {s : Scheduler ν ι κ} {located : κ → List ι} {now : ℚ}
    {request : Request ν κ} {requester : ι} {e : SelectionError}
    (h : decide cfg s located now request requester = .error e) :
    s.placed.get? request.id = none := by
  unfold decide at h
  cases hp : s.placed.get? request.id with
  | some placed =>
      rw [hp] at h
      cases h
  | none => rfl

omit [DecidableEq ν] in
/-- **What answering a fetch does**: it is dispatched whoever answered, and a fetch
with a routed pull is answered with the peer it was priced against. -/
theorem sources_eq (cfg : Settings ι) (s : Scheduler ν ι κ) (located : κ → List ι)
    (keys : List κ) (requester : ι) : ∃ answer : Ranked ι κ,
      sources cfg s located keys requester =
        .ok (answer, s.dispatch (.fetchAnswered requester keys)) ∧
      ∀ peer, s.routed.peer requester keys = some peer → answer.head = some peer := by
  obtain ⟨r, hr⟩ := fetch_total cfg s located keys requester
  refine ⟨r.settled, ?_, ?_⟩
  · unfold sources
    rw [hr]
    rfl
  · intro peer hpeer
    have hlink := routedPull_eq s.routed keys requester
    rw [hpeer] at hlink
    have hfetch : fetch cfg s located keys requester =
        .ok ⟨some [peer], none, none, none⟩ := by
      unfold fetch Selector.pipe Selector.firstMatch Selector.firstMatchFrom
      rw [hlink]
      rfl
    rw [hfetch] at hr
    cases hr
    rfl

end Scheduler

end Toso.KvCache
