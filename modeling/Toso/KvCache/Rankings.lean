/-
  Toso.KvCache.Rankings — every ranking KV-cache routing decides with.

  Three over keys: the peers holding a prefix, nobody, and the pull that was
  already priced for a fetch.  Two over the plane's own values: the prefill pool
  keyed at each candidate's plan, and the decode pool keyed at the batch a plan's
  completion would meet.  Each keys its candidates and orders none of them.

  Main results:
    * `routedPull_eq` — a fetch with a routed pull is answered with its peer.
-/
import Toso.Proposed.Selection
import Toso.Domain.Llm
import Toso.KvCache.Request
import Toso.KvCache.Sensors

namespace Toso.KvCache

open Lib Proposed SimCommon Domain

/-! ## §1. Dimensions, folds and bounds. -/

/-- One dimension of a key: a count, a time, or a candidate's whole plan. -/
inductive Dim (ι κ : Type*)
  | count (n : ℤ)
  | time (t : ℚ)
  | plan (p : Plan ι κ)
  deriving DecidableEq

/-- A ranking of this control plane: none carries a gate. -/
abbrev Ranking (σ ι κ : Type*) := Selector σ ι ι (Dim ι κ) (List ℚ) Empty

/-- An answer of this control plane. -/
abbrev Ranked (ι κ : Type*) := Selection ι (Dim ι κ) (List ℚ) Empty

variable {ι κ ν : Type*}

/-- Dimensions compared as they stand: numbers do, plans do not. -/
def stand : List (Dim ι κ) → Except SelectionError (List ℚ)
  | [] => .ok []
  | .count n :: rest => (stand rest).map fun qs => (n : ℚ) :: qs
  | .time t :: rest => (stand rest).map fun qs => t :: qs
  | .plan _ :: _ => .error .dimension

/-- `by_prefix_and_load`: a source docked a block per read routed at it, up to
`bound`. -/
def byPrefixAndLoad (bound : ℤ) : List (Dim ι κ) → Except SelectionError (List ℚ)
  | [.count run, .count load] => .ok [((run + min load bound : ℤ) : ℚ), (load : ℚ)]
  | _ => .error .dimension

/-- `_by_ttft`. -/
def byTtft : List (Dim ι κ) → Except SelectionError (List ℚ)
  | .plan p :: _ => .ok [p.ttft]
  | _ => .error .dimension

/-- `_by_queue`. -/
def byQueue : List (Dim ι κ) → Except SelectionError (List ℚ)
  | _ :: .time busy :: _ => .ok [busy]
  | _ => .error .dimension

/-- A figure held to an SLO; `none` is no bound at all. -/
def atMost (slo : Option ℚ) (figure : ℚ) : Bool :=
  match slo with
  | none => true
  | some most => decide (figure ≤ most)

/-- `_ttft_at_most`. -/
def ttftAtMost (sloTtft : Option ℚ) : List (Dim ι κ) → Except SelectionError Bool
  | .plan p :: _ => .ok (atMost sloTtft p.ttft)
  | _ => .error .dimension

/-- `_pred_tbt`: the gap a request joining a batch sees. -/
def predTbt (batch : ℤ) (profile : MachineProfile) (model : Model) (enabled : Bool) : ℚ :=
  if enabled then decodeStepTime (batch + 1) profile model else 0

theorem predTbt_mono {a b : ℤ} (h : a ≤ b) (profile : MachineProfile) (model : Model)
    (enabled : Bool) : predTbt a profile model enabled ≤ predTbt b profile model enabled := by
  unfold predTbt
  cases enabled with
  | false => exact le_rfl
  | true => exact decodeStepTime_mono (by omega) profile model

/-- What meets an SLO still does when it shrinks. -/
theorem atMost_of_le {slo : Option ℚ} {a b : ℚ} (h : atMost slo a = true) (hle : b ≤ a) :
    atMost slo b = true := by
  unfold atMost at h ⊢
  cases slo with
  | none => rfl
  | some most => exact decide_eq_true (hle.trans (of_decide_eq_true h))

/-- `_tbt_at_most`. -/
def tbtAtMost (sloTbt : Option ℚ) (profile : MachineProfile) (model : Model)
    (enabled : Bool) : List (Dim ι κ) → Except SelectionError Bool
  | .count batch :: _ => .ok (atMost sloTbt (predTbt batch profile model enabled))
  | _ => .error .dimension

/-! ## §2. Prefix runs. -/

section Prefix

variable [LinearOrder ι] [DecidableEq κ]

/-- `_longest_prefix_run`: how many leading blocks are present. -/
def longestPrefixRun (present : List κ) : List κ → ℕ
  | [] => 0
  | k :: rest => if k ∈ present then longestPrefixRun present rest + 1 else 0

/-- `sorted`. -/
def sorted (l : List ι) : List ι := l.insertionSort (· ≤ ·)

/-- `prefix_lengths_of`: per instance, the leading blocks it holds contiguously.
`located key` names the holders of a key. -/
def prefixLengthsOf (located : κ → List ι) (keys : List κ) : Dict ι ℕ :=
  match keys with
  | [] => Dict.empty
  | first :: _ => Selection.dictOf ((sorted (located first)).map fun inst =>
      (inst, longestPrefixRun (keys.filter fun key => inst ∈ located key) keys))

/-! ## §3. Which peers serve a prefix. -/

/-- `LongestPrefixKeySelector`: keyed at the negated run. -/
def longestPrefix (located : κ → List ι) : Ranking (List κ) ι κ := fun keys _ =>
  let counts := prefixLengthsOf located keys
  if counts.entries = [] then .ok .abstain
  else Selection.keyed (counts.entries.map fun e => (e.1, [.count (-(e.2 : ℤ))])) none

/-- The longest-prefix ranking keys each source it names at its negated run. -/
theorem longestPrefix_eq (located : κ → List ι) (keys : List κ) (requester : ι) :
    ∃ s : Ranked ι κ, longestPrefix located keys requester = .ok s ∧
      s.sources = some s.named ∧ s.fold = none ∧ s.named.Nodup ∧ ∀ source ∈ s.named, ∃ key, s.key = some key ∧
        key.get? source =
          some [.count (-((prefixLengthsOf located keys).getD source 0 : ℤ))] := by
  unfold longestPrefix
  by_cases hempty : (prefixLengthsOf located keys).entries = []
  · refine ⟨.abstain, by rw [if_pos hempty], rfl, rfl, List.nodup_nil, ?_⟩
    intro source hs
    cases hs
  · set counts := prefixLengthsOf located keys with hcounts
    have hfst : (counts.entries.map fun e => (e.1, [(Dim.count (-(e.2 : ℤ)) : Dim ι κ)])).map
        Prod.fst = counts.entries.map Prod.fst := by
      rw [List.map_map]
      rfl
    have hnodup := counts.nodup
    rw [← hfst] at hnodup
    refine ⟨_, (if_neg hempty).trans (Selection.keyed_eq _ none hnodup), rfl, rfl, hnodup, ?_⟩
    intro source hs
    refine ⟨_, rfl, ?_⟩
    change source ∈ List.map Prod.fst _ at hs
    rw [hfst] at hs
    obtain ⟨e, he, rfl⟩ := List.mem_map.mp hs
    have hrun : counts.get? e.1 = some e.2 := (Dict.get?_eq_some_iff counts e.1 e.2).mpr he
    apply (Selection.get?_dictOf hnodup _ _).mpr
    refine List.mem_map.mpr ⟨e, he, ?_⟩
    rw [Dict.getD, hrun]
    rfl

/-- `LocalOnly`: name nobody, ever. -/
def localOnly : Ranking (List κ) ι κ := fun _ _ => .ok .abstain

/-- `RoutedPull`: the peer a fetch's pull was already priced against. -/
def routedPull (routed : RoutedPullSensor ι κ) : Ranking (List κ) ι κ :=
  fun keys requester => Selection.of (routed.peer requester keys).toList none

/-- A fetch with a routed pull is answered with its peer, keyed by nothing. -/
theorem routedPull_eq (routed : RoutedPullSensor ι κ) (keys : List κ) (requester : ι) :
    routedPull routed keys requester =
      .ok ⟨some (routed.peer requester keys).toList, none, none, none⟩ := by
  unfold routedPull Selection.of Selection.namedOnce
  cases routed.peer requester keys with
  | none => rw [if_pos (by simp)]; rfl
  | some peer => rw [if_pos (by simp)]; rfl

end Prefix

/-! ## §4. The prefill pool, priced. -/

/-- `PrefillAsk`: what pricing one prefill pool takes. -/
structure PrefillAsk (ν ι κ : Type*) where
  request : Request ν κ
  now : ℚ
  keys : List κ
  counts : Dict ι ℕ
  /-- What the reuse ranking named. -/
  peer : Ranked ι κ

/-- What `Priced` is built with, and the environment it prices against. -/
structure Pricing (ι : Type*) where
  instances : List ι
  blockTokens : ℕ
  profile : MachineProfile
  model : Model
  threshold : ℚ
  endpoint : ι → Endpoint

section Priced

variable [DecidableEq ι]

/-- `_worth_pulling`: the head's run is more than `threshold` times `inst`'s. -/
def worthPulling (counts : Dict ι ℕ) (inst : ι) (threshold : ℚ) (head : ι) : Bool :=
  decide ((counts.getD inst 0 : ℚ) * threshold < counts.getD head 0)

/-- `_priced_reuse`: the match, the source and the keys to pull. -/
def pricedReuse (counts : Dict ι ℕ) (keys : List κ) (inst : ι) (peer : Ranked ι κ) :
    ℕ × Option ι × List κ :=
  match peer.head with
  | none => (counts.getD inst 0, none, [])
  | some src =>
      if src = inst then (counts.getD inst 0, none, [])
      -- the ranking that named `src` keyed these same runs, so it has one
      else (counts.getD src 0, some src,
        (keys.take (counts.getD src 0)).drop (counts.getD inst 0))

/-- `_predict`: queue wait, TTFT and completion, reserving nothing. -/
def predict (cluster : ClusterSensor ι) (inst : ι) (now transferT prefillT : ℚ) :
    ℚ × ℚ × ℚ :=
  let avail := max now (cluster.busyUntil inst)
  let done := avail + transferT + prefillT
  (avail - now, done - now, done)

/-- `_candidate`: price prefilling `request` on `inst`, reusing `reused` blocks. -/
def candidate (p : Pricing ι) (cluster : ClusterSensor ι) (request : Request ν κ) (inst : ι)
    (now : ℚ) (reused : ℕ) (source : Option ι) (pullKeys : List κ) : Plan ι κ :=
  let cached := min (reused * p.blockTokens) request.promptTokens
  let uncached := request.promptTokens - cached
  let prefillT := prefillTime uncached p.profile p.model
  let (source, xbytes, transferT) : Option ι × ℕ × ℚ :=
    match source with
    | some src =>
        if pullKeys = [] then (none, 0, 0)
        else
          let xbytes := p.model.blockBytes pullKeys.length p.blockTokens
          (some src, xbytes, readTime (p.endpoint src) (p.endpoint inst) xbytes p.profile)
    | none => (none, 0, 0)
  let (queueWait, ttft, done) := predict cluster inst now transferT prefillT
  ⟨reused, cached, uncached, source, xbytes, queueWait, ttft, done, prefillT, pullKeys⟩

/-- `_plan`: which peer `inst` would pull from, and what that comes to. -/
def planOn (p : Pricing ι) (cluster : ClusterSensor ι) (ask : PrefillAsk ν ι κ) (inst : ι) :
    Except SelectionError (Plan ι κ) :=
  (ask.peer.require (worthPulling ask.counts inst p.threshold)).map fun peer =>
    let (reused, source, pullKeys) := pricedReuse ask.counts ask.keys inst peer
    candidate p cluster ask.request inst ask.now reused source pullKeys

/-- Each instance of a pool with its plan. -/
def plansOf (p : Pricing ι) (cluster : ClusterSensor ι) (ask : PrefillAsk ν ι κ) :
    List ι → Except SelectionError (List (ι × Dim ι κ))
  | [] => .ok []
  | inst :: rest => (planOn p cluster ask inst).bind fun plan =>
      (plansOf p cluster ask rest).map fun plans => (inst, .plan plan) :: plans

/-- `Priced`: the pool keyed by nothing, then annotated with each plan. -/
def priced (p : Pricing ι) (cluster : ClusterSensor ι) : Ranking (PrefillAsk ν ι κ) ι κ :=
  fun ask _ => (plansOf p cluster ask p.instances).bind fun plans =>
    Selection.priced plans none

/-! ## §5. The decode pool, at its predicted batch. -/

/-- What `DecodeBatch` is built with. -/
structure DecodeBatch (ι : Type*) where
  instances : List ι
  tbtEnabled : Bool
  lookahead : Bool
  profile : MachineProfile
  model : Model

/-- The test `_predicted_batch` makes of one reservation: it joins `d` by `doneTime`
and is still decoding there. -/
def Reservation.Joins (b : DecodeBatch ι) (d : ι) (doneTime : ℚ) (res : Reservation ι) : Prop :=
  res.decodeId = d ∧ res.prefillDone ≤ doneTime ∧
    doneTime < res.prefillDone
      + (max 0 (res.outputTokens - 1) : ℤ) * decodeStepTime 1 b.profile b.model

instance (b : DecodeBatch ι) (d : ι) (doneTime : ℚ) :
    DecidablePred (Reservation.Joins b d doneTime) := fun res =>
  inferInstanceAs (Decidable (res.decodeId = d ∧ res.prefillDone ≤ doneTime ∧ doneTime < _))

/-- `_predicted_batch`: the batch seen by a request admitted at `doneTime`.
`reserved` is there exactly when the run rolls occupancy forward. -/
def predictedBatch (b : DecodeBatch ι) (cluster : ClusterSensor ι)
    (reserved : Option (ReservationSensor ι)) (now : ℚ) (d : ι) (doneTime : ℚ) : ℕ :=
  if b.tbtEnabled then
    if b.lookahead then
      cluster.predictOccupancy d doneTime
        + (((reserved.map fun s => s.pending now).getD []).countP fun res =>
            decide (res.Joins b d doneTime))
    else cluster.occupancy d
  else 0

/-- `DecodeBatch`: every instance of the pool at its predicted batch. -/
def decodeBatch (b : DecodeBatch ι) (cluster : ClusterSensor ι)
    (reserved : Option (ReservationSensor ι)) (now : ℚ) : Ranking (Plan ι κ) ι κ :=
  fun plan _ => (Selection.of b.instances none).map fun pool =>
    pool.annotated fun d => .count (predictedBatch b cluster reserved now d plan.doneTime)

end Priced

end Toso.KvCache
