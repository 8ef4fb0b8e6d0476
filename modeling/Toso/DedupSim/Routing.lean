/-
  Toso.DedupSim.Routing — the routing decision of a dedup read-through.

  A decision declares its own publication, ranks the live and pending sources of
  the batch, takes a cover out of the ranking, and parks a gate on every pending
  publication of that cover.  Readers publish in any order; decisions and
  publications are atomic, so a run is an interleaving of them.

  Main results:
    * `chain_eq` — the ranking is the admissible sources, sorted by figure.
    * `decide_cases`, `decide_total` — what a decision does, and that it never
      raises in a coherent state.
    * `waits_on_earlier` — every gate waits on strictly earlier publications in
      flight, so no readers wait in a circle.
-/
import Toso.DedupSim.Directory
import Toso.Proposed.Dispatcher
import Toso.Proposed.Selection
import Toso.Lib.Machine
import Mathlib.Data.List.Lex
import Mathlib.Logic.Relation

namespace Toso.DedupSim

open Lib Toso.Proposed

/-! ## §1. The ranking. -/

/-- The fabric weight of a chain, and of a spread. -/
def chainFabric : ℚ := 10
def spreadFabric : ℚ := 0

/-- What a run fixes: the directory calls, the environment's read times, and the
options of the plane. -/
structure Dedup (δ ρ ν : Type*) where
  controller : Controller δ ρ ν
  readTime : ν → ν → ℕ → ℚ
  fanoutCap : ℤ
  spread : Bool

variable {δ ρ ν : Type*}

/-- A ranking of publications: prices and loads, compared as tuples. -/
abbrev Ranking (ν : Type*) := Selection (Publication ν) ℚ (List ℚ) ℕ

namespace Dedup

/-- The fabric weight the plane ranks with. -/
def fabric (D : Dedup δ ρ ν) : ℚ := if D.spread then spreadFabric else chainFabric

/-- `_soonest`: the score behind everyone queued. -/
def soonest : List ℚ → Except SelectionError (List ℚ)
  | [score, queued] => .ok [score * (1 + queued)]
  | _ => .error .dimension

/-- A key without a fold is compared as it stands. -/
def stand : List ℚ → Except SelectionError (List ℚ) := .ok

/-- The fold of the chain, if it is a spread. -/
def fold (D : Dedup δ ρ ν) : Option (List ℚ → Except SelectionError (List ℚ)) :=
  if D.spread then some soonest else none

variable [DecidableEq ν]

/-- One candidate of `Candidates.select`, with its price, unless it is skipped. -/
def price (D : Dedup δ ρ ν) (fanout : FanoutSensor ν) (requester : ν)
    (source : Publication ν) : Option (Publication ν × ℚ) :=
  let hop := D.readTime source.volume requester 1
  if source.volume = requester then none
  else if source.pub = 0 then some (source, 0 + hop + D.fabric * hop)
  else if fanout.cap ≤ fanout.named source.volume then none
  else (fanout.arrival source).map fun wait => (source, wait + hop + D.fabric * hop)

/-- `Candidates.select`. -/
def candidates (D : Dedup δ ρ ν) (fanout : FanoutSensor ν) :
    Selector (List (Publication ν)) ν (Publication ν) ℚ (List ℚ) ℕ :=
  fun serving requester =>
    let priced := serving.filterMap (D.price fanout requester)
    if priced = [] then .ok .abstain else Selection.priced priced none

/-- `SourceBalance`: the candidates, each annotated with the load of its volume. -/
def sourceBalance (D : Dedup δ ρ ν) (fanout : FanoutSensor ν) :
    Selector (List (Publication ν)) ν (Publication ν) ℚ (List ℚ) ℕ :=
  Selector.annotate (fun _serving source => (fanout.named source.volume : ℚ))
    (D.candidates fanout)

end Dedup

variable [LinearOrder ν]

namespace Dedup

/-- The chain a decision selects with. -/
def chain (D : Dedup δ ρ ν) (fanout : FanoutSensor ν) :
    Selector (List (Publication ν)) ν (Publication ν) ℚ (List ℚ) ℕ :=
  Selector.pipe (D.sourceBalance fanout)
    [Selector.withFold D.fold, Selection.ordered stand]

end Dedup

/-! ## §2. The decision. -/

/-- `ReadPlan`: a ranked source preference, its publication and its gate. -/
structure ReadPlan (ν : Type*) where
  sources : List ν
  publication : Publication ν
  ready : Option ℕ
  deriving DecidableEq

omit [LinearOrder ν] in
/-- `ReadPlan.head`. -/
def ReadPlan.head (plan : ReadPlan ν) : Option ν := plan.sources.head?

/-- The sensors and dispatcher of a plane, and the plans it handed out. -/
structure State (δ ν : Type*) where
  sensor : DirectorySensor δ ν
  fanout : FanoutSensor ν
  dispatcher : Dispatcher (Action ν)
  plans : List (ReadPlan ν)

/-- What a decision can raise. -/
inductive DecisionError
  | selection (e : SelectionError)
  | gate (e : GateError)
  /-- The chain named no explicit order. -/
  | unordered
  /-- A ranked pending source has no arrival. -/
  | noArrival
  /-- A decrement found no counter. -/
  | noCounter
  deriving DecidableEq

namespace Dedup

/-- `_gate_publications`. -/
def gatePublications (chosen : List (Publication ν)) : List (Publication ν) :=
  chosen.filter (fun p => p.pub ≠ 0)

/-- When one source of a cover can have been read. -/
def contribution (D : Dedup δ ρ ν) (fanout : FanoutSensor ν) (requester : ν)
    (p : Publication ν) : Option ℚ :=
  (if p.pub = 0 then some 0 else fanout.arrival p).map fun arrival =>
    arrival + D.readTime p.volume requester 1

/-- `max(contributions, default=0.0)`. -/
def latest : List ℚ → ℚ
  | [] => 0
  | c :: cs => cs.foldl max c

/-- `dispatch_sync` of one action: its folds, then its commit. -/
def dispatch (D : Dedup δ ρ ν) (a : Action ν) (s : State δ ν) : Option (State δ ν) :=
  match a with
  | .asked p => some { s with
      sensor := s.sensor.asked p
      dispatcher := s.dispatcher.commit a }
  | .published p => (s.fanout.published p).map fun fanout => { s with
      sensor := s.sensor.published D.controller p
      fanout := fanout
      dispatcher := s.dispatcher.commit a }
  | .routed requesterPub sources gatePubs arrival =>
      (s.fanout.routed requesterPub sources gatePubs arrival).map fun fanout => { s with
        fanout := fanout
        dispatcher := s.dispatcher.commit a }

/-- `_committed`. -/
def committed (D : Dedup δ ρ ν) (requester : ν) (publication : Publication ν)
    (requests : List ρ) (ranking : Ranking ν) (s : State δ ν) :
    Except DecisionError (State δ ν × ReadPlan ν) :=
  match ranking.sources with
  | none => .error .unordered
  | some ranked =>
      let chosen := s.sensor.greedyCover D.controller requests ranked
      let sources := (chosen.map Publication.volume).eraseDups
      let gatePubs := gatePublications chosen
      match chosen.mapM (D.contribution s.fanout requester) with
      | none => .error .noArrival
      | some contributions =>
          match D.dispatch (.routed publication sources gatePubs (latest contributions)) s with
          | none => .error .noCounter
          | some s =>
              match Dispatcher.gate (!gatePubs.any s.sensor.isInFlight)
                  (gatePubs.map Action.published) s.dispatcher with
              | .error e => .error (.gate e)
              | .ok (dispatcher, ready) =>
                  .ok ({ s with
                    dispatcher := dispatcher
                    plans := s.plans ++ [⟨sources, publication, ready⟩] },
                    ⟨sources, publication, ready⟩)

/-- A decision's own declaration: the publication, and the state that asked. -/
def declared (D : Dedup δ ρ ν) (requests : List ρ) (requester : ν) (s : State δ ν) :
    Publication ν × State δ ν :=
  let (publication, sensor) := s.sensor.declare D.controller requester requests
  (publication, { s with
    sensor := sensor.asked publication
    dispatcher := s.dispatcher.commit (.asked publication) })

/-- `_decide`. -/
protected def decide (D : Dedup δ ρ ν) (requests : List ρ) (requester : ν) (s : State δ ν) :
    Except DecisionError (State δ ν × ReadPlan ν) :=
  let (publication, s) := D.declared requests requester s
  match D.chain s.fanout (s.sensor.servingUnion D.controller requests) requester with
  | .error e => .error (.selection e)
  | .ok ranking => D.committed requester publication requests ranking s

end Dedup

/-! ## §3. What the chain answers. -/

namespace Dedup

/-- A source the ranking does not skip. -/
def Admits (D : Dedup δ ρ ν) (fanout : FanoutSensor ν) (requester : ν)
    (source : Publication ν) : Bool :=
  (D.price fanout requester source).isSome

/-- The price of an admitted source. -/
def score (D : Dedup δ ρ ν) (fanout : FanoutSensor ν) (requester : ν)
    (source : Publication ν) : ℚ :=
  ((D.price fanout requester source).map Prod.snd).getD 0

/-- What orders an admitted source: its price and load, or the spread of both. -/
def figure (D : Dedup δ ρ ν) (fanout : FanoutSensor ν) (requester : ν)
    (source : Publication ν) : List ℚ :=
  if D.spread then [D.score fanout requester source * (1 + (fanout.named source.volume : ℚ))]
  else [D.score fanout requester source, (fanout.named source.volume : ℚ)]

theorem price_fst {D : Dedup δ ρ ν} {fanout : FanoutSensor ν} {requester : ν}
    {source : Publication ν} {c : Publication ν × ℚ}
    (h : D.price fanout requester source = some c) :
    c = (source, D.score fanout requester source) := by
  have hscore : D.score fanout requester source = c.2 := by
    unfold score
    rw [h]
    rfl
  have hfst : c.1 = source := by
    unfold price at h
    by_cases hv : source.volume = requester
    · simp only [if_pos hv] at h
      cases h
    · simp only [if_neg hv] at h
      by_cases hp : source.pub = 0
      · rw [if_pos hp, Option.some.injEq] at h
        rw [← h]
      · rw [if_neg hp] at h
        by_cases hcap : fanout.cap ≤ fanout.named source.volume
        · rw [if_pos hcap] at h
          cases h
        · rw [if_neg hcap, Option.map_eq_some_iff] at h
          obtain ⟨wait, _, hc⟩ := h
          rw [← hc]
  rw [hscore, ← hfst]

/-- **What the ranking admits**: nobody's own volume, every live copy, and a
pending publication whose volume has room and whose arrival is known. -/
theorem admits_iff (D : Dedup δ ρ ν) (fanout : FanoutSensor ν) (requester : ν)
    (source : Publication ν) :
    D.Admits fanout requester source = true ↔ source.volume ≠ requester ∧
      (source.pub = 0 ∨ (fanout.named source.volume < fanout.cap ∧
        ∃ wait, fanout.arrival source = some wait)) := by
  unfold Admits price
  by_cases hv : source.volume = requester
  · simp [hv]
  · by_cases hp : source.pub = 0
    · simp [hv, hp]
    · by_cases hcap : fanout.cap ≤ fanout.named source.volume
      · simp [hv, hp, hcap]
      · have hlt : fanout.named source.volume < fanout.cap := lt_of_not_ge hcap
        simp [hv, hp, hcap, hlt, Option.isSome_iff_exists]

/-- The candidates are the admitted sources in the order served. -/
theorem filterMap_price (D : Dedup δ ρ ν) (fanout : FanoutSensor ν) (requester : ν)
    (serving : List (Publication ν)) :
    serving.filterMap (D.price fanout requester)
      = (serving.filter (D.Admits fanout requester)).map
          fun source => (source, D.score fanout requester source) := by
  induction serving with
  | nil => rfl
  | cons source rest ih =>
      cases hprice : D.price fanout requester source with
      | none =>
          have hadm : D.Admits fanout requester source = false := by
            unfold Admits
            rw [hprice]
            rfl
          rw [List.filterMap_cons_none hprice, List.filter_cons_of_neg (by simp [hadm]), ih]
      | some c =>
          have hadm : D.Admits fanout requester source = true := by
            unfold Admits
            rw [hprice]
            rfl
          rw [List.filterMap_cons_some hprice, List.filter_cons_of_pos hadm, List.map_cons, ih,
            price_fst hprice]

/-- The balanced candidates: the admitted sources, each keyed at its price and
the load of its volume. -/
theorem sourceBalance_eq (D : Dedup δ ρ ν) (fanout : FanoutSensor ν)
    {serving : List (Publication ν)} (hnd : serving.Nodup) (requester : ν) :
    ∃ ranked, D.sourceBalance fanout serving requester = .ok ranked ∧
      ranked.sources = some (serving.filter (D.Admits fanout requester)) ∧
      ∀ source ∈ ranked.named, ∃ key, ranked.key = some key ∧
        key.get? source = some [D.score fanout requester source,
          (fanout.named source.volume : ℚ)] := by
  unfold sourceBalance Selector.annotate candidates
  rw [filterMap_price]
  by_cases hnil : serving.filter (D.Admits fanout requester) = []
  · rw [hnil]
    exact ⟨.abstain, rfl, rfl, fun source hs => by cases hs⟩
  · have hfst : ((serving.filter (D.Admits fanout requester)).map
        fun source => (source, D.score fanout requester source)).map Prod.fst
        = serving.filter (D.Admits fanout requester) := by
      simp [Function.comp_def]
    obtain ⟨s, hs, hsrc, _, _, hdims⟩ := Selection.priced_eq (ο := List ℚ) (ρ := ℕ)
      ((serving.filter (D.Admits fanout requester)).map
        fun source => (source, D.score fanout requester source)) none
      (by rw [hfst]; exact hnd.filter _)
    rw [hfst] at hsrc
    have hnamed : s.named = serving.filter (D.Admits fanout requester) := by
      rw [Selection.named, hsrc]
      rfl
    simp only [List.map_eq_nil_iff, if_neg hnil, hs, Except.map]
    rw [if_neg (by rw [hnamed]; exact hnil)]
    refine ⟨_, rfl, hsrc, ?_⟩
    intro source hsource
    have hmem : source ∈ s.named := hsource
    obtain ⟨key, hkey, hget⟩ := Selection.annotated_key
      (fun source => (fanout.named source.volume : ℚ)) (by rw [hnamed]; exact hnd.filter _) hmem
    refine ⟨key, hkey, ?_⟩
    rw [hget, hdims (source, D.score fanout requester source)
      (List.mem_map.mpr ⟨source, hnamed ▸ hmem, rfl⟩)]
    rfl

/-- **The chain answers the admitted sources, best first.** -/
theorem chain_eq (D : Dedup δ ρ ν) (fanout : FanoutSensor ν)
    {serving : List (Publication ν)} (hnd : serving.Nodup) (requester : ν) :
    ∃ ranking, D.chain fanout serving requester = .ok ranking ∧
      ranking.sources = some (Selection.rank (D.figure fanout requester)
        (serving.filter (D.Admits fanout requester))) := by
  obtain ⟨ranked, hranked, hsrc, hkey⟩ := D.sourceBalance_eq fanout hnd requester
  have hord : (Selection.ordered stand { ranked with fold := D.fold }).map Selection.sources
      = .ok (ranked.sources.map (Selection.rank (D.figure fanout requester))) := by
    apply Selection.ordered_eq
    intro source hs
    obtain ⟨key, hk, hget⟩ := hkey source hs
    refine ⟨key, _, hk, hget, ?_⟩
    unfold fold figure
    cases D.spread <;> rfl
  have hchain : D.chain fanout serving requester
      = Selection.ordered stand { ranked with fold := D.fold } := by
    show ((D.sourceBalance fanout serving requester).bind (Selector.withFold D.fold)).bind
      (Selection.ordered stand) = _
    rw [hranked]
    rfl
  rw [hchain]
  cases hres : Selection.ordered stand { ranked with fold := D.fold } with
  | error e =>
      rw [hres] at hord
      cases hord
  | ok ranking =>
      rw [hres] at hord
      refine ⟨ranking, rfl, ?_⟩
      have hsources := Except.ok.inj hord
      rw [hsources]
      show Option.map _ ranked.sources = _
      rw [hsrc]
      rfl

/-! ## §4. What a decision does. -/

/-- The ranking a decision covers from, once its own publication is declared. -/
def ranked (D : Dedup δ ρ ν) (requests : List ρ) (requester : ν) (s : State δ ν) :
    List (Publication ν) :=
  Selection.rank (D.figure s.fanout requester)
    (((D.declared requests requester s).2.sensor.servingUnion D.controller requests).filter
      (D.Admits s.fanout requester))

/-- The cover a decision chooses. -/
def chosen (D : Dedup δ ρ ν) (requests : List ρ) (requester : ν) (s : State δ ν) :
    List (Publication ν) :=
  (D.declared requests requester s).2.sensor.greedyCover D.controller requests
    (D.ranked requests requester s)

/-- **One decision**: what it hands out, and what it moves. -/
structure Decision (D : Dedup δ ρ ν) (requests : List ρ) (requester : ν) (s s' : State δ ν)
    (plan : ReadPlan ν) (arrival : ℚ) : Prop where
  publication : plan.publication = (D.declared requests requester s).1
  sources : plan.sources
    = ((D.chosen requests requester s).map Publication.volume).eraseDups
  plans : s'.plans = s.plans ++ [plan]
  sensor : s'.sensor = (D.declared requests requester s).2.sensor
  arrives : ((D.chosen requests requester s).mapM (D.contribution s.fanout requester)).map latest
    = some arrival
  routed : s.fanout.routed plan.publication plan.sources
    (gatePublications (D.chosen requests requester s)) arrival = some s'.fanout
  gate : Dispatcher.gate
    (!(gatePublications (D.chosen requests requester s)).any s'.sensor.isInFlight)
    ((gatePublications (D.chosen requests requester s)).map Action.published)
    ((s.dispatcher.commit (.asked plan.publication)).commit
      (.routed plan.publication plan.sources
        (gatePublications (D.chosen requests requester s)) arrival))
    = .ok (s'.dispatcher, plan.ready)

/-- What a committed ranking does, given the order it names. -/
theorem committed_cases {D : Dedup δ ρ ν} {requester : ν} {p : Publication ν}
    {requests : List ρ} {ranking : Ranking ν} {ranked : List (Publication ν)}
    (hranked : ranking.sources = some ranked) {s s' : State δ ν} {plan : ReadPlan ν}
    (h : D.committed requester p requests ranking s = .ok (s', plan)) :
    ∃ arrival fanout,
      ((s.sensor.greedyCover D.controller requests ranked).mapM
        (D.contribution s.fanout requester)).map latest = some arrival ∧
      s.fanout.routed p
        ((s.sensor.greedyCover D.controller requests ranked).map Publication.volume).eraseDups
        (gatePublications (s.sensor.greedyCover D.controller requests ranked)) arrival
        = some fanout ∧
      Dispatcher.gate
        (!(gatePublications (s.sensor.greedyCover D.controller requests ranked)).any
          s.sensor.isInFlight)
        ((gatePublications (s.sensor.greedyCover D.controller requests ranked)).map
          Action.published)
        (s.dispatcher.commit (.routed p
          ((s.sensor.greedyCover D.controller requests ranked).map
            Publication.volume).eraseDups
          (gatePublications (s.sensor.greedyCover D.controller requests ranked)) arrival))
        = .ok (s'.dispatcher, plan.ready) ∧
      s' = ⟨s.sensor, fanout, s'.dispatcher, s.plans ++ [plan]⟩ ∧
      plan = ⟨((s.sensor.greedyCover D.controller requests ranked).map
        Publication.volume).eraseDups, p, plan.ready⟩ := by
  unfold committed at h
  rw [hranked] at h
  simp only at h
  generalize hchosen : s.sensor.greedyCover D.controller requests ranked = chosen at h ⊢
  -- no contribution, no plan: the ranking named a volume without a copy
  cases hcon : chosen.mapM (D.contribution s.fanout requester) with
  | none =>
      rw [hcon] at h
      cases h
  | some contributions =>
      rw [hcon] at h
      simp only [dispatch] at h
      refine ⟨latest contributions, ?_⟩
      simp only [Option.map_some, true_and]
      cases hrouted : s.fanout.routed p (chosen.map Publication.volume).eraseDups
          (gatePublications chosen) (latest contributions) with
      | none =>
          rw [hrouted] at h
          cases h
      | some fanout =>
          rw [hrouted] at h
          simp only [Option.map_some] at h
          refine ⟨fanout, rfl, ?_⟩
          cases hgate : Dispatcher.gate (!(gatePublications chosen).any s.sensor.isInFlight)
              ((gatePublications chosen).map Action.published)
              (s.dispatcher.commit (.routed p (chosen.map Publication.volume).eraseDups
                (gatePublications chosen) (latest contributions))) with
          | error e =>
              rw [hgate] at h
              cases h
          | ok answer =>
              obtain ⟨dispatcher, ready⟩ := answer
              rw [hgate] at h
              cases h
              exact ⟨rfl, rfl, rfl⟩

/-- **Every decision that answers is one.** -/
theorem decide_cases {D : Dedup δ ρ ν} (hC : D.controller.Documented) {requests : List ρ}
    {requester : ν} {s s' : State δ ν} {plan : ReadPlan ν}
    (h : D.decide requests requester s = .ok (s', plan)) :
    ∃ arrival, D.Decision requests requester s s' plan arrival := by
  obtain ⟨ranking, hchain, hranked⟩ := D.chain_eq s.fanout
    (hC.serving_nodup requests (D.declared requests requester s).2.sensor.directory) requester
  have hstep : D.committed requester (D.declared requests requester s).1 requests ranking
      (D.declared requests requester s).2 = .ok (s', plan) := by
    have hfanout : (D.declared requests requester s).2.fanout = s.fanout := rfl
    have hserving : (D.declared requests requester s).2.sensor.servingUnion D.controller requests
        = D.controller.servingUnion requests
          (D.declared requests requester s).2.sensor.directory := rfl
    unfold Dedup.decide at h
    simp only [hfanout, hserving, hchain] at h
    exact h
  obtain ⟨arrival, fanout, hcon, hrouted, hgate, hs', hplan⟩ := committed_cases hranked hstep
  refine ⟨arrival, ?_, ?_, ?_, ?_, hcon, ?_, ?_⟩
  · rw [hplan]
  · rw [hplan]
    rfl
  · rw [hs']
    rfl
  · rw [hs']
  · rw [hs', hplan]
    exact hrouted
  · have hsensor : s'.sensor = (D.declared requests requester s).2.sensor := by rw [hs']
    rw [hsensor, hplan]
    exact hgate

/-! ## §5. What a cover is made of. -/

omit [LinearOrder ν] in
theorem mem_gatePublications {chosen : List (Publication ν)} {q : Publication ν} :
    q ∈ gatePublications chosen ↔ q ∈ chosen ∧ q.pub ≠ 0 := by
  simp [gatePublications]

/-- A cover names admitted sources it was served. -/
theorem admits_of_chosen {D : Dedup δ ρ ν} (hC : D.controller.Documented) {requests : List ρ}
    {requester : ν} {s : State δ ν} {q : Publication ν}
    (hq : q ∈ D.chosen requests requester s) :
    D.Admits s.fanout requester q = true ∧
      q ∈ (D.declared requests requester s).2.sensor.servingUnion D.controller requests := by
  have hsub : (D.chosen requests requester s).Sublist (D.ranked requests requester s) :=
    hC.cover _ _ _
  have hmem := (Selection.rank_perm _ _).mem_iff.mp (hsub.subset hq)
  rw [List.mem_filter] at hmem
  exact ⟨hmem.2, hmem.1⟩

/-- **A pending source of a cover was in flight before the decision**, and so
was declared strictly before it: the decision's own publication is in the
requester's volume, which the ranking skips. -/
theorem chosen_pending {D : Dedup δ ρ ν} (hC : D.controller.Documented) {requests : List ρ}
    {requester : ν} {s : State δ ν} (h : s.sensor.Tracks D.controller) {q : Publication ν}
    (hq : q ∈ gatePublications (D.chosen requests requester s)) :
    s.sensor.isInFlight q = true ∧ q.pub < (D.declared requests requester s).1.pub := by
  obtain ⟨hmem, hpub⟩ := mem_gatePublications.mp hq
  obtain ⟨hadm, hserved⟩ := admits_of_chosen hC hmem
  obtain ⟨hvol, hfresh, htracks, hflight⟩ := h.declared hC requester requests
  have hne : q ≠ (D.declared requests requester s).1 := by
    intro heq
    have hown := (D.admits_iff s.fanout requester q).mp hadm
    exact hown.1 (heq ▸ hvol)
  have hpending := (hC.serving _ _ q hserved).resolve_left hpub
  have hbefore := ((hflight q).mp ((htracks.pending q).mp hpending)).resolve_right hne
  have hgiven := h.given q.pub q (DirectorySensor.isInFlight_iff.mp hbefore)
  refine ⟨hbefore, ?_⟩
  exact lt_of_le_of_lt hgiven.2.2 hfresh

/-- A pending source of a cover has room at its volume and a known arrival. -/
theorem chosen_room {D : Dedup δ ρ ν} (hC : D.controller.Documented) {requests : List ρ}
    {requester : ν} {s : State δ ν} {q : Publication ν}
    (hq : q ∈ gatePublications (D.chosen requests requester s)) :
    s.fanout.named q.volume < s.fanout.cap ∧ ∃ wait, s.fanout.arrival q = some wait := by
  obtain ⟨hmem, hpub⟩ := mem_gatePublications.mp hq
  have hadm := (D.admits_iff s.fanout requester q).mp (admits_of_chosen hC hmem).1
  exact hadm.2.resolve_left hpub

theorem mapM_some {α β : Type*} (f : α → Option β) :
    ∀ l : List α, (∀ x ∈ l, ∃ y, f x = some y) → ∃ ys, l.mapM f = some ys
  | [], _ => ⟨[], rfl⟩
  | x :: l, h => by
      obtain ⟨y, hy⟩ := h x List.mem_cons_self
      obtain ⟨ys, hys⟩ := mapM_some f l fun z hz => h z (List.mem_cons_of_mem _ hz)
      refine ⟨y :: ys, ?_⟩
      rw [List.mapM_cons, hy, hys]
      rfl

/-- **A decision never raises** while the sensors are sound. -/
theorem decide_total {D : Dedup δ ρ ν} (hC : D.controller.Documented) {s : State δ ν}
    (hfanout : s.fanout.Sound) (requests : List ρ) (requester : ν) :
    ∃ s' plan, D.decide requests requester s = .ok (s', plan) := by
  obtain ⟨ranking, hchain, hranked⟩ := D.chain_eq s.fanout
    (hC.serving_nodup requests (D.declared requests requester s).2.sensor.directory) requester
  -- every chosen source has an arrival, and every counter is found
  obtain ⟨contributions, hcon⟩ := mapM_some (D.contribution s.fanout requester)
    (D.chosen requests requester s) (by
      intro q hq
      unfold contribution
      by_cases hpub : q.pub = 0
      · rw [if_pos hpub]
        exact ⟨_, rfl⟩
      · obtain ⟨_, wait, hwait⟩ := chosen_room hC (mem_gatePublications.mpr ⟨hq, hpub⟩)
        rw [if_neg hpub, hwait]
        exact ⟨_, rfl⟩)
  obtain ⟨fanout, hrouted, _⟩ := FanoutSensor.routed_sound hfanout (D.declared requests requester s).1
    ((D.chosen requests requester s).map Publication.volume).eraseDups
    (gatePublications (D.chosen requests requester s)) (latest contributions)
  obtain ⟨dispatcher, ready, hgate⟩ := Dispatcher.gate_total
    (!(gatePublications (D.chosen requests requester s)).any
      (D.declared requests requester s).2.sensor.isInFlight)
    ((gatePublications (D.chosen requests requester s)).map Action.published)
    ((D.declared requests requester s).2.dispatcher.commit
      (.routed (D.declared requests requester s).1
        ((D.chosen requests requester s).map Publication.volume).eraseDups
        (gatePublications (D.chosen requests requester s)) (latest contributions))) (by
      intro hnil
      rw [List.map_eq_nil_iff] at hnil
      rw [hnil]
      rfl)
  have hfan : (D.declared requests requester s).2.fanout = s.fanout := rfl
  have hserving : (D.declared requests requester s).2.sensor.servingUnion D.controller requests
      = D.controller.servingUnion requests
        (D.declared requests requester s).2.sensor.directory := rfl
  have hcov : (D.declared requests requester s).2.sensor.greedyCover D.controller requests
      (Selection.rank (D.figure s.fanout requester)
        ((D.controller.servingUnion requests
          (D.declared requests requester s).2.sensor.directory).filter
            (D.Admits s.fanout requester))) = D.chosen requests requester s := rfl
  have hplan : D.decide requests requester s = .ok
      (⟨(D.declared requests requester s).2.sensor, fanout, dispatcher, s.plans ++
        [⟨((D.chosen requests requester s).map Publication.volume).eraseDups,
          (D.declared requests requester s).1, ready⟩]⟩,
        ⟨((D.chosen requests requester s).map Publication.volume).eraseDups,
          (D.declared requests requester s).1, ready⟩) := by
    unfold Dedup.decide committed
    simp only [hfan, hserving, hchain, hranked, hcov, hcon, dispatch, hrouted, Option.map_some,
      hgate]
    rfl
  exact ⟨_, _, hplan⟩

/-! ## §6. Gates across one step. -/

/-- A gate parked before a decision misses nothing new after it. -/
theorem Decision.old_gate {D : Dedup δ ρ ν} {requests : List ρ} {requester : ν}
    {s s' : State δ ν} {plan : ReadPlan ν} {arrival : ℚ}
    (h : D.Decision requests requester s s' plan arrival) {n : ℕ}
    (hn : n < s.dispatcher.waiters.length) (hr : s.dispatcher.Registered n) :
    n < s'.dispatcher.waiters.length ∧ s'.dispatcher.Registered n ∧
      ∀ a ∈ s'.dispatcher.missing n, a ∈ s.dispatcher.missing n := by
  have hr₁ := hr.commit (.asked plan.publication)
  have hr₂ := hr₁.commit (.routed plan.publication plan.sources
    (gatePublications (D.chosen requests requester s)) arrival)
  have hlen : ∀ a b : Action ν,
      ((s.dispatcher.commit a).commit b).waiters.length = s.dispatcher.waiters.length := by
    intro a b
    rw [Dispatcher.length_commit, Dispatcher.length_commit]
  have hsub : ∀ a ∈ ((s.dispatcher.commit (.asked plan.publication)).commit
      (.routed plan.publication plan.sources
        (gatePublications (D.chosen requests requester s)) arrival)).missing n,
      a ∈ s.dispatcher.missing n := by
    intro a ha
    rw [Dispatcher.missing_commit hr₁, Dispatcher.missing_commit hr] at ha
    exact (List.mem_filter.mp (List.mem_filter.mp ha).1).1
  rcases Dispatcher.gate_cases h.gate with ⟨_, _, hle, _, hkeep⟩ | ⟨_, _, _, hpark⟩
  · rw [hlen] at hle
    obtain ⟨hmiss, hreg⟩ := hkeep n (by rw [hlen]; exact hn)
    refine ⟨by omega, hreg hr₂, ?_⟩
    rw [hmiss]
    exact hsub
  · have hlt : n < ((s.dispatcher.commit (.asked plan.publication)).commit
        (.routed plan.publication plan.sources
          (gatePublications (D.chosen requests requester s)) arrival)).waiters.length := by
      rw [hlen]
      exact hn
    rw [hpark]
    refine ⟨?_, hr₂.park hlt _, ?_⟩
    · show n < (_ ++ [_]).length
      rw [List.length_append]
      omega
    · rw [Dispatcher.missing_park, if_neg (Nat.ne_of_lt hlt)]
      exact hsub

/-- The gate of the plan a decision hands out waits on the pending sources of its
cover. -/
theorem Decision.new_gate {D : Dedup δ ρ ν} {requests : List ρ} {requester : ν}
    {s s' : State δ ν} {plan : ReadPlan ν} {arrival : ℚ}
    (h : D.Decision requests requester s s' plan arrival) {n : ℕ} (hn : plan.ready = some n) :
    n < s'.dispatcher.waiters.length ∧ s'.dispatcher.Registered n ∧
      ∀ a, a ∈ s'.dispatcher.missing n
        ↔ ∃ q ∈ gatePublications (D.chosen requests requester s), a = .published q := by
  rcases Dispatcher.gate_cases h.gate with ⟨hready, _⟩ | ⟨hready, _, _, hpark⟩
  · rw [hn] at hready
    cases hready
  · rw [hn, Option.some.injEq] at hready
    subst hready
    rw [hpark]
    refine ⟨?_, Dispatcher.registered_park _ _, ?_⟩
    · show _ < (_ ++ [_]).length
      rw [List.length_append]
      exact Nat.lt_succ_self _
    · intro a
      rw [Dispatcher.missing_park, if_pos rfl, List.mem_dedup, List.mem_map]
      constructor
      · intro ha
        obtain ⟨q, hq, rfl⟩ := ha
        exact ⟨q, hq, rfl⟩
      · intro ha
        obtain ⟨q, hq, rfl⟩ := ha
        exact ⟨q, hq, rfl⟩

theorem Decision.prompt {D : Dedup δ ρ ν} {requests : List ρ} {requester : ν}
    {s s' : State δ ν} {plan : ReadPlan ν} {arrival : ℚ}
    (h : D.Decision requests requester s s' plan arrival) (hs : s.dispatcher.Prompt) :
    s'.dispatcher.Prompt := by
  have hcommit := (hs.commit (.asked plan.publication)).commit
    (.routed plan.publication plan.sources
      (gatePublications (D.chosen requests requester s)) arrival)
  rcases Dispatcher.gate_cases h.gate with ⟨_, _, _, hkeep, _⟩ | ⟨_, _, hne, hpark⟩
  · exact hkeep hcommit
  · rw [hpark]
    exact hcommit.park hne

end Dedup

/-! ## §7. Runs. -/

/-- One step of a run: a decision, the completion of a publication a plan was
handed, or a write of another client to the directory. -/
inductive Event (δ ρ ν : Type*)
  | sources (requests : List ρ) (requester : ν)
  | published (p : Publication ν)
  | written (directory : δ)

namespace Dedup

/-- **The steps of a run.**  A completion may repeat, and may come before its
reader's own gate is open. -/
def Step (D : Dedup δ ρ ν) (s : State δ ν) : Event δ ρ ν → State δ ν → Prop
  | .sources requests requester, s' =>
      ∃ plan, D.decide requests requester s = .ok (s', plan)
  | .published p, s' =>
      (∃ plan ∈ s.plans, plan.publication = p) ∧ D.dispatch (.published p) s = some s'
  | .written directory, s' =>
      D.controller.Writes s.sensor.directory directory ∧
        s' = { s with sensor := { s.sensor with directory := directory } }

/-- A plane that has decided nothing, over a directory with nothing pending. -/
structure Fresh (D : Dedup δ ρ ν) (s : State δ ν) : Prop where
  pending : ∀ p, ¬ D.controller.pending s.sensor.directory p
  inFlight : s.sensor.inFlight = Dict.empty
  fanout : s.fanout = FanoutSensor.new D.fanoutCap
  dispatcher : s.dispatcher = Dispatcher.new
  plans : s.plans = []

/-- **Any interleaving** of decisions, completions and other clients' writes. -/
def machine (D : Dedup δ ρ ν) : Machine (State δ ν) (Event δ ρ ν) := ⟨D.Fresh, D.Step⟩

end Dedup

namespace State

/-- A publication is declared and has not landed. -/
def Unpublished (s : State δ ν) (p : Publication ν) : Prop := s.sensor.isInFlight p = true

/-- The actions the gate of a plan still misses. -/
def missing (s : State δ ν) (plan : ReadPlan ν) : List (Action ν) :=
  (plan.ready.map s.dispatcher.missing).getD []

/-- The reader of a plan is not held by its gate. -/
def Open (s : State δ ν) (plan : ReadPlan ν) : Prop :=
  ∀ n, plan.ready = some n → s.dispatcher.Released n

/-- **The wait-for relation**: `p` is unpublished and the gate of its plan still
misses the publication of `q`. -/
def WaitsFor (s : State δ ν) (p q : Publication ν) : Prop :=
  s.Unpublished p ∧ ∃ plan ∈ s.plans, plan.publication = p ∧ .published q ∈ s.missing plan

end State

/-! ## §8. Coherence of a run. -/

/-- **The invariant of every run**: the sensors are sound, ids name one
publication each, and a gate misses strictly earlier publications in flight. -/
structure Coherent (D : Dedup δ ρ ν) (s : State δ ν) : Prop where
  tracks : s.sensor.Tracks D.controller
  fanout : s.fanout.Sound
  cap : s.fanout.cap = D.fanoutCap
  prompt : s.dispatcher.Prompt
  issued : ∀ plan ∈ s.plans, plan.publication.pub ≤ D.controller.last s.sensor.directory ∧
    ∀ q, s.Unpublished q → q.pub = plan.publication.pub → q = plan.publication
  parked : ∀ plan ∈ s.plans, ∀ n, plan.ready = some n →
    n < s.dispatcher.waiters.length ∧ s.dispatcher.Registered n
  earlier : ∀ plan ∈ s.plans, ∀ a ∈ s.missing plan,
    ∃ q, a = .published q ∧ q.pub < plan.publication.pub ∧ s.Unpublished q

theorem Coherent.init {D : Dedup δ ρ ν} {s : State δ ν} (h : D.Fresh s) : Coherent D s where
  tracks := by
    refine ⟨fun p => ?_, fun n p hp => ?_⟩
    · rw [DirectorySensor.isInFlight_iff, h.inFlight]
      constructor
      · intro hp
        exact absurd hp (h.pending p)
      · intro hp
        cases hp
    · rw [h.inFlight] at hp
      cases hp
  fanout := by
    rw [h.fanout]
    exact FanoutSensor.new_sound D.fanoutCap
  cap := by
    rw [h.fanout]
    rfl
  prompt := by
    rw [h.dispatcher]
    intro w hw
    cases hw
  issued := fun plan hp => by
    rw [h.plans] at hp
    cases hp
  parked := fun plan hp => by
    rw [h.plans] at hp
    cases hp
  earlier := fun plan hp => by
    rw [h.plans] at hp
    cases hp

omit [LinearOrder ν] in
theorem State.missing_of_ready {s : State δ ν} {plan : ReadPlan ν} {n : ℕ}
    (h : plan.ready = some n) : s.missing plan = s.dispatcher.missing n := by
  unfold State.missing
  rw [h]
  rfl

omit [LinearOrder ν] in
theorem State.missing_of_none {s : State δ ν} {plan : ReadPlan ν} (h : plan.ready = none) :
    s.missing plan = [] := by
  unfold State.missing
  rw [h]
  rfl

/-- A decision adds its own publication, under a new id, to what is in flight. -/
theorem Dedup.Decision.unpublished {D : Dedup δ ρ ν} (hC : D.controller.Documented)
    {s s' : State δ ν} (h : s.sensor.Tracks D.controller) {requests : List ρ} {requester : ν}
    {plan : ReadPlan ν} {arrival : ℚ} (hd : D.Decision requests requester s s' plan arrival) :
    D.controller.last s.sensor.directory < plan.publication.pub ∧
      ∀ q, s'.Unpublished q ↔ s.Unpublished q ∨ q = plan.publication := by
  obtain ⟨_, hfresh, _, hflight⟩ := h.declared hC requester requests
  have hpub : plan.publication = (s.sensor.declare D.controller requester requests).1 :=
    hd.publication
  have hsensor : s'.sensor = (D.declared requests requester s).2.sensor := hd.sensor
  refine ⟨?_, fun q => ?_⟩
  · rw [hpub]
    exact hfresh
  · unfold State.Unpublished
    rw [hsensor, hpub]
    exact hflight q

/-- A decision keeps a run coherent. -/
theorem Coherent.decided {D : Dedup δ ρ ν} (hC : D.controller.Documented) {s s' : State δ ν}
    (h : Coherent D s) {requests : List ρ} {requester : ν} {plan : ReadPlan ν} {arrival : ℚ}
    (hd : D.Decision requests requester s s' plan arrival) : Coherent D s' := by
  obtain ⟨_, _, htracks, _⟩ := h.tracks.declared hC requester requests
  obtain ⟨fanout, hrouted, hsound, hcap, _⟩ := FanoutSensor.routed_sound h.fanout
    plan.publication plan.sources
    (Dedup.gatePublications (D.chosen requests requester s)) arrival
  have hfan : s'.fanout = fanout := by
    have heq := hd.routed.symm.trans hrouted
    exact Option.some.inj heq
  have hsensor : s'.sensor = (D.declared requests requester s).2.sensor := hd.sensor
  have hpub : plan.publication = (s.sensor.declare D.controller requester requests).1 :=
    hd.publication
  obtain ⟨hlt, hunp⟩ := hd.unpublished hC h.tracks
  have htr : s'.sensor.Tracks D.controller := by
    rw [hsensor]
    exact htracks
  -- its number was given out, by now at the latest
  have hlast : plan.publication.pub ≤ D.controller.last s'.sensor.directory := by
    have hin := (hunp plan.publication).mpr (.inr rfl)
    have hgiven := htr.given _ _ (DirectorySensor.isInFlight_iff.mp hin)
    exact hgiven.2.2
  refine ⟨htr, ?_, ?_, hd.prompt h.prompt, ?_, ?_, ?_⟩
  · rw [hfan]
    exact hsound
  · rw [hfan, hcap]
    exact h.cap
  · intro old hold
    rw [hd.plans] at hold
    rcases List.mem_append.mp hold with hold | hold
    · obtain ⟨hle, huniq⟩ := h.issued old hold
      refine ⟨by omega, ?_⟩
      intro q hq hqp
      rcases (hunp q).mp hq with hq | rfl
      · exact huniq q hq hqp
      · -- the new id is above every issued one
        omega
    · rw [List.mem_singleton] at hold
      subst hold
      refine ⟨hlast, ?_⟩
      intro q hq hqp
      have hself := (hunp old.publication).mpr (.inr rfl)
      unfold State.Unpublished at hq hself
      rw [DirectorySensor.isInFlight_iff] at hq hself
      rw [hqp, hself] at hq
      exact (Option.some.inj hq).symm
  · intro old hold n hn
    rw [hd.plans] at hold
    rcases List.mem_append.mp hold with hold | hold
    -- an older gate stays where it was registered
    · obtain ⟨hlen, hreg⟩ := h.parked old hold n hn
      obtain ⟨hlen', hreg', _⟩ := hd.old_gate hlen hreg
      exact ⟨hlen', hreg'⟩
    · rw [List.mem_singleton] at hold
      subst hold
      obtain ⟨hlen', hreg', _⟩ := hd.new_gate hn
      exact ⟨hlen', hreg'⟩
  · intro old hold a ha
    rw [hd.plans] at hold
    cases hready : old.ready with
    | none =>
        rw [State.missing_of_none hready] at ha
        cases ha
    | some n =>
        rw [State.missing_of_ready hready] at ha
        rcases List.mem_append.mp hold with hold | hold
        · obtain ⟨hlen, hreg⟩ := h.parked old hold n hready
          obtain ⟨_, _, hsub⟩ := hd.old_gate hlen hreg
          -- what an older gate misses was missing before
          obtain ⟨q, rfl, hq, hin⟩ := h.earlier old hold a (by
            rw [State.missing_of_ready hready]
            exact hsub a ha)
          exact ⟨q, rfl, hq, (hunp q).mpr (.inl hin)⟩
        · rw [List.mem_singleton] at hold
          subst hold
          obtain ⟨_, _, hmiss⟩ := hd.new_gate hready
          -- the new gate waits for pending publications, all declared before it
          obtain ⟨q, hq, rfl⟩ := (hmiss a).mp ha
          obtain ⟨hin, hless⟩ := Dedup.chosen_pending hC h.tracks hq
          refine ⟨q, rfl, ?_, (hunp q).mpr (.inl hin)⟩
          rw [hd.publication]
          exact hless

/-- What the completion of a publication moves. -/
theorem published_cases {D : Dedup δ ρ ν} {s s' : State δ ν} {p : Publication ν}
    (h : D.dispatch (.published p) s = some s') :
    s.fanout.published p = some s'.fanout ∧
      s'.sensor = s.sensor.published D.controller p ∧
      s'.dispatcher = s.dispatcher.commit (.published p) ∧ s'.plans = s.plans := by
  unfold Dedup.dispatch at h
  simp only [Option.map_eq_some_iff] at h
  obtain ⟨fanout, hfan, rfl⟩ := h
  exact ⟨hfan, rfl, rfl, rfl⟩

/-- A completion takes its publication out of flight, and no other id. -/
theorem unpublished_landed {D : Dedup δ ρ ν} (hC : D.controller.Documented) {s s' : State δ ν}
    (h : s.sensor.Tracks D.controller) {p : Publication ν}
    (hd : D.dispatch (.published p) s = some s') (q : Publication ν) :
    s'.Unpublished q ↔ s.Unpublished q ∧ q.pub ≠ p.pub := by
  unfold State.Unpublished
  rw [(published_cases hd).2.1]
  exact (h.retired hC p).2 q

/-- A completion is dispatched without an error, and keeps a run coherent. -/
theorem Coherent.landed {D : Dedup δ ρ ν} (hC : D.controller.Documented) {s s' : State δ ν}
    (h : Coherent D s) {p : Publication ν} (hp : ∃ plan ∈ s.plans, plan.publication = p)
    (hd : D.dispatch (.published p) s = some s') : Coherent D s' := by
  obtain ⟨hfan, hsensor, hdisp, hplans⟩ := published_cases hd
  obtain ⟨fanout, hpub, hsound, hcap, _⟩ := FanoutSensor.published_sound h.fanout p
  have heq : s'.fanout = fanout := Option.some.inj (hfan.symm.trans hpub)
  have hunp := unpublished_landed hC h.tracks hd
  constructor
  case tracks =>
    rw [hsensor]
    exact (h.tracks.retired hC p).1
  case fanout =>
    rw [heq]
    exact hsound
  case cap =>
    rw [heq, hcap]
    exact h.cap
  case prompt =>
    rw [hdisp]
    exact h.prompt.commit _
  case issued =>
    intro plan hplan
    rw [hplans] at hplan
    obtain ⟨hle, huniq⟩ := h.issued plan hplan
    refine ⟨?_, fun q hq => huniq q ((hunp q).mp hq).1⟩
    have hlast := hC.last_delete p.pub s.sensor.directory
    rw [hsensor]
    show _ ≤ D.controller.last (D.controller.notifyDeleteBatch p.pub s.sensor.directory)
    omega
  case parked =>
    intro plan hplan n hn
    rw [hplans] at hplan
    obtain ⟨hlen, hreg⟩ := h.parked plan hplan n hn
    rw [hdisp]
    refine ⟨?_, hreg.commit _⟩
    rw [Dispatcher.length_commit]
    exact hlen
  case earlier =>
    intro plan hplan a ha
    rw [hplans] at hplan
    cases hready : plan.ready with
    | none =>
        rw [State.missing_of_none hready] at ha
        cases ha
    | some n =>
        obtain ⟨_, hreg⟩ := h.parked plan hplan n hready
        rw [State.missing_of_ready hready, hdisp, Dispatcher.missing_commit hreg,
          List.mem_filter] at ha
        obtain ⟨q, rfl, hq, hin⟩ := h.earlier plan hplan a (by
          rw [State.missing_of_ready hready]
          exact ha.1)
        refine ⟨q, rfl, hq, (hunp q).mpr ⟨hin, ?_⟩⟩
        -- an id names one publication, and this action is not that of `p`
        intro hqp
        obtain ⟨own, hown, hownp⟩ := hp
        have hsame := (h.issued own hown).2 q hin (by rw [hownp]; exact hqp)
        rw [hownp] at hsame
        rw [hsame] at ha
        simp at ha

/-- **Every step keeps a run coherent.** -/
theorem Coherent.step {D : Dedup δ ρ ν} (hC : D.controller.Documented) {s s' : State δ ν}
    {e : Event δ ρ ν} (h : Coherent D s) (hs : D.Step s e s') : Coherent D s' := by
  cases e with
  | sources requests requester =>
      obtain ⟨plan, hplan⟩ := hs
      obtain ⟨arrival, hd⟩ := Dedup.decide_cases hC hplan
      exact h.decided hC hd
  | published p =>
      obtain ⟨hp, hd⟩ := hs
      exact h.landed hC hp hd
  | written directory =>
      obtain ⟨hw, rfl⟩ := hs
      refine ⟨h.tracks.written hw, h.fanout, h.cap, h.prompt, ?_, h.parked, h.earlier⟩
      intro plan hplan
      obtain ⟨hle, huniq⟩ := h.issued plan hplan
      exact ⟨le_trans hle hw.1, huniq⟩

theorem coherent_of_reachable {D : Dedup δ ρ ν} (hC : D.controller.Documented)
    {s : State δ ν} (h : D.machine.Reachable s) : Coherent D s :=
  h.invariant (fun _ hfresh => .init hfresh) fun _ _ _ hcoh hst => hcoh.step hC hst

/-! ## §9. Nobody waits in a circle. -/

/-- A wait points at a smaller id. -/
theorem Coherent.waits_down {D : Dedup δ ρ ν} {s : State δ ν} (h : Coherent D s)
    {p q : Publication ν} (hw : s.WaitsFor p q) : q.pub < p.pub ∧ s.Unpublished q := by
  obtain ⟨_, plan, hplan, rfl, hmiss⟩ := hw
  obtain ⟨x, hx, hlt, hin⟩ := h.earlier plan hplan _ hmiss
  cases hx
  exact ⟨hlt, hin⟩

/-- A chain of waits points at a smaller id. -/
theorem Coherent.waits_down_trans {D : Dedup δ ρ ν} {s : State δ ν} (h : Coherent D s)
    {p q : Publication ν} (hw : Relation.TransGen s.WaitsFor p q) : q.pub < p.pub := by
  induction hw with
  | single hst => exact (h.waits_down hst).1
  | tail _ hst ih =>
      have hlast := (h.waits_down hst).1
      omega

/-- A plan that misses nothing is open. -/
theorem Coherent.open_of_missing {D : Dedup δ ρ ν} {s : State δ ν} (h : Coherent D s)
    {plan : ReadPlan ν} (hplan : plan ∈ s.plans) (hmiss : s.missing plan = []) :
    s.Open plan := by
  intro n hn
  rw [State.missing_of_ready hn] at hmiss
  exact h.prompt.released (h.parked plan hplan n hn).1 hmiss

/-- **Dedup routing never deadlocks.**  In every reachable state each gate misses
publications that were declared strictly earlier and are in flight; no chain of
waits returns to where it began; and the oldest unpublished one waits for
nobody, its reader free to run. -/
theorem waits_on_earlier {D : Dedup δ ρ ν} (hC : D.controller.Documented) {s : State δ ν}
    (h : D.machine.Reachable s) :
    (∀ plan ∈ s.plans, ∀ a ∈ s.missing plan,
      ∃ q, a = .published q ∧ q.pub < plan.publication.pub ∧ s.Unpublished q) ∧
    (∀ p, ¬ Relation.TransGen s.WaitsFor p p) ∧
    (∀ p, s.Unpublished p → (∀ q, s.Unpublished q → p.pub ≤ q.pub) →
      (∀ q, ¬ s.WaitsFor p q) ∧ ∀ plan ∈ s.plans, plan.publication = p → s.Open plan) := by
  have hcoh := coherent_of_reachable hC h
  refine ⟨hcoh.earlier, ?_, ?_⟩
  · intro p hcycle
    exact Nat.lt_irrefl _ (hcoh.waits_down_trans hcycle)
  · intro p hp holdest
    have hnone : ∀ q, ¬ s.WaitsFor p q := by
      intro q hw
      obtain ⟨hlt, hin⟩ := hcoh.waits_down hw
      have hle := holdest q hin
      omega
    refine ⟨hnone, ?_⟩
    intro plan hplan hown
    apply hcoh.open_of_missing hplan
    apply List.eq_nil_iff_forall_not_mem.mpr
    intro a ha
    obtain ⟨q, rfl, _⟩ := hcoh.earlier plan hplan a ha
    exact hnone q ⟨hp, plan, hplan, hown, ha⟩

/-- The steps of a run that compute: decisions and completions. -/
def Dedup.next (D : Dedup δ ρ ν) (s : State δ ν) : Event δ ρ ν → Option (State δ ν)
  | .sources requests requester =>
      match D.decide requests requester s with
      | .ok (s', _) => some s'
      | .error _ => none
  | .published p =>
      if p ∈ s.plans.map ReadPlan.publication then D.dispatch (.published p) s else none
  | .written _ => none

theorem Dedup.step_of_next {D : Dedup δ ρ ν} (s : State δ ν) (e : Event δ ρ ν)
    (s' : State δ ν) (h : D.next s e = some s') : D.machine.step s e s' := by
  cases e with
  | sources requests requester =>
      unfold Dedup.next at h
      cases hd : D.decide requests requester s with
      | error e =>
          simp only [hd] at h
          cases h
      | ok answer =>
          obtain ⟨t, plan⟩ := answer
          simp only [hd] at h
          cases h
          exact ⟨plan, hd⟩
  | published p =>
      unfold Dedup.next at h
      by_cases hp : p ∈ s.plans.map ReadPlan.publication
      · simp only [if_pos hp] at h
        obtain ⟨plan, hplan, hown⟩ := List.mem_map.mp hp
        exact ⟨⟨plan, hplan, hown⟩, h⟩
      · simp only [if_neg hp] at h
        cases h
  | written directory => cases h

/-- One key on volume `0`, ten seconds away from readers one second apart. -/
def oneKey (fanoutCap : ℤ) : Dedup (KeyDirectory ℕ) Unit ℕ :=
  ⟨keyController ℕ, fun source _ _ => if source = 0 then 10 else 1, fanoutCap, false⟩

/-- Nothing decided yet, over the directory of one key. -/
def atOrigin (fanoutCap : ℤ) : State (KeyDirectory ℕ) ℕ :=
  ⟨⟨⟨[0], [], 0⟩, Dict.empty⟩, FanoutSensor.new fanoutCap, Dispatcher.new, []⟩

theorem atOrigin_fresh (fanoutCap : ℤ) : (oneKey fanoutCap).Fresh (atOrigin fanoutCap) :=
  ⟨(fun _ hp => List.not_mem_nil hp), rfl, rfl, rfl, rfl⟩

instance (s : State δ ν) (p q : Publication ν) : Decidable (s.WaitsFor p q) :=
  inferInstanceAs (Decidable (s.sensor.isInFlight p = true ∧ ∃ plan ∈ s.plans, _ ∧ _))

/-- Reader `2` is routed behind reader `1`, which reads from the origin. -/
theorem waits_behind_reader :
    ∃ s : State (KeyDirectory ℕ) ℕ, s.WaitsFor ⟨2, 2⟩ ⟨1, 1⟩ ∧
      ∀ p, ¬ Relation.TransGen s.WaitsFor p p := by
  have hrun : (Machine.replay (oneKey 1).next (atOrigin 1)
      [.sources [()] 1, .sources [()] 2]).map (fun t => decide (t.WaitsFor ⟨2, 2⟩ ⟨1, 1⟩))
      = some true := by decide +kernel
  obtain ⟨t, ht, hval⟩ := Option.map_eq_some_iff.mp hrun
  have hreach : (oneKey 1).machine.Reachable t :=
    Machine.Reachable.of_replay Dedup.step_of_next _ (.init (atOrigin_fresh 1)) ht
  exact ⟨t, of_decide_eq_true hval,
    (waits_on_earlier (keyController_documented ℕ) hreach).2.1⟩

end Toso.DedupSim
