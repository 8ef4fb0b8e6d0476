/-
  Toso.KvCache.Collector — every outcome of a run, joined by request.

  The data plane of a run with its collector.  A request's row is opened where it
  was accepted or refused, and amended by the decode host it never met and by the
  client that walked between them.  The measurements (a wait, the bytes of a
  handoff, a gap) are the run's, and any.

  Main results:
    * `collects` — no report ever finds its row missing.
    * `Kept.next` — what each row says, step by step.
    * `rows_reconcile` — one row for each decided request, saying what became of it.
    * `columns_reconcile` — what the columns add up to, against the requests.
-/
import Toso.KvCache.Metrics
import Toso.KvCache.Reconcile
import Toso.Lib.Join

namespace Toso.KvCache

open Lib Proposed SimCommon Domain

variable {ν ι κ : Type*}

/-- Past the handoff: where the decode host has reported on a request. -/
def Phase.handedOver (simulates : Bool) : Phase → Bool
  | .handed => true
  | .decoding => true
  | .done => simulates
  | _ => false

/-! ## §1. The data plane and its collector. -/

/-- What one step measures, where it measures anything. -/
structure Measured where
  queueWait : ℚ
  handoffBytes : ℕ
  tbt : ℚ
  deriving DecidableEq

/-- A run with its collector. -/
structure Collected (ν ι κ : Type*) [DecidableEq ν] where
  plane : DataPlane ν ι κ
  metrics : Metrics ν ι

namespace Collected

section Step

variable [LinearOrder ι] [DecidableEq κ] [DecidableEq ν] (cfg : Settings ι) (grow : κ → ℕ → κ)
  (root : ν → κ)

/-- The row opened for a leg that was decided. -/
def opens (leg : Leg ν ι κ) : Option (RequestResult ν ι) :=
  match leg.stage with
  | .refused => some (.rejected leg.request)
  | .served response _ => some (.served leg.request response)
  | _ => none

/-- The prefill host's half once its pull came back or did not. -/
def pulledRow (fetched : Bool) (request : Request ν κ) (response : Response ι κ) : Row ν ι :=
  (pulled (fun tokens => prefillTime tokens cfg.profile cfg.model) cfg.blockTokens fetched
    request response.plan (makeAccepted request response)).2.2

/-- The blocks a generation leaves, where a block has any tokens. -/
def generatedBlocks (tokens : ℕ) : ℕ := (blocksFor cfg.blockTokens tokens).toOption.getD 0

/-- `_reside`: nothing is reported of no blocks. -/
def resides (id : ν) (blocks : ℕ) (room : Bool) (m : Metrics ν ι) :
    Except (Unopened ν) (Metrics ν ι) :=
  if blocks = 0 then .ok m else m.decodeResident id blocks room

/-- What the hosts and the client of a request report in one step, from where it stands. -/
def reports (seen : Measured) (s : DataPlane ν ι κ) (leg : Leg ν ι κ) (response : Response ι κ)
    (m : Metrics ν ι) : DataEvent ν ι κ → Except (Unopened ν) (Metrics ν ι)
  | .pull id _ fetched => m.filled id (pulledRow cfg fetched leg.request response)
  | .publish id room =>
      match s.filled cfg id room leg.request response with
      | .error _ => .ok m
      | .ok run => m.waited id run.row seen.queueWait
  | .handoff id _ missed =>
      -- its own prefill, an empty chain and a missed one move nothing
      let own := response.decode = response.prefill ∨ leg.request.blockKeys = []
      m.handedOff id response.decode (if own ∨ missed = true then 0 else seen.handoffBytes)
        (decide (missed = true ∧ ¬ own))
  | .reside id room =>
      if response.decode = response.prefill ∨ id ∈ s.missed then .ok m
      else resides id leg.request.blockKeys.length room m
  | .engineless id => m.completed id (s.serving.clock - leg.request.arrival) 1
  | .join id => if leg.request.decodeTokens = 0 then m.decoded id 0 else .ok m
  | .leave id _ => m.decoded id seen.tbt
  | .keep id room =>
      let tokens := s.generated.getD id 0
      (resides id (generatedBlocks cfg tokens) room m).bind fun m =>
        m.completed id (s.serving.clock - leg.request.arrival) (tokens + 1)
  | _ => .ok m

/-- The request an event of the data plane is about. -/
def about : DataEvent ν ι κ → Option ν
  | .serve _ => none
  | .ask id _ => some id
  | .pull id _ _ => some id
  | .publish id _ => some id
  | .finish id _ => some id
  | .handoff id _ _ => some id
  | .reside id _ => some id
  | .engineless id => some id
  | .join id => some id
  | .leave id _ => some id
  | .keep id _ => some id

/-- What a step writes: the row it opens, or the reports of its request. -/
def written (seen : Measured) (s t : DataPlane ν ι κ) (e : DataEvent ν ι κ) (m : Metrics ν ι) :
    Except (Unopened ν) (Metrics ν ι) :=
  match e with
  | .ask id _ =>
      match (t.serving.legs.get? id).bind opens with
      | none => .ok m
      | some row => .ok (m.add row)
  | e =>
      match ((about e).bind s.serving.legs.get?).bind fun leg =>
          leg.stage.serving.map fun served => (leg, served.1) with
      | none => .ok m
      | some (leg, response) => reports cfg seen s leg response m e

/-- One step, where the data plane takes it and no report raises. -/
def next (s : Collected ν ι κ) : DataEvent ν ι κ × Measured → Option (Collected ν ι κ)
  | (e, seen) => (s.plane.next cfg grow root e).bind fun t =>
      match written cfg seen s.plane t e s.metrics with
      | .error _ => none
      | .ok m => some ⟨t, m⟩

/-- Nothing served, nothing reported. -/
def start (origins : List String) (now : ℚ) : Collected ν ι κ :=
  ⟨DataPlane.start cfg now, .new origins⟩

/-- The machine of a run with its collector. -/
def machine (origins : List String) : Machine (Collected ν ι κ) (DataEvent ν ι κ × Measured) :=
  .ofPartial (fun s => ∃ now, s = start cfg origins now) (next cfg grow root)

end Step

/-! ## §2. What a row says. -/

/-- What a run records of one request: whether its pull did not come back and whether its
pass ended, and what became of its decode. -/
structure Facts where
  stale : Bool
  passed : Bool
  missed : Bool
  resided : Bool
  received : Option ℕ

/-- Nothing yet. -/
def Facts.nothing : Facts := ⟨false, false, false, false, none⟩

section Rows

variable [DecidableEq ν]

/-- The records of `id`. -/
def facts (s : DataPlane ν ι κ) (id : ν) : Facts :=
  ⟨decide (id ∈ s.stale), decide (id ∈ s.published), decide (id ∈ s.missed),
    decide (id ∈ s.resided), s.received.get? id⟩

variable [LinearOrder ι] [DecidableEq κ] (cfg : Settings ι)

/-- The prefill host's half as the records have it. -/
def halfRow (request : Request ν κ) (response : Response ι κ) (facts : Facts) :
    Row ν ι :=
  pulledRow cfg (!facts.stale) request response

/-- The blocks a request put on its decode host: the chain, if it came from elsewhere,
and what was generated. -/
def held (request : Request ν κ) (response : Response ι κ) (facts : Facts) : ℕ :=
  (if facts.resided = true ∧ facts.missed = false ∧ response.decode ≠ response.prefill then
    request.blockKeys.length else 0) + DataPlane.blocksMade cfg (facts.received.getD 0)

/-- **What the row of a served request says**, in each phase.  What is measured (a wait, a
gap, the bytes of a handoff, a latency) is at its default until it is. -/
structure RowOf (request : Request ν κ) (response : Response ι κ) (phase : Phase)
    (facts : Facts) (row : RequestResult ν ι) : Prop where
  accepted : row.accepted = true
  prompt : row.promptTokens = request.promptTokens
  planned : response.plan.cachedTokens + response.plan.uncachedTokens = request.promptTokens
  tokens : row.cachedTokens + row.uncachedTokens = request.promptTokens
  ttft : row.ttft = (halfRow cfg request response facts).ttft
  cachedTokens : row.cachedTokens = (halfRow cfg request response facts).cachedTokens
  transferBytes : row.transferBytes = (halfRow cfg request response facts).transferBytes
  prefill : row.prefill = some response.prefill
  reuseSource : row.reuseSource = response.plan.reuseSource
  predictedQueueWait : row.predictedQueueWait = response.plan.queueWait
  pulling : facts.stale = true ∨ facts.passed = true → phase ≠ .accepted
  published : facts.passed = false → row.published = true
  queueWait : facts.passed = false → row.queueWait = 0
  simulated : phase = .prefilled ∨ phase = .handed ∨ phase = .decoding →
    cfg.simulateDecode = true
  decode : row.decode =
    if phase.handedOver cfg.simulateDecode = true then some response.decode else none
  missed : row.handoffMissed = facts.missed
  late : facts.missed = true ∨ facts.resided = true →
    phase.handedOver cfg.simulateDecode = true
  bytes : response.decode = response.prefill ∨ request.blockKeys = [] ∨ facts.missed = true →
    row.handoffBytes = 0
  unhanded : phase.handedOver cfg.simulateDecode = false → row.handoffBytes = 0
  tbt : phase ≠ .done → row.tbt = 0
  received : facts.received.isSome = true → phase = .done
  blocks : row.decodeBlocks ≤ held cfg request response facts
  kept : row.decodeUnpublished = false → row.decodeBlocks = held cfg request response facts
  outputTokens : row.outputTokens = facts.received.getD 0
  latency : facts.received = none → row.latency = 0

/-- What is kept of one request: no row before it is decided, and then its own. -/
structure RowFor (leg : Option (Leg ν ι κ)) (facts : Facts) (row : Option (RequestResult ν ι)) :
    Prop where
  unserved : leg.bind (fun leg => leg.stage.serving) = none →
    facts = .nothing ∧ row = leg.bind opens
  served : ∀ l response phase, leg = some l → l.stage = .served response phase →
    ∃ r, row = some r ∧ RowOf cfg l.request response phase facts r

/-- **The collector keeps up** with the run. -/
structure Kept (s : Collected ν ι κ) : Prop where
  id_eq : ∀ id leg, s.plane.serving.legs.get? id = some leg → leg.request.id = id
  placed : ∀ id response, s.plane.serving.plane.placed.get? id = some response →
    ∃ leg, s.plane.serving.legs.get? id = some leg ∧
      response.plan.cachedTokens + response.plan.uncachedTokens = leg.request.promptTokens
  distinct : s.metrics.Distinct
  missed : s.plane.missed.Nodup
  row : ∀ id, RowFor cfg (s.plane.serving.legs.get? id) (facts s.plane id) (s.metrics.row? id)

theorem kept_start (origins : List String) (now : ℚ) :
    Kept cfg (start cfg origins now : Collected ν ι κ) where
  id_eq _ _ h := by cases h
  placed _ _ h := by cases h
  distinct := Metrics.distinct_new origins
  missed := List.nodup_nil
  row _ := ⟨fun _ => ⟨rfl, rfl⟩, fun _ _ _ h => by cases h⟩

variable {cfg} {s : Collected ν ι κ}

/-- A served request and its row. -/
theorem Kept.served (h : Kept cfg s) {id : ν} {leg : Leg ν ι κ} {response : Response ι κ}
    {phase : Phase} (hl : s.plane.serving.legs.get? id = some leg)
    (hs : leg.stage = .served response phase) : ∃ row, s.metrics.row? id = some row ∧
      RowOf cfg leg.request response phase (facts s.plane id) row :=
  (h.row id).served leg response phase hl hs

/-- A request whose call is still out has no row. -/
theorem Kept.unserved (h : Kept cfg s) {id : ν} {leg : Leg ν ι κ}
    (hl : s.plane.serving.legs.get? id = some leg) (hs : leg.stage.serving = none) :
    facts s.plane id = .nothing ∧ s.metrics.row? id = opens leg := by
  obtain ⟨hfacts, hrow⟩ := (h.row id).unserved (by rw [hl]; exact hs)
  rw [hl] at hrow
  exact ⟨hfacts, hrow⟩

/-! ## §3. What a step writes. -/

/-- **A served request moves on**, and what is reported is written into its row. -/
theorem Kept.moved (h : Kept cfg s) {id : ν} {leg : Leg ν ι κ} {response : Response ι κ}
    {p q : Phase} (hl : s.plane.serving.legs.get? id = some leg)
    (hs : leg.stage = .served response p) {t : DataPlane ν ι κ} {m : Metrics ν ι}
    {f : RequestResult ν ι → RequestResult ν ι}
    (hlegs : ∀ x, t.serving.legs.get? x = if id = x then
      some { leg with stage := .served response q } else s.plane.serving.legs.get? x)
    (hplaced : t.serving.plane.placed = s.plane.serving.plane.placed)
    (hfacts : ∀ x, id ≠ x → facts t x = facts s.plane x)
    (hmissed : t.missed.Nodup) (hm : s.metrics.Amended id f m)
    (hown : ∀ row, RowOf cfg leg.request response p (facts s.plane id) row →
      RowOf cfg leg.request response q (facts t id) (f row)) : Kept cfg ⟨t, m⟩ where
  id_eq x l hx := by
    change t.serving.legs.get? x = some l at hx
    rw [hlegs] at hx
    by_cases hid : id = x
    · rw [if_pos hid] at hx
      obtain rfl := Option.some.inj hx
      exact (h.id_eq id leg hl).trans hid
    · rw [if_neg hid] at hx
      exact h.id_eq x l hx
  placed x r hx := by
    change t.serving.plane.placed.get? x = some r at hx
    rw [hplaced] at hx
    obtain ⟨l, hxl, hsum⟩ := h.placed x r hx
    show ∃ leg, t.serving.legs.get? x = some leg ∧ _
    rw [hlegs]
    by_cases hid : id = x
    · subst hid
      obtain rfl := Option.some.inj (hl.symm.trans hxl)
      exact ⟨_, if_pos rfl, hsum⟩
    · exact ⟨l, (if_neg hid).trans hxl, hsum⟩
  distinct := hm.distinct h.distinct
  missed := hmissed
  row x := by
    show RowFor cfg (t.serving.legs.get? x) (facts t x) (m.row? x)
    rw [hlegs, hm.row]
    by_cases hid : id = x
    · subst hid
      rw [if_pos rfl, if_pos rfl]
      obtain ⟨row, hrow, hof⟩ := h.served hl hs
      refine ⟨nofun, ?_⟩
      intro l r phase hsome hstage
      obtain rfl := Option.some.inj hsome
      have hsame : Stage.served response q = .served r phase := hstage
      cases hsame
      exact ⟨f row, by rw [hrow]; rfl, hown row hof⟩
    · rw [if_neg hid, if_neg hid, hfacts x hid]
      exact h.row x

omit [DecidableEq ν] [DecidableEq κ] in
theorem held_nothing (request : Request ν κ) (response : Response ι κ) :
    held cfg request response .nothing = 0 := by
  unfold held Facts.nothing
  rw [if_neg (by simp)]
  simp [DataPlane.blocksMade]

omit [DecidableEq ν] [LinearOrder ι] in
/-- A plan whose pull came back is what was priced. -/
theorem pulledRow_true (request : Request ν κ) (response : Response ι κ) :
    pulledRow cfg true request response = makeAccepted request response := by
  unfold pulledRow pulled
  by_cases hpull : response.plan.reuseSource.isSome ∧ response.plan.pullKeys ≠ []
  · rw [if_pos hpull]
    rfl
  · rw [if_neg hpull]

omit [DecidableEq ν] in
/-- A row as it is opened. -/
theorem rowOf_served {request : Request ν κ} {response : Response ι κ}
    (hsum : response.plan.cachedTokens + response.plan.uncachedTokens = request.promptTokens) :
    RowOf cfg request response .accepted .nothing (.served request response) where
  accepted := rfl
  prompt := rfl
  planned := hsum
  tokens := hsum
  ttft := congrArg Row.ttft (pulledRow_true request response).symm
  cachedTokens := congrArg Row.cachedTokens (pulledRow_true request response).symm
  transferBytes := congrArg Row.transferBytes (pulledRow_true request response).symm
  prefill := rfl
  reuseSource := rfl
  predictedQueueWait := rfl
  pulling hp := by rcases hp with hp | hp <;> cases hp
  published _ := rfl
  queueWait _ := rfl
  simulated hp := by rcases hp with hp | hp | hp <;> cases hp
  decode := rfl
  missed := rfl
  late hp := by rcases hp with hp | hp <;> cases hp
  bytes _ := rfl
  unhanded _ := rfl
  tbt _ := rfl
  received hr := by cases hr
  blocks := Nat.zero_le _
  kept _ := (held_nothing request response).symm
  outputTokens := rfl
  latency _ := rfl

/-- **The answer of an ask**: the row it opens, if it decides anything. -/
theorem Kept.answered (h : Kept cfg s) {id : ν} {leg leg' : Leg ν ι κ}
    (hl : s.plane.serving.legs.get? id = some leg) (hstage : leg.stage = .asking)
    (hrequest : leg'.request = leg.request) {t : DataPlane ν ι κ}
    (hlegs : t.serving.legs = s.plane.serving.legs.set id leg')
    (hplaced : ∀ x r, t.serving.plane.placed.get? x = some r →
      s.plane.serving.plane.placed.get? x = some r ∨ (x = id ∧
        r.plan.cachedTokens + r.plan.uncachedTokens = leg.request.promptTokens))
    (hfacts : facts t = facts s.plane) (hmissed : t.missed = s.plane.missed)
    (hserved : ∀ response phase, leg'.stage = .served response phase → phase = .accepted ∧
      response.plan.cachedTokens + response.plan.uncachedTokens = leg.request.promptTokens)
    {seen : Measured} {located : κ → List ι} :
    ∃ m, written cfg seen s.plane t (.ask id located) s.metrics = .ok m ∧ Kept cfg ⟨t, m⟩ := by
  have hid := h.id_eq id leg hl
  obtain ⟨hnothing, hnone⟩ := h.unserved hl (by rw [hstage]; rfl)
  have hnorow : s.metrics.row? id = none := by
    rw [hnone, opens, hstage]
  have hread : t.serving.legs.get? id = some leg' := by rw [hlegs, Dict.get?_set_self]
  -- the row, where one is opened, is the request's own
  have hopens : ∀ row, opens leg' = some row → row.id = id := by
    intro row hrow
    unfold opens at hrow
    cases hs : leg'.stage with
    | refused =>
        rw [hs] at hrow
        rw [← Option.some.inj hrow, ← hid, ← hrequest]
        rfl
    | served response phase =>
        rw [hs] at hrow
        rw [← Option.some.inj hrow, ← hid, ← hrequest]
        rfl
    | asking => rw [hs] at hrow; cases hrow
    | raised => rw [hs] at hrow; cases hrow
    | lost => rw [hs] at hrow; cases hrow
  have hrest : ∀ m : Metrics ν ι, m.Distinct → m.row? id = opens leg' →
      (∀ x, id ≠ x → m.row? x = s.metrics.row? x) → Kept cfg ⟨t, m⟩ := by
    intro m hm hown hother
    constructor
    case id_eq =>
      intro x l hx
      rcases Serving.legs_cases hlegs hx with ⟨rfl, rfl⟩ | hold
      · rw [hrequest, hid]
      · exact h.id_eq x l hold
    case placed =>
      intro x r hx
      have hsame : ∀ l, s.plane.serving.legs.get? id = some l → leg'.request = l.request := by
        intro l hl'
        rw [hrequest, Option.some.inj (hl.symm.trans hl')]
      rcases hplaced x r hx with hold | ⟨rfl, hsum⟩
      · obtain ⟨l, hxl, hsum⟩ := h.placed x r hold
        obtain ⟨l', hl', heq⟩ := Serving.leg_kept hlegs hsame hxl
        exact ⟨l', hl', by rw [heq]; exact hsum⟩
      · exact ⟨leg', hread, by rw [hrequest]; exact hsum⟩
    case distinct => exact hm
    case missed =>
      show t.missed.Nodup
      rw [hmissed]
      exact h.missed
    case row =>
      intro x
      show RowFor cfg (t.serving.legs.get? x) (facts t x) (m.row? x)
      rw [hfacts]
      by_cases hx : id = x
      · subst hx
        rw [hread, hown, hnothing]
        refine ⟨fun _ => ⟨rfl, rfl⟩, ?_⟩
        intro l response phase hsome hs
        obtain rfl := Option.some.inj hsome
        obtain ⟨rfl, hsum⟩ := hserved response phase hs
        refine ⟨_, by rw [opens, hs], rowOf_served ?_⟩
        rw [hrequest]
        exact hsum
      · rw [hother x hx, hlegs, Dict.get?_set_ne _ _ hx]
        exact h.row x
  simp only [written, hread, Option.bind_some]
  cases hrow : opens leg' with
  | none =>
      exact ⟨s.metrics, rfl, hrest _ h.distinct (hnorow.trans hrow.symm) fun _ _ => rfl⟩
  | some row =>
      have hrid := hopens row hrow
      refine ⟨s.metrics.add row, rfl, hrest _ (h.distinct.add (by rw [hrid]; exact hnorow)) ?_ ?_⟩
      · rw [Metrics.row?_add, if_pos hrid, hrow]
      · intro x hx
        rw [Metrics.row?_add, if_neg (by rw [hrid]; exact hx)]

/-- **An ask**, whatever the scheduler makes of it. -/
theorem Kept.ask (h : Kept cfg s) {id : ν} {located : κ → List ι}
    {u : Serving ν ι κ} (hst : s.plane.serving.next cfg (.ask id located) = some u)
    (seen : Measured) :
    ∃ m, written cfg seen s.plane { s.plane with serving := u } (.ask id located) s.metrics = .ok m
      ∧ Kept cfg ⟨{ s.plane with serving := u }, m⟩ := by
  obtain ⟨leg, hl, hstage, hu⟩ := Serving.next_ask hst
  obtain rfl := h.id_eq id leg hl
  -- an answer serves its request here, sends it on, or gives it up
  have hanswered : ∀ response : Response ι κ,
      (Serving.answered leg (some response)).request = leg.request ∧
      ∀ r phase, (Serving.answered leg (some response)).stage = .served r phase →
        phase = .accepted ∧ r = response := by
    intro response
    unfold Serving.answered
    by_cases hhere : response.prefill = leg.host
    · simp only [if_pos hhere, Stage.served.injEq, true_and]
      rintro r phase ⟨rfl, rfl⟩
      exact ⟨rfl, rfl⟩
    · by_cases hhops : leg.hops + 1 < maxHops
      · simp [if_neg hhere, if_pos hhops, hstage]
      · simp [if_neg hhere, if_neg hhops]
  -- an end that is no response leaves the plane alone
  have hended : ∀ stage : Stage ι κ, (∀ r phase, stage ≠ .served r phase) →
      u = s.plane.serving.setLeg leg.request.id { leg with stage := stage } →
      ∃ m, written cfg seen s.plane { s.plane with serving := u } (.ask leg.request.id located)
        s.metrics = .ok m ∧ Kept cfg ⟨{ s.plane with serving := u }, m⟩ := by
    intro stage hne hu
    have hrequest : ({ leg with stage := stage } : Leg ν ι κ).request = leg.request := rfl
    refine h.answered (t := { s.plane with serving := u }) hl hstage hrequest
      (congrArg Serving.legs hu) (fun x r hx => .inl ?_) rfl rfl (fun r phase hs => ?_)
    · rw [hu] at hx
      exact hx
    · exact absurd hs (hne r phase)
  rcases DataPlane.ask_priced cfg s.plane.serving leg located with
    ⟨placed, hp, hask⟩ | hask | hask | ⟨response, d, hask, hprice, hanswer⟩
  · rw [hask] at hu
    obtain ⟨l, hl', hsum⟩ := h.placed _ placed hp
    obtain rfl := Option.some.inj (hl.symm.trans hl')
    refine h.answered (t := { s.plane with serving := u }) hl hstage (hanswered placed).1
      (congrArg Serving.legs hu) (fun x r hx => .inl ?_) rfl rfl ?_
    · rw [hu] at hx
      have herase : (s.plane.serving.plane.placed.erase leg.request.id).get? x = some r := hx
      rw [Dict.get?_erase, ite_eq_iff] at herase
      rcases herase with ⟨_, hnone⟩ | ⟨_, hold⟩
      · cases hnone
      · exact hold
    · intro r phase hs
      obtain ⟨hphase, rfl⟩ := (hanswered placed).2 r phase hs
      exact ⟨hphase, hsum⟩
  · exact hended .raised nofun (hu.trans hask)
  · exact hended .refused nofun (hu.trans hask)
  · rw [hask] at hu
    obtain ⟨plan, hplan, hthis⟩ := price_plan hprice hanswer
    have hfits := (priced_fits hplan response.prefill).1
    rw [← hthis] at hfits
    have hsum : response.plan.cachedTokens + response.plan.uncachedTokens
        = leg.request.promptTokens := by
      rw [hfits.uncached, hfits.cached]
      omega
    refine h.answered (t := { s.plane with serving := u }) hl hstage (hanswered response).1
      (congrArg Serving.legs hu) (fun x r hx => ?_) rfl rfl ?_
    · rw [hu] at hx
      have hbook : (s.plane.serving.plane.book leg.request leg.host response).plane.placed.get? x
          = some r := hx
      rw [Scheduler.book_placed] at hbook
      by_cases hhere : response.prefill = leg.host
      · rw [if_pos hhere] at hbook
        exact .inl hbook
      · rw [if_neg hhere] at hbook
        rcases Dict.get?_set_cases hbook with ⟨hid, rfl⟩ | ⟨_, hold⟩
        · exact .inr ⟨hid.symm, hsum⟩
        · exact .inl hold
    · intro r phase hs
      obtain ⟨hphase, rfl⟩ := (hanswered response).2 r phase hs
      exact ⟨hphase, hsum⟩

/-- **A step that moves no KV** reports nothing; an arrival has no row yet. -/
theorem Kept.quiet (h : Kept cfg s) {e : Event ν ι κ} {u : Serving ν ι κ}
    (hquiet : e.quiet = true) (hst : s.plane.serving.next cfg e = some u) :
    Kept cfg ⟨{ s.plane with serving := u }, s.metrics⟩ := by
  obtain ⟨hplaced, hlegs | ⟨request, host, hnew, hlegs⟩⟩ := Serving.quiet_moves hquiet hst
  · constructor
    case id_eq =>
      intro x l hx
      change u.legs.get? x = some l at hx
      rw [hlegs] at hx
      exact h.id_eq x l hx
    case placed =>
      intro x r hx
      change u.plane.placed.get? x = some r at hx
      show ∃ leg, u.legs.get? x = some leg ∧ _
      rw [hplaced] at hx
      rw [hlegs]
      exact h.placed x r hx
    case distinct => exact h.distinct
    case missed => exact h.missed
    case row =>
      intro x
      show RowFor cfg (u.legs.get? x) (facts s.plane x) (s.metrics.row? x)
      rw [hlegs]
      exact h.row x
  · constructor
    case id_eq =>
      intro x l hx
      rcases Serving.legs_cases (t := u) hlegs hx with ⟨rfl, rfl⟩ | hold
      · rfl
      · exact h.id_eq x l hold
    case placed =>
      intro x r hx
      change u.plane.placed.get? x = some r at hx
      rw [hplaced] at hx
      obtain ⟨l, hxl, hsum⟩ := h.placed x r hx
      have hne : request.id ≠ x := by
        rintro rfl
        rw [hnew] at hxl
        cases hxl
      refine ⟨l, ?_, hsum⟩
      show u.legs.get? x = some l
      rw [hlegs, Dict.get?_set_ne _ _ hne, hxl]
    case distinct => exact h.distinct
    case missed => exact h.missed
    case row =>
      intro x
      show RowFor cfg (u.legs.get? x) (facts s.plane x) (s.metrics.row? x)
      rw [hlegs]
      by_cases hx : request.id = x
      · subst hx
        obtain ⟨hnothing, hnone⟩ := (h.row request.id).unserved (by rw [hnew]; rfl)
        rw [hnew] at hnone
        rw [Dict.get?_set_self, hnothing, hnone]
        refine ⟨fun _ => ⟨rfl, rfl⟩, ?_⟩
        intro l response phase hsome hs
        obtain rfl := Option.some.inj hsome
        cases hs
      · rw [Dict.get?_set_ne _ _ hx]
        exact h.row x

/-! ## §4. The reports. -/

section Reports

variable {t : DataPlane ν ι κ} {seen : Measured} {request : Request ν κ}
  {response : Response ι κ} {known : Facts} {row : RequestResult ν ι}

/-- Anything but an ask is reported by the hosts of a request that is served. -/
theorem written_eq {id : ν} {leg : Leg ν ι κ} {p : Phase} {e : DataEvent ν ι κ}
    (hl : s.plane.serving.legs.get? id = some leg) (hs : leg.stage = .served response p)
    (habout : about e = some id) (hask : ∀ x located, e ≠ .ask x located) :
    written cfg seen s.plane t e s.metrics
      = reports cfg seen s.plane leg response s.metrics e := by
  cases e with
  | ask x located => exact absurd rfl (hask x located)
  | _ => simp only [written, habout, Option.bind_some, hl, hs, Stage.serving, Option.map_some]

omit [DecidableEq ν] [LinearOrder ι] in
/-- What a pull leaves of the half alone, and that the tokens still add up. -/
theorem pulledRow_spec
    (hsum : response.plan.cachedTokens + response.plan.uncachedTokens = request.promptTokens)
    (fetched : Bool) :
    ∃ ttft cached uncached bytes, pulledRow cfg fetched request response
        = { makeAccepted request response with
            ttft := ttft, cachedTokens := cached, uncachedTokens := uncached
            transferBytes := bytes } ∧
      cached + uncached = request.promptTokens := by
  cases fetched with
  | true => exact ⟨_, _, _, _, pulledRow_true request response, hsum⟩
  | false =>
      unfold pulledRow pulled
      by_cases hpull : response.plan.reuseSource.isSome ∧ response.plan.pullKeys ≠ []
      · rw [if_pos hpull]
        -- the whole reuse is recomputed, past what was local
        exact ⟨_, _, _, _, rfl, Nat.add_sub_cancel' (Nat.min_le_right _ _)⟩
      · rw [if_neg hpull]
        exact ⟨_, _, _, _, rfl, hsum⟩

omit [DecidableEq ν] [LinearOrder ι] in
/-- The half a prefill ends with is the pull's, cached or not. -/
theorem prefill_row {cost : ℕ → ℚ} {blockTokens : ℕ} {fetched room : Bool} {run : Filled ν ι κ}
    (h : KvCache.prefill cost blockTokens fetched room request response = .ok run) :
    ∃ kept, run.row = { (pulled cost blockTokens fetched request response.plan
      (makeAccepted request response)).2.2 with published := kept } := by
  unfold KvCache.prefill at h
  obtain ⟨kv, _, h⟩ := DataPlane.ok_of_bind h
  obtain ⟨⟨kept, _⟩, _, rfl⟩ := DataPlane.ok_of_map h
  exact ⟨kept, rfl⟩

omit [DecidableEq ν] in
/-- **The pull**, come back or not: the half is written over. -/
theorem RowOf.pulled (h : RowOf cfg request response .accepted known row) (fetched : Bool) :
    RowOf cfg request response .prefilling { known with stale := !fetched }
      (row.fill (pulledRow cfg fetched request response)) := by
  obtain ⟨ttft, cached, uncached, bytes, hhalf, hsum⟩ := pulledRow_spec h.planned fetched
  have hback : halfRow cfg request response { known with stale := !fetched }
      = pulledRow cfg fetched request response :=
    congrArg (pulledRow cfg · request response) (Bool.not_not fetched)
  have hpassed : known.passed = false :=
    Bool.eq_false_iff.mpr fun hp => h.pulling (.inr hp) rfl
  refine { h with
    prompt := ?_
    tokens := ?_
    ttft := ?_
    cachedTokens := ?_
    transferBytes := ?_
    prefill := ?_
    reuseSource := ?_
    predictedQueueWait := ?_
    pulling := nofun
    published := ?_
    queueWait := fun _ => h.queueWait hpassed
    simulated := ?_
    unhanded := fun _ => h.unhanded rfl
    tbt := fun _ => h.tbt nofun
    received := fun hr => by cases h.received hr }
  · exact congrArg Row.promptTokens hhalf
  · show (pulledRow cfg fetched request response).cachedTokens
      + (pulledRow cfg fetched request response).uncachedTokens = _
    rw [hhalf]
    exact hsum
  · rw [hback]
    rfl
  · rw [hback]
    rfl
  · rw [hback]
    rfl
  · exact congrArg some (congrArg Row.prefill hhalf)
  · exact congrArg Row.reuseSource hhalf
  · exact congrArg Row.predictedQueueWait hhalf
  · exact fun _ => congrArg Row.published hhalf
  · rintro (hq | hq | hq) <;> cases hq

omit [DecidableEq ν] in
/-- **The pass**: the half once more, with what its publish came to and the measured wait. -/
theorem RowOf.passed (h : RowOf cfg request response .prefilling known row) (kept : Bool) (q : ℚ) :
    RowOf cfg request response .prefilling { known with passed := true }
      ((row.fill { halfRow cfg request response known with published := kept }).wait q) := by
  obtain ⟨ttft, cached, uncached, bytes, hhalf, hsum⟩ := pulledRow_spec h.planned (!known.stale)
  have hprefill : (pulledRow cfg (!known.stale) request response).prefill = response.prefill :=
    congrArg Row.prefill hhalf
  refine { h with
    prompt := congrArg Row.promptTokens hhalf
    tokens := ?_
    ttft := rfl
    cachedTokens := rfl
    transferBytes := rfl
    prefill := congrArg some hprefill
    reuseSource := congrArg Row.reuseSource hhalf
    predictedQueueWait := congrArg Row.predictedQueueWait hhalf
    pulling := nofun
    published := nofun
    queueWait := nofun }
  show (pulledRow cfg (!known.stale) request response).cachedTokens
    + (pulledRow cfg (!known.stale) request response).uncachedTokens = _
  rw [hhalf]
  exact hsum

omit [DecidableEq ν] in
/-- Before the handoff nothing is recorded of a decode. -/
theorem RowOf.nothing {p : Phase} (h : RowOf cfg request response p known row)
    (hp : p.handedOver cfg.simulateDecode = false) (hdone : p ≠ .done) :
    ∃ stale passed, known = ⟨stale, passed, false, false, none⟩ := by
  have hlate : ¬ (known.missed = true ∨ known.resided = true) := by
    intro hrecord
    rw [h.late hrecord] at hp
    cases hp
  have hmissed : known.missed = false := by simpa using fun hm => hlate (.inl hm)
  have hresided : known.resided = false := by simpa using fun hr => hlate (.inr hr)
  have hreceived : known.received = none :=
    Option.not_isSome_iff_eq_none.mp fun hr => hdone (h.received hr)
  refine ⟨known.stale, known.passed, ?_⟩
  calc known = ⟨known.stale, known.passed, known.missed, known.resided, known.received⟩ := rfl
    _ = ⟨known.stale, known.passed, false, false, none⟩ := by rw [hmissed, hresided, hreceived]

omit [DecidableEq ν] in
/-- **The prefill is reported done**: the client goes on, where decode is modelled. -/
theorem RowOf.finished (h : RowOf cfg request response .prefilling known row) :
    RowOf cfg request response (if cfg.simulateDecode then .prefilled else .done) known row := by
  obtain ⟨stale, passed, rfl⟩ := h.nothing rfl nofun
  have hdecode : row.decode = none := h.decode
  have hbytes : row.handoffBytes = 0 := h.unhanded rfl
  have htbt : row.tbt = 0 := h.tbt nofun
  cases hsim : cfg.simulateDecode with
  | true =>
      exact { h with
        pulling := nofun
        simulated := fun _ => hsim
        unhanded := fun _ => hbytes
        tbt := fun _ => htbt
        received := nofun }
  | false =>
      refine { h with
        pulling := nofun
        simulated := ?_
        decode := ?_
        late := ?_
        unhanded := fun _ => hbytes
        tbt := fun _ => htbt
        received := nofun }
      · rintro (hq | hq | hq) <;> cases hq
      · rw [hdecode, hsim]
        rfl
      · rintro (hq | hq) <;> cases hq

omit [DecidableEq ν] in
/-- **The handoff**, come or missed. -/
theorem RowOf.handed (h : RowOf cfg request response .prefilled known row) (missed own : Prop)
    [Decidable missed] [Decidable own] (nbytes : ℕ)
    (hown : own ↔ response.decode = response.prefill ∨ request.blockKeys = []) :
    RowOf cfg request response .handed { known with missed := decide (missed ∧ ¬ own) }
      { row with
        decode := some response.decode
        handoffBytes := if own ∨ missed then 0 else nbytes
        handoffMissed := decide (missed ∧ ¬ own) } := by
  obtain ⟨stale, passed, rfl⟩ := h.nothing rfl nofun
  have hheld : held cfg request response ⟨stale, passed, decide (missed ∧ ¬ own), false, none⟩
      = held cfg request response ⟨stale, passed, false, false, none⟩ := by
    unfold held
    simp
  refine { h with
    pulling := nofun
    simulated := fun _ => h.simulated (.inl rfl)
    decode := rfl
    missed := rfl
    late := fun _ => rfl
    bytes := ?_
    unhanded := nofun
    tbt := fun _ => h.tbt nofun
    received := nofun
    blocks := by rw [hheld]; exact h.blocks
    kept := by rw [hheld]; exact h.kept
    outputTokens := h.outputTokens
    latency := h.latency }
  intro hnone
  apply if_pos
  rcases hnone with hnone | hnone | hnone
  · exact .inl (hown.mpr (.inl hnone))
  · exact .inl (hown.mpr (.inr hnone))
  · exact .inr (of_decide_eq_true hnone).1

/-- A row after `_reside`. -/
def residedRow (blocks : ℕ) (room : Bool) (row : RequestResult ν ι) : RequestResult ν ι :=
  if blocks = 0 then row
  else if room then { row with decodeBlocks := row.decodeBlocks + blocks }
  else { row with decodeUnpublished := true }

omit [DecidableEq ν] [LinearOrder ι] in
/-- What was kept is counted, and what was refused is flagged. -/
theorem residedRow_eq (blocks : ℕ) (room : Bool) (row : RequestResult ν ι) : ∃ b u,
    residedRow blocks room row = { row with decodeBlocks := b, decodeUnpublished := u } ∧
      b ≤ row.decodeBlocks + blocks ∧
      (u = false → row.decodeUnpublished = false ∧ b = row.decodeBlocks + blocks) := by
  unfold residedRow
  by_cases hz : blocks = 0
  · rw [if_pos hz, hz]
    exact ⟨_, _, rfl, le_refl _, fun hu => ⟨hu, rfl⟩⟩
  · rw [if_neg hz]
    cases room with
    | true => exact ⟨_, _, rfl, le_refl _, fun hu => ⟨hu, rfl⟩⟩
    | false => exact ⟨_, _, rfl, Nat.le_add_right _ _, nofun⟩

omit [DecidableEq ν] in
/-- **The chain kept where it came to**, unless it was there or never came. -/
theorem RowOf.resided (h : RowOf cfg request response .handed known row)
    (hnew : known.resided = false) (room : Bool) {blocks : ℕ}
    (hblocks : blocks = if known.missed = false ∧ response.decode ≠ response.prefill then
      request.blockKeys.length else 0) :
    RowOf cfg request response .handed { known with resided := true }
      (residedRow blocks room row) := by
  have hheld : held cfg request response { known with resided := true }
      = held cfg request response known + blocks := by
    rw [hblocks]
    unfold held
    simp only [hnew, true_and]
    rw [if_neg (by simp : ¬ (false = true ∧ _))]
    omega
  obtain ⟨b, u, heq, hle, hkept⟩ := residedRow_eq blocks room row
  rw [heq]
  have hblocks := h.blocks
  refine { h with
    late := fun _ => rfl
    blocks := ?_
    kept := ?_ }
  · rw [hheld]
    show b ≤ _
    omega
  · intro hu
    obtain ⟨hold, hb⟩ := hkept hu
    rw [hheld, ← h.kept hold]
    exact hb

omit [DecidableEq ν] in
/-- **A decode goes on**, and its worst gap is whatever it was. -/
theorem RowOf.decoding {p q : Phase} (h : RowOf cfg request response p known row)
    (hp : p = .handed ∨ p = .decoding) (hq : q = .decoding ∨ q = .done) (tbt : ℚ)
    (hgap : q = .done ∨ tbt = 0) :
    RowOf cfg request response q known row ∧
      RowOf cfg request response q known { row with tbt := tbt } := by
  have hsim : cfg.simulateDecode = true := by
    rcases hp with rfl | rfl
    · exact h.simulated (.inr (.inl rfl))
    · exact h.simulated (.inr (.inr rfl))
  have hover : q.handedOver cfg.simulateDecode = true := by
    rcases hq with rfl | rfl
    · rfl
    · exact hsim
  have hpast : p.handedOver cfg.simulateDecode = true := by
    rcases hp with rfl | rfl <;> rfl
  have hnone : known.received = none := by
    rw [← Option.not_isSome_iff_eq_none]
    intro hr
    rcases hp with rfl | rfl
    · cases h.received hr
    · cases h.received hr
  have hdecode : row.decode = some response.decode := by
    rw [h.decode, if_pos hpast]
  have hnew : q ≠ .accepted := by
    rcases hq with rfl | rfl
    · exact nofun
    · exact nofun
  have htbt : row.tbt = 0 := by
    refine h.tbt ?_
    rcases hp with rfl | rfl
    · exact nofun
    · exact nofun
  have hgo : RowOf cfg request response q known row := { h with
    pulling := fun _ => hnew
    simulated := fun _ => hsim
    decode := by rw [if_pos hover]; exact hdecode
    late := fun _ => hover
    unhanded := fun hnot => by rw [hover] at hnot; cases hnot
    tbt := fun _ => htbt
    received := fun hr => by rw [hnone] at hr; cases hr }
  exact ⟨hgo, { hgo with tbt := fun hdone => hgap.resolve_left hdone }⟩

omit [DecidableEq ν] in
/-- **The client has its answer**, and the decode host keeps what it generated of it. -/
theorem RowOf.completed (h : RowOf cfg request response .done known row)
    (hnone : known.received = none) (n : ℕ) (room : Bool) (latency : ℚ) :
    RowOf cfg request response .done { known with received := some n }
      { residedRow (DataPlane.blocksMade cfg n) room row with
        latency := latency
        outputTokens := n } := by
  have hheld : held cfg request response { known with received := some n }
      = held cfg request response known + DataPlane.blocksMade cfg n := by
    unfold held
    simp only [hnone, Option.getD_some, Option.getD_none]
    have hzero : DataPlane.blocksMade cfg 0 = 0 := by simp [DataPlane.blocksMade]
    rw [hzero]
    omega
  obtain ⟨b, u, heq, hle, hkept⟩ := residedRow_eq (DataPlane.blocksMade cfg n) room row
  rw [heq]
  have hblocks := h.blocks
  refine { h with
    received := fun _ => rfl
    blocks := ?_
    kept := ?_
    outputTokens := rfl
    latency := nofun }
  · rw [hheld]
    show b ≤ _
    omega
  · intro hu
    obtain ⟨hold, hb⟩ := hkept hu
    rw [hheld, ← h.kept hold]
    exact hb

end Reports

/-! ## §5. A step, and its reports. -/

section Next

variable {grow : κ → ℕ → κ} {root : ν → κ} {t : DataPlane ν ι κ}
  {seen : Measured}

omit [LinearOrder ι] in
/-- `_reside` on an opened request. -/
theorem amended_resides {m : Metrics ν ι} {id : ν} {row : RequestResult ν ι}
    (h : m.row? id = some row) (blocks : ℕ) (room : Bool) :
    ∃ m', resides id blocks room m = .ok m' ∧ m.Amended id (residedRow blocks room) m' := by
  unfold resides
  by_cases hz : blocks = 0
  · rw [if_pos hz]
    refine ⟨m, rfl, ?_⟩
    have hsame : (residedRow blocks room : RequestResult ν ι → _) = fun r => r :=
      funext fun r => if_pos hz
    rw [hsame]
    exact .refl m id
  · rw [if_neg hz]
    have hf : (residedRow blocks room : RequestResult ν ι → _) = fun r =>
        if room then { r with decodeBlocks := r.decodeBlocks + blocks }
        else { r with decodeUnpublished := true } := funext fun r => if_neg hz
    rw [hf]
    exact Metrics.amended_of_row h _ _

/-- **A report of a served request** finds its row, and the collector keeps up. -/
theorem Kept.reported (h : Kept cfg s) {id : ν} {leg : Leg ν ι κ} {response : Response ι κ}
    {p q : Phase} {e : DataEvent ν ι κ} (hl : s.plane.serving.legs.get? id = some leg)
    (hs : leg.stage = .served response p) (habout : about e = some id)
    (hask : ∀ x located, e ≠ .ask x located)
    (hlegs : ∀ x, t.serving.legs.get? x = if id = x then
      some { leg with stage := .served response q } else s.plane.serving.legs.get? x)
    (hplaced : t.serving.plane.placed = s.plane.serving.plane.placed)
    (hfacts : ∀ x, id ≠ x → facts t x = facts s.plane x) (hmissed : t.missed.Nodup)
    {f : RequestResult ν ι → RequestResult ν ι}
    (hreport : ∀ row, s.metrics.row? id = some row → ∃ m,
      reports cfg seen s.plane leg response s.metrics e = .ok m ∧ s.metrics.Amended id f m)
    (hown : ∀ row, RowOf cfg leg.request response p (facts s.plane id) row →
      RowOf cfg leg.request response q (facts t id) (f row)) :
    ∃ m, written cfg seen s.plane t e s.metrics = .ok m ∧ Kept cfg ⟨t, m⟩ := by
  obtain ⟨row, hrow, _⟩ := h.served hl hs
  obtain ⟨m, hm, hamended⟩ := hreport row hrow
  exact ⟨m, (written_eq hl hs habout hask).trans hm,
    h.moved hl hs hlegs hplaced hfacts hmissed hamended hown⟩

omit [LinearOrder ι] [DecidableEq κ] in
/-- A leg that stays as it is. -/
theorem legs_same {u : Serving ν ι κ} {id : ν} {leg : Leg ν ι κ} {response : Response ι κ}
    {p : Phase} (hl : u.legs.get? id = some leg) (hs : leg.stage = .served response p) (x : ν) :
    u.legs.get? x = if id = x then some { leg with stage := .served response p }
      else u.legs.get? x := by
  by_cases hx : id = x
  · subst hx
    rw [if_pos rfl, hl, ← hs]
  · rw [if_neg hx]

/-- The pull of a plan. -/
theorem Kept.pulling (h : Kept cfg s) {id : ν} {located : κ → List ι} {fetched : Bool}
    (hst : DataPlane.next cfg grow root s.plane (.pull id located fetched) = some t) :
    ∃ m, written cfg seen s.plane t (.pull id located fetched) s.metrics = .ok m ∧
      Kept cfg ⟨t, m⟩ := by
  obtain ⟨u, hu, rfl⟩ := Option.map_eq_some_iff.mp hst
  obtain ⟨leg, response, hl, hs, rfl⟩ := Serving.next_at hu
  obtain rfl := h.id_eq id leg hl
  obtain ⟨hlegs, hplaced⟩ := Serving.pull_moves cfg s.plane.serving leg response located
  refine h.reported (q := .prefilling)
    (f := RequestResult.fill (pulledRow cfg fetched leg.request response))
    hl hs rfl nofun (fun x => ?_) hplaced (fun x hx => ?_)
    h.missed (fun row hrow => ?_) (fun row hof => ?_)
  · show (s.plane.serving.pull cfg leg response located).legs.get? x = _
    rw [hlegs, Dict.get?_set]
  · unfold facts
    cases fetched with
    | true => rfl
    | false => simp [Ne.symm hx]
  · simp only [reports]
    exact Metrics.amended_of_row hrow _ _
  · -- nothing was on record as stale before
    have hfresh : (facts s.plane leg.request.id).stale = false :=
      Bool.eq_false_iff.mpr fun hstale => hof.pulling (.inl hstale) rfl
    convert hof.pulled fetched using 1
    unfold facts
    rw [Facts.mk.injEq]
    refine ⟨?_, rfl, rfl, rfl, rfl⟩
    cases fetched with
    | true => exact hfresh
    | false => exact decide_eq_true List.mem_cons_self

/-- The pass of a prefill, and its publish. -/
theorem Kept.publishing (h : Kept cfg s) {id : ν} {room : Bool}
    (hst : DataPlane.next cfg grow root s.plane (.publish id room) = some t) :
    ∃ m, written cfg seen s.plane t (.publish id room) s.metrics = .ok m ∧ Kept cfg ⟨t, m⟩ := by
  simp only [DataPlane.next, Option.ite_none_left_eq_some] at hst
  obtain ⟨_, hst⟩ := hst
  obtain ⟨⟨leg, response⟩, hat, hst⟩ := Option.bind_eq_some_iff.mp hst
  obtain ⟨hl, hs⟩ := Serving.at?_eq_some.mp hat
  simp only at hst
  cases hrun : s.plane.filled cfg id room leg.request response with
  | error e =>
      rw [hrun] at hst
      cases hst
  | ok run =>
      rw [hrun] at hst
      obtain rfl := Option.some.inj hst
      refine h.reported (q := .prefilling)
        (f := fun r => (r.fill run.row).wait seen.queueWait) hl hs rfl (by simp)
        (legs_same hl hs) rfl (fun x hx => ?_) h.missed (fun row hrow => ?_) (fun row hof => ?_)
      · unfold facts DataPlane.tell
        simp [Ne.symm hx]
      · simp only [reports, hrun]
        exact Metrics.amended_of_row hrow _ _
      · obtain ⟨kept, hhalf⟩ := prefill_row hrun
        have hstale : decide (id ∉ s.plane.stale) = !(facts s.plane id).stale := decide_not
        have hfacts : { facts s.plane id with passed := true }
            = facts ({ s.plane with published := id :: s.plane.published }.tell leg.host
                (run.named.map Prod.fst)) id := by
          unfold facts DataPlane.tell
          simp
        rw [hhalf, hstale, ← hfacts]
        exact hof.passed kept seen.queueWait

/-- A prefill reported done. -/
theorem Kept.finishing (h : Kept cfg s) {id : ν} {at' : ℚ}
    (hst : DataPlane.next cfg grow root s.plane (.finish id at') = some t) :
    ∃ m, written cfg seen s.plane t (.finish id at') s.metrics = .ok m ∧ Kept cfg ⟨t, m⟩ := by
  simp only [DataPlane.next, Option.ite_none_right_eq_some] at hst
  obtain ⟨_, hst⟩ := hst
  obtain ⟨u, hu, rfl⟩ := Option.map_eq_some_iff.mp hst
  obtain ⟨_, leg, response, hl, hs, rfl⟩ := Serving.next_finish hu
  obtain rfl := h.id_eq id leg hl
  exact h.reported hl hs rfl (by simp) (fun x => Dict.get?_set _ _ _ _) rfl (fun _ _ => rfl)
    h.missed (fun row _ => ⟨_, rfl, .refl _ _⟩) (fun row hof => hof.finished)

/-- A handoff, come or missed. -/
theorem Kept.handing (h : Kept cfg s) {id : ν} {located : κ → List ι} {missed : Bool}
    (hst : DataPlane.next cfg grow root s.plane (.handoff id located missed) = some t) :
    ∃ m, written cfg seen s.plane t (.handoff id located missed) s.metrics = .ok m ∧
      Kept cfg ⟨t, m⟩ := by
  simp only [DataPlane.next] at hst
  obtain ⟨leg, response, hl, hs, rfl⟩ := Serving.next_at hst
  obtain rfl := h.id_eq id leg hl
  obtain ⟨hlegs, hplaced⟩ := Serving.handoff_moves cfg s.plane.serving leg response located
  -- nothing was missed before, so what is missed now is all there is
  obtain ⟨row, _, hof⟩ := h.served hl hs
  have hnothing := hof.nothing rfl (by simp)
  obtain ⟨stale, passed, hnothing⟩ := hnothing
  simp only [facts, Facts.mk.injEq, decide_eq_false_iff_not] at hnothing
  obtain ⟨_, _, hnomiss, hnores, hnorec⟩ := hnothing
  let own := response.decode = response.prefill ∨ leg.request.blockKeys = []
  refine h.reported (q := .handed) (f := fun r => { r with
      decode := some response.decode
      handoffBytes := if own ∨ missed = true then 0 else seen.handoffBytes
      handoffMissed := decide (missed = true ∧ ¬ own) }) hl hs rfl (by simp) (fun x => ?_) hplaced
    (fun x hx => ?_) ?_ (fun row hrow => ?_) (fun row hof => ?_)
  · show (s.plane.serving.handoff cfg leg response located).legs.get? x = _
    rw [hlegs, Dict.get?_set]
  · unfold facts
    congr 2
    simp only
    split
    · simp [Ne.symm hx]
    · rfl
  · show (ite _ _ _ : List ν).Nodup
    split
    · exact List.nodup_cons.mpr ⟨hnomiss, h.missed⟩
    · exact h.missed
  · simp only [reports]
    exact Metrics.amended_of_row hrow _ _
  · have hmine := hof.handed (missed = true) own seen.handoffBytes Iff.rfl
    convert hmine using 1
    unfold facts
    rw [Facts.mk.injEq]
    refine ⟨rfl, rfl, ?_, rfl, rfl⟩
    simp only
    rw [decide_eq_decide, not_or]
    split
    · simp_all
    · simp_all

/-- A handoff's publish. -/
theorem Kept.residing (h : Kept cfg s) {id : ν} {room : Bool}
    (hst : DataPlane.next cfg grow root s.plane (.reside id room) = some t) :
    ∃ m, written cfg seen s.plane t (.reside id room) s.metrics = .ok m ∧ Kept cfg ⟨t, m⟩ := by
  simp only [DataPlane.next, Option.ite_none_left_eq_some] at hst
  obtain ⟨hnew, hst⟩ := hst
  obtain ⟨⟨leg, response⟩, hat, hst⟩ := Option.bind_eq_some_iff.mp hst
  obtain ⟨hl, hs⟩ := Serving.at?_eq_some.mp hat
  simp only at hst
  have hfacts : t.serving = s.plane.serving ∧ t.missed = s.plane.missed ∧
      t.resided = id :: s.plane.resided ∧ t.received = s.plane.received ∧
      t.stale = s.plane.stale ∧ t.published = s.plane.published := by
    by_cases hown : response.decode = response.prefill ∨ id ∈ s.plane.missed
    · rw [if_pos hown] at hst
      obtain rfl := Option.some.inj hst
      exact ⟨rfl, rfl, rfl, rfl, rfl, rfl⟩
    · rw [if_neg hown] at hst
      rw [DataPlane.tell_of_resides hst]
      exact ⟨rfl, rfl, rfl, rfl, rfl, rfl⟩
  obtain ⟨hserving, hmissed, hresided, hreceived, hstale, hpublished⟩ := hfacts
  let blocks := if decide (id ∈ s.plane.missed) = false ∧ response.decode ≠ response.prefill then
    leg.request.blockKeys.length else 0
  refine h.reported (q := .handed) (f := residedRow blocks room) hl hs rfl (by simp) ?_
    (by rw [hserving]) (fun x hx => ?_) (by rw [hmissed]; exact h.missed) (fun row hrow => ?_)
    (fun row hof => ?_)
  · rw [hserving]
    exact legs_same hl hs
  · unfold facts
    rw [hmissed, hresided, hreceived, hstale, hpublished]
    simp [Ne.symm hx]
  · obtain ⟨m, hm, hamended⟩ := amended_resides hrow blocks room
    refine ⟨m, ?_, hamended⟩
    simp only [reports]
    by_cases hown : response.decode = response.prefill ∨ id ∈ s.plane.missed
    · have hz : blocks = 0 := if_neg (by simp only [decide_eq_false_iff_not]; tauto)
      rw [if_pos hown, ← hm, resides, if_pos hz]
    · have hall : blocks = leg.request.blockKeys.length :=
        if_pos (by simp only [decide_eq_false_iff_not]; tauto)
      rw [if_neg hown, ← hall]
      exact hm
  · have hblocks : blocks = if (facts s.plane id).missed = false ∧
        response.decode ≠ response.prefill then leg.request.blockKeys.length else 0 := rfl
    have hmine := hof.resided (decide_eq_false hnew) room hblocks
    convert hmine using 1
    unfold facts
    rw [hmissed, hresided, hreceived, hstale, hpublished]
    simp

/-- A host with no engine answers. -/
theorem Kept.answering (h : Kept cfg s) {id : ν}
    (hst : DataPlane.next cfg grow root s.plane (.engineless id) = some t) :
    ∃ m, written cfg seen s.plane t (.engineless id) s.metrics = .ok m ∧ Kept cfg ⟨t, m⟩ := by
  simp only [DataPlane.next, Option.ite_none_right_eq_some] at hst
  obtain ⟨_, hst⟩ := hst
  obtain ⟨leg, response, hl, hs, rfl⟩ := Serving.next_at hst
  obtain rfl := h.id_eq id leg hl
  refine h.reported (q := .done) (f := fun r => { r with
      latency := s.plane.serving.clock - leg.request.arrival
      outputTokens := 1 }) hl hs rfl (by simp) (fun x => Dict.get?_set _ _ _ _) rfl (fun x hx => ?_)
    h.missed (fun row hrow => ?_) (fun row hof => ?_)
  · unfold facts
    simp only
    rw [Dict.get?_set_ne _ _ hx]
  · simp only [reports]
    exact Metrics.amended_of_row hrow _ _
  · have hnone : (facts s.plane leg.request.id).received = none := by
      rw [← Option.not_isSome_iff_eq_none]
      intro hr
      cases hof.received hr
    have hmine := (hof.decoding (.inl rfl) (.inr rfl) 0 (.inr rfl)).1.completed hnone 1 true
      (s.plane.serving.clock - leg.request.arrival)
    -- one token makes no block
    rw [DataPlane.blocksMade_one, residedRow, if_pos rfl] at hmine
    convert hmine using 1
    unfold facts
    simp only
    rw [Dict.get?_set_self]

/-- An admission, to the batch or past it. -/
theorem Kept.joining (h : Kept cfg s) {id : ν}
    (hst : DataPlane.next cfg grow root s.plane (.join id) = some t) :
    ∃ m, written cfg seen s.plane t (.join id) s.metrics = .ok m ∧ Kept cfg ⟨t, m⟩ := by
  simp only [DataPlane.next, Option.ite_none_right_eq_some] at hst
  obtain ⟨_, hst⟩ := hst
  obtain ⟨leg, response, hl, hs, rfl⟩ := Serving.next_at hst
  obtain rfl := h.id_eq id leg hl
  obtain ⟨q, hq, hlegs, hplaced⟩ := Serving.join_moves s.plane.serving leg response
  refine h.reported (q := q)
    (f := fun r => if leg.request.decodeTokens = 0 then { r with tbt := 0 } else r) hl hs rfl
    (by simp) (fun x => ?_) hplaced (fun _ _ => rfl) h.missed (fun row hrow => ?_)
    (fun row hof => ?_)
  · show (s.plane.serving.join leg response).legs.get? x = _
    rw [hlegs, Dict.get?_set]
  · simp only [reports]
    by_cases hz : leg.request.decodeTokens = 0
    · simp only [if_pos hz]
      exact Metrics.amended_of_row hrow _ _
    · simp only [if_neg hz]
      exact ⟨_, rfl, .refl _ _⟩
  · have hmine := hof.decoding (.inl rfl) hq 0 (.inr rfl)
    by_cases hz : leg.request.decodeTokens = 0
    · simp only [if_pos hz]
      exact hmine.2
    · simp only [if_neg hz]
      exact hmine.1

/-- A member's last token. -/
theorem Kept.leaving (h : Kept cfg s) {id : ν} {tokens : ℕ}
    (hst : DataPlane.next cfg grow root s.plane (.leave id tokens) = some t) :
    ∃ m, written cfg seen s.plane t (.leave id tokens) s.metrics = .ok m ∧ Kept cfg ⟨t, m⟩ := by
  simp only [DataPlane.next] at hst
  obtain ⟨leg, response, hl, hs, rfl⟩ := Serving.next_at hst
  obtain rfl := h.id_eq id leg hl
  refine h.reported (q := .done) (f := fun r => { r with tbt := seen.tbt }) hl hs rfl (by simp)
    (fun x => Dict.get?_set _ _ _ _) rfl (fun _ _ => rfl) h.missed (fun row hrow => ?_)
    (fun row hof => ?_)
  · simp only [reports]
    exact Metrics.amended_of_row hrow _ _
  · exact (hof.decoding (.inr rfl) (.inr rfl) seen.tbt (.inl rfl)).2

/-- A generation's publish, and the client's count of it. -/
theorem Kept.keeping (h : Kept cfg s) {id : ν} {room : Bool}
    (hst : DataPlane.next cfg grow root s.plane (.keep id room) = some t) :
    ∃ m, written cfg seen s.plane t (.keep id room) s.metrics = .ok m ∧ Kept cfg ⟨t, m⟩ := by
  simp only [DataPlane.next, Option.ite_none_left_eq_some] at hst
  obtain ⟨hnone, hst⟩ := hst
  have hreceived := Option.not_isSome_iff_eq_none.mp hnone
  obtain ⟨⟨leg, response⟩, hat, hst⟩ := Option.bind_eq_some_iff.mp hst
  obtain ⟨hl, hs⟩ := Serving.at?_eq_some.mp hat
  obtain ⟨tokens, htokens, hst⟩ := Option.bind_eq_some_iff.mp hst
  cases hcount : blocksFor cfg.blockTokens tokens with
  | error e =>
      rw [hcount] at hst
      cases hst
  | ok count =>
      rw [hcount] at hst
      obtain rfl := DataPlane.tell_of_resides hst
      have hmade := DataPlane.blocksMade_of_blocksFor hcount
      refine h.reported (q := .done) (f := fun r => { residedRow count room r with
          latency := s.plane.serving.clock - leg.request.arrival
          outputTokens := tokens + 1 }) hl hs rfl (by simp) (legs_same hl hs) rfl (fun x hx => ?_)
        h.missed (fun row hrow => ?_) (fun row hof => ?_)
      · unfold facts DataPlane.tell
        simp only
        rw [Dict.get?_set_ne _ _ hx]
      · -- two reports, one after the other
        obtain ⟨m, hm, hamended⟩ := amended_resides hrow count room
        have hrow' : m.row? id = some (residedRow count room row) := by
          rw [hamended.row, if_pos rfl, hrow]
          rfl
        obtain ⟨m', hm', hamended'⟩ := Metrics.amended_of_row hrow'
          (fun r => { r with
            latency := s.plane.serving.clock - leg.request.arrival
            outputTokens := tokens + 1 }) fun _ => rfl
        refine ⟨m', ?_, hamended.trans hamended'⟩
        have hgenerated : s.plane.generated.getD id 0 = tokens := by
          rw [Dict.getD, htokens]
          rfl
        have hblocks : generatedBlocks cfg tokens = count := by
          rw [generatedBlocks, hcount]
          rfl
        simp only [reports, hgenerated, hblocks, hm]
        exact hm'
      · have hmine := hof.completed hreceived (tokens + 1) room
          (s.plane.serving.clock - leg.request.arrival)
        rw [hmade] at hmine
        convert hmine using 1
        unfold facts DataPlane.tell
        simp only
        rw [Dict.get?_set_self]

/-- **No report of a step raises**, and the collector keeps up. -/
theorem Kept.next (h : Kept cfg s) {e : DataEvent ν ι κ}
    (hst : DataPlane.next cfg grow root s.plane e = some t) :
    ∃ m, written cfg seen s.plane t e s.metrics = .ok m ∧ Kept cfg ⟨t, m⟩ := by
  cases e with
  | serve e =>
      simp only [DataPlane.next, Option.ite_none_right_eq_some] at hst
      obtain ⟨hquiet, hst⟩ := hst
      obtain ⟨u, hu, rfl⟩ := Option.map_eq_some_iff.mp hst
      exact ⟨s.metrics, rfl, h.quiet hquiet hu⟩
  | ask id located =>
      obtain ⟨u, hu, rfl⟩ := Option.map_eq_some_iff.mp hst
      exact h.ask hu seen
  | pull id located fetched => exact h.pulling hst
  | publish id room => exact h.publishing hst
  | finish id at' => exact h.finishing hst
  | handoff id located missed => exact h.handing hst
  | reside id room => exact h.residing hst
  | engineless id => exact h.answering hst
  | join id => exact h.joining hst
  | leave id tokens => exact h.leaving hst
  | keep id room => exact h.keeping hst

end Next

/-! ## §6. Runs. -/

section Runs

variable {grow : κ → ℕ → κ} {root : ν → κ} {origins : List String}

/-- **The collector keeps up** with every run. -/
theorem kept_of_run (h : (machine cfg grow root origins).Reachable s) : Kept cfg s := by
  refine h.invariant ?_ ?_
  · intro s hs
    obtain ⟨now, rfl⟩ := hs
    exact kept_start cfg origins now
  · intro s e t hs hst
    obtain ⟨e, seen⟩ := e
    obtain ⟨u, hu, hst⟩ := Option.bind_eq_some_iff.mp hst
    obtain ⟨m, hm, hkept⟩ := hs.next hu
    rw [hm] at hst
    obtain rfl := Option.some.inj hst
    exact hkept

/-- A collector in a run takes every step its data plane takes. -/
theorem next_of_kept (h : Kept cfg s) {e : DataEvent ν ι κ} {t : DataPlane ν ι κ}
    (hst : DataPlane.next cfg grow root s.plane e = some t) (seen : Measured) :
    ∃ m, next cfg grow root s (e, seen) = some ⟨t, m⟩ := by
  obtain ⟨m, hm, _⟩ : ∃ m, written cfg seen s.plane t e s.metrics = .ok m ∧ Kept cfg ⟨t, m⟩ :=
    h.next hst
  refine ⟨m, ?_⟩
  simp only [next, hst, Option.bind_some, hm]

/-- **Every run is collected**: whatever the data plane does next and whatever that
measures, no report finds its row missing; so the collector is in the way of no run, and
sees none that the data plane does not run. -/
theorem collects (cfg : Settings ι) (grow : κ → ℕ → κ) (root : ν → κ) (origins : List String) :
    (∀ s : Collected ν ι κ, (machine cfg grow root origins).Reachable s → ∀ e t,
      DataPlane.next cfg grow root s.plane e = some t → ∀ seen,
        ∃ m, next cfg grow root s (e, seen) = some ⟨t, m⟩) ∧
      ∀ p : DataPlane ν ι κ, (DataPlane.machine cfg grow root).Reachable p ↔
        ∃ m, (machine cfg grow root origins).Reachable ⟨p, m⟩ := by
  refine ⟨fun s hs e t hst seen => next_of_kept (kept_of_run hs) hst seen, fun p => ⟨?_, ?_⟩⟩
  · intro hp
    induction hp with
    | init hinit =>
        obtain ⟨now, rfl⟩ := hinit
        exact ⟨_, .init ⟨now, rfl⟩⟩
    | step _ hst ih =>
        obtain ⟨m, hm⟩ := ih
        obtain ⟨m', hm'⟩ := next_of_kept (kept_of_run hm) hst ⟨0, 0, 0⟩
        exact ⟨m', .step hm hm'⟩
  · rintro ⟨m, hm⟩
    refine hm.invariant (P := fun s => (DataPlane.machine cfg grow root).Reachable s.plane) ?_ ?_
    · rintro s ⟨now, rfl⟩
      exact .init ⟨now, rfl⟩
    · rintro s ⟨e, seen⟩ t hs hst
      obtain ⟨u, hu, hst⟩ := Option.bind_eq_some_iff.mp hst
      cases hw : written cfg seen s.plane u e s.metrics with
      | error err =>
          rw [hw] at hst
          cases hst
      | ok m =>
          rw [hw] at hst
          obtain rfl := Option.some.inj hst
          exact .step hs hu

/-- A leg that was decided is one whose row is open. -/
theorem Kept.isSome_row? (h : Kept cfg s) (id : ν) : (s.metrics.row? id).isSome = true ↔
    ∃ leg, s.plane.serving.legs.get? id = some leg ∧
      (leg.stage = .refused ∨ leg.stage.serving.isSome = true) := by
  cases hl : s.plane.serving.legs.get? id with
  | none =>
      have hrow := ((h.row id).unserved (by rw [hl]; rfl)).2
      rw [hl] at hrow
      simp [hrow]
  | some leg =>
      simp only [Option.some.injEq, exists_eq_left']
      cases hs : leg.stage with
      | served response phase =>
          obtain ⟨row, hrow, _⟩ := h.served hl hs
          simp [hrow, Stage.serving]
      | refused =>
          obtain ⟨_, hrow⟩ := h.unserved hl (by rw [hs]; rfl)
          simp [hrow, opens, hs]
      | asking =>
          obtain ⟨_, hrow⟩ := h.unserved hl (by rw [hs]; rfl)
          simp [hrow, opens, hs, Stage.serving]
      | raised =>
          obtain ⟨_, hrow⟩ := h.unserved hl (by rw [hs]; rfl)
          simp [hrow, opens, hs, Stage.serving]
      | lost =>
          obtain ⟨_, hrow⟩ := h.unserved hl (by rw [hs]; rfl)
          simp [hrow, opens, hs, Stage.serving]

/-- **What a row is of**: a refused request, or a served one in the phase it is in. -/
theorem Kept.mem_rows (h : Kept cfg s) {row : RequestResult ν ι}
    (hrow : row ∈ s.metrics.ledger.rows) :
    ∃ leg, s.plane.serving.legs.get? row.id = some leg ∧
      ((leg.stage = .refused ∧ row = .rejected leg.request) ∨
        ∃ response phase, leg.stage = .served response phase ∧
          RowOf cfg leg.request response phase (facts s.plane row.id) row) := by
  have hopen := (h.distinct.mem_iff row).mp hrow
  obtain ⟨leg, hl, hdecided⟩ := (h.isSome_row? row.id).mp (by rw [hopen]; rfl)
  refine ⟨leg, hl, ?_⟩
  cases hs : leg.stage with
  | served response phase =>
      obtain ⟨r, hr, hof⟩ := h.served hl hs
      obtain rfl := Option.some.inj (hopen.symm.trans hr)
      exact .inr ⟨response, phase, rfl, hof⟩
  | refused =>
      obtain ⟨_, hr⟩ := h.unserved hl (by rw [hs]; rfl)
      rw [hopen, opens, hs] at hr
      exact .inl ⟨rfl, Option.some.inj hr⟩
  | asking => simp [hs, Stage.serving] at hdecided
  | raised => simp [hs, Stage.serving] at hdecided
  | lost => simp [hs, Stage.serving] at hdecided

/-- **One row for each decided request, saying what became of it**, at any point of any
run: no id has two rows, a request has one from the instant it is refused or accepted
on, and the row says what its hosts and its client have done of it so far. -/
theorem rows_reconcile (h : (machine cfg grow root origins).Reachable s) :
    (s.metrics.ledger.rows.map RequestResult.id).Nodup ∧
      (∀ id, id ∈ s.metrics.ledger.rows.map RequestResult.id ↔
        ∃ leg, s.plane.serving.legs.get? id = some leg ∧
          (leg.stage = .refused ∨ leg.stage.serving.isSome = true)) ∧
      ∀ row ∈ s.metrics.ledger.rows, ∃ leg, s.plane.serving.legs.get? row.id = some leg ∧
        ((leg.stage = .refused ∧ row = .rejected leg.request) ∨
          ∃ response phase, leg.stage = .served response phase ∧
            RowOf cfg leg.request response phase (facts s.plane row.id) row) := by
  have hkept := kept_of_run h
  refine ⟨hkept.distinct.nodup, fun id => ?_, fun row hrow => hkept.mem_rows hrow⟩
  rw [← hkept.isSome_row?, List.mem_map]
  constructor
  · rintro ⟨row, hrow, rfl⟩
    rw [(hkept.distinct.mem_iff row).mp hrow]
    rfl
  · intro hsome
    obtain ⟨row, hrow⟩ := Option.isSome_iff_exists.mp hsome
    have hid := Metrics.row?_id hrow
    exact ⟨row, (hkept.distinct.mem_iff row).mpr (by rw [hid]; exact hrow), hid⟩

/-! ## §7. Columns. -/

/-- The legs some host serves. -/
def servedLegs (s : DataPlane ν ι κ) : List (ν × Leg ν ι κ) :=
  s.serving.legs.entries.filter fun e => e.2.stage.serving.isSome

/-- The blocks one leg put on its decode host. -/
def heldBy (cfg : Settings ι) (s : DataPlane ν ι κ) (e : ν × Leg ν ι κ) : ℕ :=
  match e.2.stage.serving with
  | none => 0
  | some (response, _) => held cfg e.2.request response (facts s e.1)

/-- The accepted rows are those of the legs some host serves. -/
theorem Kept.accepted_keys (h : Kept cfg s) :
    ((s.metrics.accepted.map RequestResult.id).Nodup ∧
      ((servedLegs s.plane).map Prod.fst).Nodup) ∧
    (∀ id, id ∈ s.metrics.accepted.map RequestResult.id ↔
      id ∈ (servedLegs s.plane).map Prod.fst) ∧
    ∀ row ∈ s.metrics.accepted, ∀ e ∈ servedLegs s.plane, row.id = e.1 →
      ∃ response phase, e.2.stage = .served response phase ∧
        RowOf cfg e.2.request response phase (facts s.plane e.1) row := by
  refine ⟨⟨h.distinct.nodup.sublist (List.filter_sublist.map _),
    s.plane.serving.legs.nodup.sublist (List.filter_sublist.map _)⟩, ?_, ?_⟩
  · intro id
    simp only [List.mem_map]
    constructor
    · rintro ⟨row, hrow, rfl⟩
      obtain ⟨hmem, hacc⟩ := List.mem_filter.mp hrow
      obtain ⟨leg, hl, ⟨_, hrej⟩ | ⟨response, phase, hs, _⟩⟩ := h.mem_rows hmem
      · rw [hrej] at hacc
        cases hacc
      · refine ⟨(row.id, leg), List.mem_filter.mpr ⟨(Dict.get?_eq_some_iff _ _ _).mp hl, ?_⟩, rfl⟩
        simp [hs, Stage.serving]
    · rintro ⟨⟨x, leg⟩, hmem, rfl⟩
      obtain ⟨hl, hsome⟩ := List.mem_filter.mp hmem
      have hl := (Dict.get?_eq_some_iff _ _ _).mpr hl
      cases hs : leg.stage with
      | served response phase =>
          obtain ⟨row, hrow, hof⟩ := h.served hl hs
          have hid := Metrics.row?_id hrow
          refine ⟨row, List.mem_filter.mpr ⟨(h.distinct.mem_iff row).mpr ?_, hof.accepted⟩, hid⟩
          rw [hid]
          exact hrow
      | refused => simp [hs, Stage.serving] at hsome
      | asking => simp [hs, Stage.serving] at hsome
      | raised => simp [hs, Stage.serving] at hsome
      | lost => simp [hs, Stage.serving] at hsome
  · rintro row hrow ⟨x, leg⟩ he rfl
    obtain ⟨hmem, hacc⟩ := List.mem_filter.mp hrow
    obtain ⟨l, hl, hrest⟩ := h.mem_rows hmem
    have hl' := (Dict.get?_eq_some_iff _ _ _).mpr (List.mem_filter.mp he).1
    obtain rfl := Option.some.inj (hl.symm.trans hl')
    rcases hrest with ⟨_, hrej⟩ | hof
    · rw [hrej] at hacc
      cases hacc
    · exact hof

/-- **The columns of a run against its requests**: each accepted request was one the hosts
serve and each rejection one they refused; every prompt token was computed or saved; a
missed handoff is one the data plane missed; and the blocks decode occupies are those put
on the decode hosts, fewer only where a volume had no room. -/
theorem columns_reconcile (h : (machine cfg grow root origins).Reachable s) :
    s.metrics.accepted.length = (servedLegs s.plane).length ∧
    s.metrics.rejections
      = s.plane.serving.legs.entries.countP (fun e => decide (e.2.stage = .refused)) ∧
    s.metrics.savedTokens + s.metrics.computeTokens
      = ((servedLegs s.plane).map fun e => (e.2.request.promptTokens : ℚ)).sum ∧
    (0 ≤ s.metrics.hitRate ∧ s.metrics.hitRate ≤ 1) ∧
    s.metrics.handoffMisses = s.plane.missed.length ∧
    s.metrics.decodeBlocks ≤ ((servedLegs s.plane).map fun e => (heldBy cfg s.plane e : ℚ)).sum ∧
    ((∀ row ∈ s.metrics.ledger.rows, row.decodeUnpublished = false) →
      s.metrics.decodeBlocks
        = ((servedLegs s.plane).map fun e => (heldBy cfg s.plane e : ℚ)).sum) := by
  have hkept := kept_of_run h
  obtain ⟨⟨hrows, hlegs⟩, hkeys, hof⟩ := hkept.accepted_keys
  have hheld : ∀ {e : ν × Leg ν ι κ} {response : Response ι κ} {phase : Phase},
      e.2.stage = .served response phase →
        heldBy cfg s.plane e = held cfg e.2.request response (facts s.plane e.1) := by
    intro e response phase hs
    unfold heldBy
    rw [hs]
    rfl
  obtain ⟨hsplit, hsum, hlo, hhi⟩ := Metrics.adds_up (m := s.metrics) (by
    intro row hrow hacc
    obtain ⟨leg, _, ⟨_, hrej⟩ | ⟨response, phase, _, hof⟩⟩ := hkept.mem_rows hrow
    · rw [hrej] at hacc
      cases hacc
    · rw [hof.tokens, hof.prompt])
  have hprompt : s.metrics.ledger.total (fun r => r.promptTokens) RequestResult.accepted
      = ((servedLegs s.plane).map fun e => (e.2.request.promptTokens : ℚ)).sum := by
    refine Join.sum_of_keys hrows hlegs hkeys ?_
    intro row hrow e he hid
    obtain ⟨response, phase, _, hof⟩ := hof row hrow e he hid
    rw [hof.prompt]
  refine ⟨Join.length_of_keys hrows hlegs hkeys, ?_, hsum.trans hprompt, ⟨hlo, hhi⟩, ?_, ?_, ?_⟩
  · show s.metrics.ledger.rows.countP _ = _
    rw [List.countP_eq_length_filter, List.countP_eq_length_filter]
    refine Join.length_of_keys (k := RequestResult.id) (j := Prod.fst)
      (hkept.distinct.nodup.sublist (List.filter_sublist.map _))
      (s.plane.serving.legs.nodup.sublist (List.filter_sublist.map _)) fun id => ?_
    simp only [List.mem_map, List.mem_filter, decide_eq_true_eq]
    constructor
    · rintro ⟨row, ⟨hmem, hacc⟩, rfl⟩
      obtain ⟨leg, hl, ⟨href, _⟩ | ⟨response, phase, _, hof⟩⟩ := hkept.mem_rows hmem
      · exact ⟨(row.id, leg), ⟨(Dict.get?_eq_some_iff _ _ _).mp hl, href⟩, rfl⟩
      · rw [hof.accepted] at hacc
        cases hacc
    · rintro ⟨⟨x, leg⟩, ⟨hmem, href⟩, rfl⟩
      have hl := (Dict.get?_eq_some_iff _ _ _).mpr hmem
      obtain ⟨_, hrow⟩ := hkept.unserved hl (by rw [href]; rfl)
      rw [opens, href] at hrow
      have hid := Metrics.row?_id hrow
      refine ⟨.rejected leg.request, ⟨(hkept.distinct.mem_iff _).mpr ?_, rfl⟩, hid⟩
      rw [hid]
      exact hrow
  · show s.metrics.ledger.rows.countP _ = _
    rw [List.countP_eq_length_filter]
    refine Join.length_of_keys (k := RequestResult.id) (j := fun x => x)
      (hkept.distinct.nodup.sublist (List.filter_sublist.map _)) ?_ fun id => ?_
    · rw [List.map_id']
      exact hkept.missed
    rw [List.map_id']
    simp only [List.mem_map, List.mem_filter]
    constructor
    · rintro ⟨row, ⟨hmem, hmissed⟩, rfl⟩
      obtain ⟨leg, _, ⟨_, hrej⟩ | ⟨response, phase, _, hof⟩⟩ := hkept.mem_rows hmem
      · rw [hrej] at hmissed
        cases hmissed
      · rw [hof.missed] at hmissed
        exact of_decide_eq_true hmissed
    · intro hmissed
      -- only a served request is on record as missed
      have hrow : ∃ row, s.metrics.row? id = some row ∧ row.handoffMissed = true := by
        by_cases hnone : (s.plane.serving.legs.get? id).bind (fun leg => leg.stage.serving) = none
        · have hnothing := ((hkept.row id).unserved hnone).1
          simp [facts, Facts.nothing, hmissed] at hnothing
        · obtain ⟨⟨response, phase⟩, hsome⟩ := Option.ne_none_iff_exists'.mp hnone
          obtain ⟨leg, hl, hserving⟩ := Option.bind_eq_some_iff.mp hsome
          cases hs : leg.stage with
          | served r p =>
              obtain ⟨row, hrow, hof⟩ := hkept.served hl hs
              exact ⟨row, hrow, by rw [hof.missed]; exact decide_eq_true hmissed⟩
          | refused => rw [hs] at hserving; cases hserving
          | asking => rw [hs] at hserving; cases hserving
          | raised => rw [hs] at hserving; cases hserving
          | lost => rw [hs] at hserving; cases hserving
      obtain ⟨row, hrow, hm⟩ := hrow
      have hid := Metrics.row?_id hrow
      exact ⟨row, ⟨(hkept.distinct.mem_iff row).mpr (by rw [hid]; exact hrow), hm⟩, hid⟩
  · refine Join.sum_le_of_keys hrows hlegs hkeys ?_
    intro row hrow e he hid
    obtain ⟨response, phase, hs, hof⟩ := hof row hrow e he hid
    rw [hheld hs]
    exact_mod_cast hof.blocks
  · intro hall
    refine Join.sum_of_keys hrows hlegs hkeys ?_
    intro row hrow e he hid
    obtain ⟨response, phase, hs, hof⟩ := hof row hrow e he hid
    rw [hheld hs, hof.kept (hall row (List.mem_filter.mp hrow).1)]

end Runs

end Rows

/-! ## §8. The run that disaggregates, with its rows. -/

/-- The run of two requests, each step measured alike. -/
def twoCollected : List (DataEvent ℕ ℕ ℕ × Measured) :=
  DataPlane.twoServed.map fun e => (e, ⟨1, 4096, 2⟩)

theorem two_reachable : ∃ s : Collected ℕ ℕ ℕ,
    (machine DataPlane.splitConfig DataPlane.nextKey (fun id => id) []).Reachable s ∧
      s.metrics.ledger.rows.map (fun r => (r.id, r.handoffBytes, r.handoffMissed, r.decodeBlocks,
        r.decodeUnpublished, r.outputTokens))
        = [(1, 4096, false, 2, true, 4), (2, 0, true, 1, false, 4)] := by
  have hrun : (Machine.replay (next DataPlane.splitConfig DataPlane.nextKey (fun id => id))
      (start DataPlane.splitConfig [] 0) twoCollected).any (fun s : Collected ℕ ℕ ℕ =>
        decide (s.metrics.ledger.rows.map (fun r => (r.id, r.handoffBytes, r.handoffMissed,
          r.decodeBlocks, r.decodeUnpublished, r.outputTokens))
            = [(1, 4096, false, 2, true, 4), (2, 0, true, 1, false, 4)])) = true := by
    decide +kernel
  obtain ⟨s, hs, hend⟩ := (Option.any_eq_true _ _).mp hrun
  exact ⟨s, Machine.Reachable.of_replay (fun _ _ _ hst => hst) _ (.init ⟨0, rfl⟩) hs,
    of_decide_eq_true hend⟩

/-- The chain came to one decode host, which had no room for what was generated; the other
handoff found nothing. -/
theorem rows_reconcile_split : ∃ s : Collected ℕ ℕ ℕ,
    s.metrics.ledger.rows.map (fun r => (r.id, r.handoffBytes, r.handoffMissed, r.decodeBlocks,
        r.decodeUnpublished, r.outputTokens))
      = [(1, 4096, false, 2, true, 4), (2, 0, true, 1, false, 4)] ∧
    (s.metrics.ledger.rows.map RequestResult.id).Nodup ∧
    (∀ id, id ∈ s.metrics.ledger.rows.map RequestResult.id ↔
      ∃ leg, s.plane.serving.legs.get? id = some leg ∧
        (leg.stage = .refused ∨ leg.stage.serving.isSome = true)) ∧
    ∀ row ∈ s.metrics.ledger.rows, ∃ leg, s.plane.serving.legs.get? row.id = some leg ∧
      ((leg.stage = .refused ∧ row = .rejected leg.request) ∨
        ∃ response phase, leg.stage = .served response phase ∧
          RowOf DataPlane.splitConfig leg.request response phase (facts s.plane row.id) row) := by
  obtain ⟨s, hreach, hrows⟩ := two_reachable
  exact ⟨s, hrows, rows_reconcile hreach⟩

/-- One handoff of the two was missed, and one volume had no room. -/
theorem columns_reconcile_split : ∃ s : Collected ℕ ℕ ℕ,
    s.metrics.ledger.rows.map (fun r => (r.id, r.handoffBytes, r.handoffMissed, r.decodeBlocks,
        r.decodeUnpublished, r.outputTokens))
      = [(1, 4096, false, 2, true, 4), (2, 0, true, 1, false, 4)] ∧
    s.metrics.accepted.length = (servedLegs s.plane).length ∧
    s.metrics.rejections
      = s.plane.serving.legs.entries.countP (fun e => decide (e.2.stage = .refused)) ∧
    s.metrics.savedTokens + s.metrics.computeTokens
      = ((servedLegs s.plane).map fun e => (e.2.request.promptTokens : ℚ)).sum ∧
    (0 ≤ s.metrics.hitRate ∧ s.metrics.hitRate ≤ 1) ∧
    s.metrics.handoffMisses = s.plane.missed.length ∧
    s.metrics.decodeBlocks ≤ ((servedLegs s.plane).map fun e =>
      (heldBy DataPlane.splitConfig s.plane e : ℚ)).sum ∧
    ((∀ row ∈ s.metrics.ledger.rows, row.decodeUnpublished = false) →
      s.metrics.decodeBlocks = ((servedLegs s.plane).map fun e =>
        (heldBy DataPlane.splitConfig s.plane e : ℚ)).sum) := by
  obtain ⟨s, hreach, hrows⟩ := two_reachable
  exact ⟨s, hrows, columns_reconcile hreach⟩

end Collected

end Toso.KvCache
