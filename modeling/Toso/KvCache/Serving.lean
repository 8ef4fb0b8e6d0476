/-
  Toso.KvCache.Serving — the serving hosts, their clients and the scheduler.

  The whole run as a machine.  A client takes each request to a landing host and
  wherever the answer sends it; the serving host pulls, prefills and reports; the
  decode host fetches the chain, joins the request to its batch and reports the
  batch in messages that may arrive late and out of order.  Between any two of
  these the scheduler may be asked anything else.

  What the sensors hold carries no request id.  The machine therefore keeps, next
  to each of them, the same list labelled by request; `Labelled` says that the
  labels are all they add.

  Main results:
    * `labelled_of_run` — the labelled lists are the sensors' own.
    * `ask_cases`, `fetch_eq` — what one question to the scheduler does.
-/
import Toso.KvCache.Scheduler
import Toso.Lib.Machine

namespace Toso.KvCache

open Lib Proposed

/-! ## §1. Where a request stands. -/

/-- Where an accepted request stands at the hosts its response names. -/
inductive Phase
  /-- The prefill host has yet to fetch the prefix its plan priced, if it priced one. -/
  | accepted
  | prefilling
  /-- The prefill host answered, and the client goes on to the decode host. -/
  | prefilled
  /-- The decode host has the chain. -/
  | handed
  | decoding
  | done
  /-- The fetch raised. -/
  | failed
  deriving DecidableEq

/-- Where a client's call of `prefill` stands. -/
inductive Stage (ι κ : Type*)
  /-- Its host has yet to ask `decide`. -/
  | asking
  | refused
  /-- The ask raised. -/
  | raised
  /-- Still being sent on after `max_hops`. -/
  | lost
  /-- Its host serves it, by this response. -/
  | served (response : Response ι κ) (phase : Phase)
  deriving DecidableEq

/-- The response of a served stage in `phase`. -/
def Stage.servedAt {ι κ : Type*} (phase : Phase) : Stage ι κ → Option (Response ι κ)
  | .served response p => if p = phase then some response else none
  | _ => none

theorem Stage.servedAt_eq_some {ι κ : Type*} {phase : Phase} {stage : Stage ι κ}
    {response : Response ι κ} :
    stage.servedAt phase = some response ↔ stage = .served response phase := by
  cases stage with
  | served r p =>
      by_cases hp : p = phase
      · simp [servedAt, hp]
      · simp [servedAt, hp]
  | _ => simp [servedAt]

/-- One request a client took into the cluster: the host its call is at, and how
many answers sent it on. -/
structure Leg (ν ι κ : Type*) where
  request : Request ν κ
  host : ι
  hops : ℕ
  stage : Stage ι κ
  deriving DecidableEq

/-- `RoutedPlane.max_hops`. -/
def maxHops : ℕ := 8

/-- One fetch and what it was told: who it was made for, the source its plan priced
if it carries one out, the head of the answer, and whose memo that spent. -/
structure Fetch (ν ι : Type*) where
  asker : ν
  priced : Option ι
  head : Option ι
  spent : Option ν
  deriving DecidableEq

/-- The state of a run. -/
structure Serving (ν ι κ : Type*) where
  clock : ℚ
  plane : Scheduler ν ι κ
  legs : Dict ν (Leg ν ι κ)
  /-- `batch + pending` of each decode engine, by request. -/
  batches : ι → List ν
  /-- Batch reports in flight. -/
  reports : List (ι × List (ν × ℚ))
  /-- What each ask of `decide` dispatched. -/
  dispatched : List (ν × Action ι κ)
  fetched : List (Fetch ν ι)
  /-- The routed pulls, the reservations and the observed batches, by request. -/
  memos : List (ν × Memo ι κ)
  reservations : List (ν × Reservation ι)
  observed : ι → List (ν × ℚ)

/-- What happens next. -/
inductive Event (ν ι κ : Type*)
  /-- A client brings a request to a landing host. -/
  | arrive (request : Request ν κ) (host : ι)
  /-- The host a request stands at asks `decide`. -/
  | ask (id : ν) (located : κ → List ι)
  /-- Its prefill host fetches the prefix its plan priced. -/
  | pull (id : ν) (located : κ → List ι)
  /-- Its prefill host reports the clock its prefill reached. -/
  | finish (id : ν) (seen : ℚ)
  /-- Its decode host goes and gets the whole chain. -/
  | handoff (id : ν) (located : κ → List ι)
  /-- Its decode host admits it. -/
  | join (id : ν)
  /-- Its last token is emitted. -/
  | leave (id : ν)
  /-- A decode host sends its batch, at these estimates. -/
  | report (host : ι) (estimate : ν → ℚ)
  /-- One of the reports in flight is folded. -/
  | deliver (i : ℕ)
  /-- A coupled host reports a decode step. -/
  | busy (host : ι) (busyUntil : ℚ)
  | tick (now : ℚ)

variable {ν ι κ : Type*}

/-! ## §2. One step. -/

namespace Serving

/-- Nobody has arrived yet. -/
def start [LinearOrder ι] (cfg : Settings ι) (now : ℚ) : Serving ν ι κ :=
  ⟨now, Scheduler.attach cfg, Dict.empty, fun _ => [], [], [], [], [], [], fun _ => []⟩

section Step

variable [LinearOrder ι] [DecidableEq κ] [DecidableEq ν]

/-- A leg replaced. -/
def setLeg (s : Serving ν ι κ) (id : ν) (leg : Leg ν ι κ) : Serving ν ι κ :=
  { s with legs := s.legs.set id leg }

/-- What `ServingHost.prefill` and `RoutedPlane._call` make of an answer. -/
def answered (leg : Leg ν ι κ) : Option (Response ι κ) → Leg ν ι κ
  | none => { leg with stage := .refused }
  | some response =>
      if response.prefill = leg.host then
        { leg with stage := .served response .accepted }
      else if leg.hops + 1 < maxHops then
        { leg with host := response.prefill, hops := leg.hops + 1 }
      else { leg with hops := leg.hops + 1, stage := .lost }

/-- The labels one dispatched action adds. -/
def label (s : Serving ν ι κ) (id : ν) : Action ι κ → Serving ν ι κ
  | .committed response outputTokens =>
      { s with
        memos := s.memos ++ response.memo.toList.map fun m => (id, m)
        reservations := s.reservations ++ [(id, response.reservation outputTokens)] }
  | _ => s

/-- One ask of `decide`, from the host a request stands at. -/
def ask (cfg : Settings ι) (s : Serving ν ι κ) (leg : Leg ν ι κ) (located : κ → List ι) :
    Serving ν ι κ :=
  let id := leg.request.id
  match s.plane.decide cfg located s.clock leg.request leg.host with
  | .error _ => s.setLeg id { leg with stage := .raised }
  | .ok d =>
      let s := { s with
        plane := d.plane
        dispatched := s.dispatched ++ d.dispatched.map fun a => (id, a) }
      (d.dispatched.foldl (fun s a => s.label id a) s).setLeg id (answered leg d.answer)

/-- One fetch: the question `sources`, its answer, and the memo it spends. -/
def fetch (cfg : Settings ι) (s : Serving ν ι κ) (leg : Leg ν ι κ) (response : Response ι κ)
    (host : ι) (keys : List κ) (priced : Option ι) (located : κ → List ι) (next : Phase) :
    Serving ν ι κ :=
  let id := leg.request.id
  match s.plane.sources cfg located keys host with
  | .error _ => s.setLeg id { leg with stage := .served response .failed }
  | .ok (answer, plane) =>
      let mine := fun m : ν × Memo ι κ => decide (m.2.Matches host keys)
      { s.setLeg id { leg with stage := .served response next } with
        plane := plane
        memos := s.memos.eraseP mine
        fetched := s.fetched ++ [⟨id, priced, answer.head, (s.memos.find? mine).map Prod.fst⟩] }

/-- `ServingHost.prefill` up to the forward pass: the pull its plan priced. -/
def pull (cfg : Settings ι) (s : Serving ν ι κ) (leg : Leg ν ι κ) (response : Response ι κ)
    (located : κ → List ι) : Serving ν ι κ :=
  match response.plan.reuseSource with
  | some source =>
      if response.plan.pullKeys = [] then
        s.setLeg leg.request.id { leg with stage := .served response .prefilling }
      else
        s.fetch cfg leg response leg.host response.plan.pullKeys (some source) located .prefilling
  | none => s.setLeg leg.request.id { leg with stage := .served response .prefilling }

/-- `PrefillFinished`, folded, with the labels it drops. -/
def finished (cfg : Settings ι) (s : Serving ν ι κ) (leg : Leg ν ι κ)
    (response : Response ι κ) (seen : ℚ) : Serving ν ι κ :=
  { s.setLeg leg.request.id
      { leg with stage := .served response (if cfg.simulateDecode then .prefilled else .done) }
    with
    plane := s.plane.dispatch (.prefillFinished leg.host seen)
    reservations := s.reservations.filter fun r => seen ≤ r.2.prefillDone }

/-- `ServingHost.decode` up to the chain being there: a host that prefilled the
request has it, and an empty chain is no fetch. -/
def handoff (cfg : Settings ι) (s : Serving ν ι κ) (leg : Leg ν ι κ)
    (response : Response ι κ) (located : κ → List ι) : Serving ν ι κ :=
  if response.decode = response.prefill ∨ leg.request.blockKeys = [] then
    s.setLeg leg.request.id { leg with stage := .served response .handed }
  else s.fetch cfg leg response response.decode leg.request.blockKeys none located .handed

/-- `DecodeEngine.admit`: a request with nothing to decode retires at once. -/
def join (s : Serving ν ι κ) (leg : Leg ν ι κ) (response : Response ι κ) : Serving ν ι κ :=
  if leg.request.decodeTokens = 0 then
    s.setLeg leg.request.id { leg with stage := .served response .done }
  else
    { s.setLeg leg.request.id { leg with stage := .served response .decoding } with
      batches := Function.update s.batches response.decode
        (s.batches response.decode ++ [leg.request.id]) }

/-- A member's last token. -/
def leave (s : Serving ν ι κ) (leg : Leg ν ι κ) (response : Response ι κ) : Serving ν ι κ :=
  { s.setLeg leg.request.id { leg with stage := .served response .done } with
    batches := Function.update s.batches response.decode
      ((s.batches response.decode).erase leg.request.id) }

/-- A batch report folded. -/
def deliver (s : Serving ν ι κ) (i : ℕ) (host : ι) (members : List (ν × ℚ)) :
    Serving ν ι κ :=
  { s with
    plane := s.plane.dispatch (.decodeState host (members.map Prod.snd))
    reports := s.reports.eraseIdx i
    observed := Function.update s.observed host members }

/-- The leg of an accepted request that stands in `phase`, and its response. -/
def at? (s : Serving ν ι κ) (id : ν) (phase : Phase) : Option (Leg ν ι κ × Response ι κ) :=
  (s.legs.get? id).bind fun leg =>
    (leg.stage.servedAt phase).map fun response => (leg, response)

/-- One step, where it is enabled.  Ids are distinct, a host reports a clock it has
reached, and the clock never goes back. -/
def next (cfg : Settings ι) (s : Serving ν ι κ) : Event ν ι κ → Option (Serving ν ι κ)
  | .arrive request host =>
      if (s.legs.get? request.id).isSome then none
      else some (s.setLeg request.id ⟨request, host, 0, .asking⟩)
  | .ask id located =>
      match s.legs.get? id with
      | some leg => if leg.stage = .asking then some (s.ask cfg leg located) else none
      | none => none
  | .pull id located =>
      (s.at? id .accepted).map fun (leg, response) => s.pull cfg leg response located
  | .finish id seen =>
      if seen ≤ s.clock then
        (s.at? id .prefilling).map fun (leg, response) => s.finished cfg leg response seen
      else none
  | .handoff id located =>
      (s.at? id .prefilled).map fun (leg, response) => s.handoff cfg leg response located
  | .join id => (s.at? id .handed).map fun (leg, response) => s.join leg response
  | .leave id => (s.at? id .decoding).map fun (leg, response) => s.leave leg response
  | .report host estimate =>
      some { s with
        reports := s.reports ++ [(host, (s.batches host).map fun id => (id, estimate id))] }
  | .deliver i => s.reports[i]?.map fun (host, members) => s.deliver i host members
  | .busy host busyUntil =>
      some { s with plane := s.plane.dispatch (.computeBusy host busyUntil) }
  | .tick now => if s.clock ≤ now then some { s with clock := now } else none

/-- **The machine of a run.** -/
def machine (cfg : Settings ι) : Machine (Serving ν ι κ) (Event ν ι κ) :=
  .ofPartial (fun s => ∃ now, s = start cfg now) (next cfg)

/-- A run from the start, event by event. -/
def run (cfg : Settings ι) (now : ℚ) (events : List (Event ν ι κ)) : Option (Serving ν ι κ) :=
  Machine.replay (next cfg) (start cfg now) events

theorem reachable_of_run {cfg : Settings ι} {now : ℚ} {events : List (Event ν ι κ)}
    {s : Serving ν ι κ} (h : run cfg now events = some s) : (machine cfg).Reachable s :=
  Machine.Reachable.of_replay (fun _ _ _ hst => hst) events (.init ⟨now, rfl⟩) h

/-! ## §3. What a step comes to. -/

omit [LinearOrder ι] [DecidableEq κ] in
theorem at?_eq_some {s : Serving ν ι κ} {id : ν} {phase : Phase} {leg : Leg ν ι κ}
    {response : Response ι κ} :
    s.at? id phase = some (leg, response) ↔
      s.legs.get? id = some leg ∧ leg.stage = .served response phase := by
  unfold at?
  simp only [Option.bind_eq_some_iff, Option.map_eq_some_iff, Prod.mk.injEq]
  constructor
  · intro h
    obtain ⟨l, hl, r, hr, rfl, rfl⟩ := h
    exact ⟨hl, Stage.servedAt_eq_some.mp hr⟩
  · intro h
    exact ⟨leg, h.1, response, Stage.servedAt_eq_some.mpr h.2, rfl, rfl⟩

/-- An ask is made by the host of a request that stands there asking. -/
theorem next_ask {cfg : Settings ι} {s t : Serving ν ι κ} {id : ν} {located : κ → List ι}
    (h : next cfg s (.ask id located) = some t) :
    ∃ leg, s.legs.get? id = some leg ∧ leg.stage = .asking ∧ t = s.ask cfg leg located := by
  simp only [next] at h
  cases hl : s.legs.get? id with
  | none =>
      rw [hl] at h
      cases h
  | some leg =>
      simp only [hl, Option.ite_none_right_eq_some, Option.some.injEq] at h
      exact ⟨leg, rfl, h.1, h.2.symm⟩

omit [LinearOrder ι] [DecidableEq κ] in
/-- The other events of a request find it in the phase they start from. -/
theorem next_at {β : Type*} {s : Serving ν ι κ} {t : β} {id : ν} {phase : Phase}
    {f : Leg ν ι κ × Response ι κ → β} (h : (s.at? id phase).map f = some t) :
    ∃ leg response, s.legs.get? id = some leg ∧ leg.stage = .served response phase ∧
      t = f (leg, response) := by
  obtain ⟨⟨leg, response⟩, hat, rfl⟩ := Option.map_eq_some_iff.mp h
  obtain ⟨hl, hs⟩ := at?_eq_some.mp hat
  exact ⟨leg, response, hl, hs, rfl⟩

theorem next_finish {cfg : Settings ι} {s t : Serving ν ι κ} {id : ν} {seen : ℚ}
    (h : next cfg s (.finish id seen) = some t) :
    seen ≤ s.clock ∧ ∃ leg response, s.legs.get? id = some leg ∧
      leg.stage = .served response .prefilling ∧ t = s.finished cfg leg response seen := by
  simp only [next, Option.ite_none_right_eq_some] at h
  exact ⟨h.1, next_at h.2⟩

omit [DecidableEq κ] [DecidableEq ν] in
/-- An answer naming the host that asked is served there. -/
theorem answered_here {leg : Leg ν ι κ} {response : Response ι κ}
    (h : response.prefill = leg.host) :
    answered leg (some response) =
      { leg with stage := .served response .accepted } := by
  simp only [answered, if_pos h]

omit [DecidableEq κ] [DecidableEq ν] in
/-- An answer naming another host sends the call there. -/
theorem answered_elsewhere {leg : Leg ν ι κ} {response : Response ι κ}
    (h : response.prefill ≠ leg.host) (hops : leg.hops + 1 < maxHops) :
    answered leg (some response) =
      { leg with host := response.prefill, hops := leg.hops + 1 } := by
  simp only [answered, if_neg h, if_pos hops]

/-- A booking: what the plane dispatched, with its labels. -/
def booked (s : Serving ν ι κ) (leg : Leg ν ι κ) (response : Response ι κ) :
    Serving ν ι κ :=
  { s.setLeg leg.request.id (answered leg (some response)) with
    plane := (s.plane.book leg.request leg.host response).plane
    dispatched := s.dispatched ++
      [(leg.request.id, .committed response leg.request.outputTokens)]
    memos := s.memos ++ response.memo.toList.map fun m => (leg.request.id, m)
    reservations := s.reservations ++
      [(leg.request.id, response.reservation leg.request.outputTokens)] }

/-- **What one ask does**: answer what was placed, raise or refuse with nothing
written, or book. -/
theorem ask_cases (cfg : Settings ι) (s : Serving ν ι κ) (leg : Leg ν ι κ)
    (located : κ → List ι) :
    (∃ placed, s.plane.placed.get? leg.request.id = some placed ∧
      s.ask cfg leg located =
        { s.setLeg leg.request.id (answered leg (some placed)) with
          plane := { s.plane with placed := s.plane.placed.erase leg.request.id } }) ∨
    (s.plane.placed.get? leg.request.id = none ∧
      (s.ask cfg leg located = s.setLeg leg.request.id { leg with stage := .raised } ∨
        s.ask cfg leg located = s.setLeg leg.request.id { leg with stage := .refused } ∨
        ∃ response, s.ask cfg leg located = s.booked leg response)) := by
  unfold ask
  cases h : s.plane.decide cfg located s.clock leg.request leg.host with
  | error e => exact .inr ⟨Scheduler.decide_error h, .inl rfl⟩
  | ok d =>
      rcases Scheduler.decide_cases h with ⟨placed, hp, rfl⟩ | ⟨hp, rfl⟩ | ⟨hp, response, rfl⟩
      · refine .inl ⟨placed, hp, ?_⟩
        simp [setLeg]
      · refine .inr ⟨hp, .inr (.inl ?_)⟩
        simp [setLeg, answered]
      · exact .inr ⟨hp, .inr (.inr ⟨response, rfl⟩)⟩

/-- What one fetch does: it spends the first memo that matches, and is answered with
its peer. -/
theorem fetch_eq (cfg : Settings ι) (s : Serving ν ι κ) (leg : Leg ν ι κ)
    (response : Response ι κ) (host : ι) (keys : List κ) (priced : Option ι)
    (located : κ → List ι) (after : Phase) : ∃ answer : Ranked ι κ,
      (∀ peer, s.plane.routed.peer host keys = some peer → answer.head = some peer) ∧
      s.fetch cfg leg response host keys priced located after =
        { s.setLeg leg.request.id { leg with stage := .served response after } with
          plane := s.plane.dispatch (.fetchAnswered host keys)
          memos := s.memos.eraseP fun m => decide (m.2.Matches host keys)
          fetched := s.fetched ++ [⟨leg.request.id, priced, answer.head,
            (s.memos.find? fun m => decide (m.2.Matches host keys)).map Prod.fst⟩] } := by
  obtain ⟨answer, hsources, hhead⟩ := Scheduler.sources_eq cfg s.plane located keys host
  refine ⟨answer, hhead, ?_⟩
  unfold fetch
  rw [hsources]

/-- A pull nothing priced is no fetch. -/
theorem pull_eq_setLeg (cfg : Settings ι) (s : Serving ν ι κ) (leg : Leg ν ι κ)
    {response : Response ι κ} (located : κ → List ι) (h : response.memo = none) :
    s.pull cfg leg response located =
      s.setLeg leg.request.id { leg with stage := .served response .prefilling } := by
  unfold Response.memo at h
  cases hs : response.plan.reuseSource with
  | none => simp only [pull, hs]
  | some source =>
      by_cases hk : response.plan.pullKeys = []
      · simp only [pull, hs, if_pos hk]
      · simp only [hs, if_neg hk] at h
        cases h

/-- A priced pull is a fetch of what its memo says. -/
theorem pull_eq_fetch (cfg : Settings ι) (s : Serving ν ι κ) (leg : Leg ν ι κ)
    {response : Response ι κ} (located : κ → List ι) {m : Memo ι κ}
    (h : response.memo = some m) :
    s.pull cfg leg response located =
      s.fetch cfg leg response leg.host m.planned (some m.peer) located .prefilling := by
  obtain ⟨_, hkeys, hsource, hne⟩ := Response.memo_eq_some h
  simp only [pull, hsource, if_neg hne, hkeys]

/-- A pull is a fetch of what its memo says, or no fetch. -/
theorem pull_cases (cfg : Settings ι) (s : Serving ν ι κ) (leg : Leg ν ι κ)
    (response : Response ι κ) (located : κ → List ι) :
    (response.memo = none ∧ s.pull cfg leg response located =
      s.setLeg leg.request.id { leg with stage := .served response .prefilling }) ∨
    ∃ m, response.memo = some m ∧ s.pull cfg leg response located =
      s.fetch cfg leg response leg.host m.planned (some m.peer) located .prefilling := by
  cases hm : response.memo with
  | none => exact .inl ⟨rfl, pull_eq_setLeg cfg s leg located hm⟩
  | some m => exact .inr ⟨m, rfl, pull_eq_fetch cfg s leg located hm⟩

/-- A decode host fetches a chain it did not prefill. -/
theorem handoff_cases (cfg : Settings ι) (s : Serving ν ι κ) (leg : Leg ν ι κ)
    (response : Response ι κ) (located : κ → List ι) :
    ((response.decode = response.prefill ∨ leg.request.blockKeys = []) ∧
      s.handoff cfg leg response located =
        s.setLeg leg.request.id { leg with stage := .served response .handed }) ∨
    (¬ (response.decode = response.prefill ∨ leg.request.blockKeys = []) ∧
      s.handoff cfg leg response located =
        s.fetch cfg leg response response.decode leg.request.blockKeys none located .handed) := by
  unfold handoff
  by_cases hown : response.decode = response.prefill ∨ leg.request.blockKeys = []
  · rw [if_pos hown]
    exact .inl ⟨hown, rfl⟩
  · rw [if_neg hown]
    exact .inr ⟨hown, rfl⟩

omit [DecidableEq κ] in
/-- A request with nothing to decode is done, any other joins the batch. -/
theorem join_cases (s : Serving ν ι κ) (leg : Leg ν ι κ) (response : Response ι κ) :
    (leg.request.decodeTokens = 0 ∧ s.join leg response =
      s.setLeg leg.request.id { leg with stage := .served response .done }) ∨
    (leg.request.decodeTokens ≠ 0 ∧ s.join leg response =
      { s.setLeg leg.request.id { leg with stage := .served response .decoding } with
        batches := Function.update s.batches response.decode
          (s.batches response.decode ++ [leg.request.id]) }) := by
  unfold join
  by_cases hz : leg.request.decodeTokens = 0
  · rw [if_pos hz]
    exact .inl ⟨hz, rfl⟩
  · rw [if_neg hz]
    exact .inr ⟨hz, rfl⟩

/-- **What each step comes to.**  A served request goes on to its next phase, with a fetch
or without. -/
inductive Moves (cfg : Settings ι) (s : Serving ν ι κ) : Event ν ι κ → Serving ν ι κ → Prop
  | arrive {request : Request ν κ} {host : ι} (hfresh : s.legs.get? request.id = none) :
      Moves cfg s (.arrive request host) (s.setLeg request.id ⟨request, host, 0, .asking⟩)
  | ask {id : ν} {located : κ → List ι} {leg : Leg ν ι κ} (hl : s.legs.get? id = some leg)
      (hs : leg.stage = .asking) : Moves cfg s (.ask id located) (s.ask cfg leg located)
  | pass {e : Event ν ι κ} {id : ν} {leg : Leg ν ι κ} {response : Response ι κ}
      {before after : Phase} (hl : s.legs.get? id = some leg)
      (hs : leg.stage = .served response before) (hb : before ≠ .decoding) :
      Moves cfg s e (s.setLeg leg.request.id { leg with stage := .served response after })
  | fetch {e : Event ν ι κ} {id : ν} {leg : Leg ν ι κ} {response : Response ι κ}
      {before after : Phase} {host : ι} {keys : List κ} {priced : Option ι}
      {located : κ → List ι} (hl : s.legs.get? id = some leg)
      (hs : leg.stage = .served response before) (hb : before ≠ .decoding) :
      Moves cfg s e (s.fetch cfg leg response host keys priced located after)
  | finish {id : ν} {seen : ℚ} {leg : Leg ν ι κ} {response : Response ι κ}
      (hl : s.legs.get? id = some leg) (hs : leg.stage = .served response .prefilling)
      (hseen : seen ≤ s.clock) : Moves cfg s (.finish id seen) (s.finished cfg leg response seen)
  | join {id : ν} {leg : Leg ν ι κ} {response : Response ι κ}
      (hl : s.legs.get? id = some leg) (hs : leg.stage = .served response .handed) :
      Moves cfg s (.join id) (s.join leg response)
  | leave {id : ν} {leg : Leg ν ι κ} {response : Response ι κ}
      (hl : s.legs.get? id = some leg) (hs : leg.stage = .served response .decoding) :
      Moves cfg s (.leave id) (s.leave leg response)
  | report {host : ι} {estimate : ν → ℚ} : Moves cfg s (.report host estimate) { s with
      reports := s.reports ++ [(host, (s.batches host).map fun id => (id, estimate id))] }
  | deliver {i : ℕ} {host : ι} {members : List (ν × ℚ)}
      (hi : s.reports[i]? = some (host, members)) :
      Moves cfg s (.deliver i) (s.deliver i host members)
  | busy {host : ι} {busyUntil : ℚ} : Moves cfg s (.busy host busyUntil)
      { s with plane := s.plane.dispatch (.computeBusy host busyUntil) }
  | tick {now : ℚ} (hnow : s.clock ≤ now) : Moves cfg s (.tick now) { s with clock := now }

theorem moves_of_next {cfg : Settings ι} {s t : Serving ν ι κ} {e : Event ν ι κ}
    (h : next cfg s e = some t) : Moves cfg s e t := by
  cases e with
  | arrive request host =>
      simp only [next, Option.ite_none_left_eq_some, Option.some.injEq] at h
      obtain ⟨hfresh, rfl⟩ := h
      exact .arrive (by simpa using hfresh)
  | ask id located =>
      obtain ⟨leg, hl, hs, rfl⟩ := next_ask h
      exact .ask hl hs
  | pull id located =>
      obtain ⟨leg, response, hl, hs, rfl⟩ := next_at h
      show Moves cfg s _ (s.pull cfg leg response located)
      rcases pull_cases cfg s leg response located with ⟨_, heq⟩ | ⟨m, _, heq⟩
      · rw [heq]
        exact .pass hl hs (by simp)
      · rw [heq]
        exact .fetch hl hs (by simp)
  | finish id seen =>
      obtain ⟨hseen, leg, response, hl, hs, rfl⟩ := next_finish h
      exact .finish hl hs hseen
  | handoff id located =>
      obtain ⟨leg, response, hl, hs, rfl⟩ := next_at h
      show Moves cfg s _ (s.handoff cfg leg response located)
      rcases handoff_cases cfg s leg response located with ⟨_, heq⟩ | ⟨_, heq⟩
      · rw [heq]
        exact .pass hl hs (by simp)
      · rw [heq]
        exact .fetch hl hs (by simp)
  | join id =>
      obtain ⟨leg, response, hl, hs, rfl⟩ := next_at h
      exact .join hl hs
  | leave id =>
      obtain ⟨leg, response, hl, hs, rfl⟩ := next_at h
      exact .leave hl hs
  | report host estimate =>
      cases h
      exact .report
  | deliver i =>
      obtain ⟨⟨host, members⟩, hi, rfl⟩ := Option.map_eq_some_iff.mp h
      exact .deliver hi
  | busy host busyUntil =>
      cases h
      exact .busy
  | tick now =>
      simp only [next, Option.ite_none_right_eq_some, Option.some.injEq] at h
      obtain ⟨hnow, rfl⟩ := h
      exact .tick hnow

/-! ## §4. The labels. -/

/-- The labelled lists are the sensors' own. -/
structure Labelled (s : Serving ν ι κ) : Prop where
  memos : s.memos.map Prod.snd = s.plane.routed.pending
  reservations : ∀ r, s.plane.reserved = some r → s.reservations.map Prod.snd = r.held
  observed : ∀ d, (s.observed d).map Prod.snd = s.plane.cluster.decodeFinishes d

theorem Labelled.booked {s : Serving ν ι κ} (h : Labelled s) (leg : Leg ν ι κ)
    (response : Response ι κ) : Labelled (s.booked leg response) := by
  constructor
  · show (s.memos ++ _).map Prod.snd = (Scheduler.book _ _ _ _).plane.routed.pending
    rw [Scheduler.book_routed, List.map_append, h.memos, List.map_map]
    show _ = s.plane.routed.pending ++ response.memo.toList
    congr 1
    exact List.map_id _
  · intro r hr
    change (Scheduler.book _ _ _ _).plane.reserved = some r at hr
    rw [Scheduler.book_reserved] at hr
    obtain ⟨r', hr', rfl⟩ := Option.map_eq_some_iff.mp hr
    show (s.reservations ++ _).map Prod.snd = r'.held ++ _
    rw [List.map_append, h.reservations r' hr']
    rfl
  · intro d
    show _ = (Scheduler.book _ _ _ _).plane.cluster.decodeFinishes d
    rw [Scheduler.book_cluster, ClusterSensor.fold_decodeFinishes]
    · exact h.observed d
    · intro inst finishes ha
      cases ha

theorem Labelled.ask {s : Serving ν ι κ} (h : Labelled s) (cfg : Settings ι)
    (leg : Leg ν ι κ) (located : κ → List ι) : Labelled (s.ask cfg leg located) := by
  rcases ask_cases cfg s leg located with
    ⟨_, _, heq⟩ | ⟨_, heq | heq | ⟨response, heq⟩⟩
  · rw [heq]
    exact ⟨h.memos, h.reservations, h.observed⟩
  · rw [heq]
    exact ⟨h.memos, h.reservations, h.observed⟩
  · rw [heq]
    exact ⟨h.memos, h.reservations, h.observed⟩
  · rw [heq]
    exact h.booked leg response

theorem Labelled.fetch {s : Serving ν ι κ} (h : Labelled s) (cfg : Settings ι)
    (leg : Leg ν ι κ) (response : Response ι κ) (host : ι) (keys : List κ)
    (priced : Option ι) (located : κ → List ι) (after : Phase) :
    Labelled (s.fetch cfg leg response host keys priced located after) := by
  obtain ⟨_, _, heq⟩ := fetch_eq cfg s leg response host keys priced located after
  rw [heq]
  constructor
  · show (s.memos.eraseP _).map Prod.snd = (s.plane.routed.fold _).pending
    rw [RoutedPullSensor.answered_pending, ← h.memos, List.eraseP_map]
    rfl
  · intro r hr
    obtain ⟨r', hr', rfl⟩ := Option.map_eq_some_iff.mp hr
    exact h.reservations r' hr'
  · exact h.observed

theorem Labelled.finished {s : Serving ν ι κ} (h : Labelled s) (cfg : Settings ι)
    (leg : Leg ν ι κ) (response : Response ι κ) (seen : ℚ) :
    Labelled (s.finished cfg leg response seen) := by
  constructor
  · exact h.memos
  · intro r hr
    obtain ⟨r', hr', rfl⟩ := Option.map_eq_some_iff.mp hr
    show (s.reservations.filter _).map Prod.snd = r'.held.filter _
    rw [← h.reservations r' hr', List.filter_map]
    rfl
  · intro d
    show _ = (s.plane.cluster.fold _).decodeFinishes d
    rw [ClusterSensor.fold_decodeFinishes]
    · exact h.observed d
    · intro inst finishes ha
      cases ha

omit [DecidableEq ν] in
theorem Labelled.deliver {s : Serving ν ι κ} (h : Labelled s) (i : ℕ) (host : ι)
    (members : List (ν × ℚ)) : Labelled (s.deliver i host members) := by
  constructor
  · exact h.memos
  · intro r hr
    obtain ⟨r', hr', rfl⟩ := Option.map_eq_some_iff.mp hr
    exact h.reservations r' hr'
  · intro d
    show (Function.update s.observed host members d).map Prod.snd =
      Function.update s.plane.cluster.decodeFinishes host (members.map Prod.snd) d
    by_cases hd : d = host
    · subst hd
      rw [Function.update_self, Function.update_self]
    · rw [Function.update_of_ne hd, Function.update_of_ne hd]
      exact h.observed d

theorem Labelled.step {cfg : Settings ι} {s t : Serving ν ι κ} {e : Event ν ι κ}
    (h : Labelled s) (hst : next cfg s e = some t) : Labelled t := by
  cases moves_of_next hst with
  | arrive => exact ⟨h.memos, h.reservations, h.observed⟩
  | ask => exact h.ask cfg _ _
  | pass => exact ⟨h.memos, h.reservations, h.observed⟩
  | fetch => exact h.fetch cfg _ _ _ _ _ _ _
  | finish => exact h.finished cfg _ _ _
  | join hl hs =>
      rcases join_cases s _ _ with ⟨_, heq⟩ | ⟨_, heq⟩
      · rw [heq]
        exact ⟨h.memos, h.reservations, h.observed⟩
      · rw [heq]
        exact ⟨h.memos, h.reservations, h.observed⟩
  | leave => exact ⟨h.memos, h.reservations, h.observed⟩
  | report => exact ⟨h.memos, h.reservations, h.observed⟩
  | deliver => exact h.deliver _ _ _
  | busy =>
      refine ⟨h.memos, ?_, h.observed⟩
      intro r hr
      obtain ⟨r', hr', rfl⟩ := Option.map_eq_some_iff.mp hr
      exact h.reservations r' hr'
  | tick => exact ⟨h.memos, h.reservations, h.observed⟩

/-- **The labelled lists are the sensors' own**, in every run. -/
theorem labelled_of_run {cfg : Settings ι} {s : Serving ν ι κ}
    (h : (machine cfg).Reachable s) : Labelled s := by
  refine h.invariant ?_ ?_
  · intro s hs
    obtain ⟨now, rfl⟩ := hs
    refine ⟨rfl, ?_, fun _ => rfl⟩
    intro r hr
    change (if cfg.lookahead then some _ else none) = some r at hr
    rw [Option.ite_none_right_eq_some, Option.some.injEq] at hr
    rw [← hr.2]
    rfl
  · intro s e t hs hst
    exact hs.step hst

end Step

end Serving

end Toso.KvCache
