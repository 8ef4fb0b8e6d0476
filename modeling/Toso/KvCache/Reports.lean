/-
  Toso.KvCache.Reports — the batch reports of one host, and what control knows of it.

  Every admission and every step sends the whole finish list of the host and waits
  for the answer, a leg out and a leg back.  Admissions and the step loop send side
  by side, no report carries a number, and the sensor keeps the last one delivered.
  Reports sent at one instant are due at one instant, and the event loop may run what
  is due at one instant in any order.

  Main results:
    * `resume_reports` — a segment that changes the batch reports it.
    * `oneEntry_of_run` — with no report in flight the sensor has the finish list
      of the host, in a run that never delivers the newest report before an older.
    * `oneEntry_of_fifo` — so it is when reports due at one instant are delivered
      in the order sent.
-/
import Toso.KvCache.DecodeEngine
import Toso.KvCache.Sensors
import Toso.Lib.Feed
import Mathlib.Data.List.InsertIdx

namespace Toso.KvCache

open Lib

variable {ι ν κ τ β ε : Type*}

/-! ## §1. What the engine reports. -/

/-- The estimated finish of one slot: an uncontended step for each token to go. -/
def Active.estimate (baseStep : ℚ) (a : Active ν κ τ) : ℚ :=
  a.lastTokenTime + a.remaining * baseStep

/-- What `_report` sends: one finish per request decoding or queued. -/
def DecodeEngine.finishes (baseStep : ℚ) (s : DecodeEngine ν κ τ β ε) : List ℚ :=
  (s.batch ++ s.pending).map (Active.estimate baseStep)

/-- Nothing the engine calls raises. -/
structure Outcomes.Quiet (o : Outcomes τ β ε) : Prop where
  awaited : o.awaited = .ok ()
  claimStep : ∃ stepEnd, o.claimStep = .ok stepEnd
  stepTokens : ∃ tokens, o.stepTokens = .ok tokens
  onFinish : ∀ done, o.onFinish done = .ok ()
  generatedKv : ∀ done count, ∃ kv, o.generatedKv done count = .ok kv
  stepCost : o.stepCost = .ok ()

namespace DecodeEngine

variable {cfg : EngineConfig} {o : Outcomes τ β ε}

variable (cfg) in
/-- A slot retires without a raise. -/
theorem finish_quiet (ho : o.Quiet) (s : DecodeEngine ν κ τ β ε) (request : Request ν κ)
    (tbt : ℚ) (done : ℕ) (tokens : List τ) :
    (finish cfg o s request tbt done tokens).2 = none := by
  obtain ⟨kv, hkv⟩ := ho.generatedKv done tokens.length
  have hfinish : (if cfg.onFinish then o.onFinish done else .ok ()) = .ok () := by
    rw [ho.onFinish]
    exact ite_self _
  unfold finish
  rw [hfinish]
  simp only [hkv]

variable (cfg) in
/-- The loop of a step runs to its end. -/
theorem emit_quiet (ho : o.Quiet) (stepEnd : ℚ) (l : List (ℕ × τ)) :
    ∀ s : DecodeEngine ν κ τ β ε, (emit cfg o stepEnd l s).2 = none := by
  induction l with
  | nil =>
      intro s
      rfl
  | cons x rest ih =>
      intro s
      obtain ⟨done, token⟩ := x
      unfold emit
      split
      · exact ih s
      · next a hfind =>
          simp only
          split
          · have hquiet := finish_quiet cfg ho
              { s with batch := s.batch.filter (·.done ≠ done) }
              (stepped a stepEnd token).request (stepped a stepEnd token).tbtMax done
              (stepped a stepEnd token).tokens
            split
            · next u raised hfinish =>
                rw [hfinish] at hquiet
                cases hquiet
            · exact ih _
          · exact ih _

/-- The head of the loop moves the task alone. -/
theorem head_frame {s u : DecodeEngine ν κ τ β ε} (h : head cfg o s = (u, none)) :
    u.task ≠ .reporting ∧ u.batch = s.batch ∧ u.pending = s.pending := by
  unfold head at h
  split at h
  · cases h
    exact ⟨nofun, rfl, rfl⟩
  · split at h
    · cases h
    · cases h
      cases cfg.onComputeBusy <;> exact ⟨nofun, rfl, rfl⟩

variable (cfg) in
theorem head_quiet (ho : o.Quiet) (s : DecodeEngine ν κ τ β ε) : (head cfg o s).2 = none := by
  obtain ⟨stepEnd, hclaim⟩ := ho.claimStep
  unfold head
  rw [hclaim]
  split <;> rfl

/-- **A segment that changes the batch reports it**: it ends in a report, or left the
batch and the queue as they were. -/
theorem resume_reports (hstate : cfg.onState = true) {s t : DecodeEngine ν κ τ β ε}
    (h : resume cfg o s = some (t, none)) :
    t.task = .reporting ∨ t.task ≠ .reporting ∧ t.batch = s.batch ∧ t.pending = s.pending := by
  obtain ⟨⟨u, r⟩, hbody, hr⟩ := Option.map_eq_some_iff.mp h
  cases r with
  | some raised => cases hr
  | none =>
      cases hr
      unfold body at hbody
      split at hbody
      · cases hbody
      · cases hbody
      · exact .inr (head_frame (Option.some.inj hbody))
      · split at hbody
        · cases hbody
        · cases hbody
          exact .inr ⟨nofun, rfl, rfl⟩
      · split at hbody
        · cases hbody
        · -- the step completes: with somebody to report to, it reports
          have hcomplete := Option.some.inj hbody
          unfold stepComplete at hcomplete
          split at hcomplete
          · cases hcomplete
          · split at hcomplete
            · cases hcomplete
            · rw [if_pos hstate] at hcomplete
              split at hcomplete
              · cases hcomplete
              · cases hcomplete
                exact .inl rfl
      · split at hbody
        · cases hbody
        · exact .inr (head_frame (Option.some.inj hbody))

theorem body_quiet (ho : o.Quiet) {s u : DecodeEngine ν κ τ β ε} {r : Option (Point × Exc ε)}
    (h : body cfg o s = some (u, r)) : r = none := by
  obtain ⟨tokens, htokens⟩ := ho.stepTokens
  have hhead := head_quiet cfg ho s
  unfold body at h
  rw [ho.awaited] at h
  split at h
  · cases h
  · cases h
  · have hsnd : (head cfg o s).2 = r := congrArg Prod.snd (Option.some.inj h)
    rw [← hsnd, hhead]
  · cases h
    rfl
  · next members stepEnd htask =>
      have hsnd : (stepComplete cfg o members stepEnd s).2 = r :=
        congrArg Prod.snd (Option.some.inj h)
      have hemit := emit_quiet cfg ho stepEnd (members.zip tokens) s
      unfold stepComplete at hsnd
      simp only [htokens, ho.stepCost] at hsnd
      split at hsnd
      · next v raised hraised =>
          rw [hraised] at hemit
          cases hemit
      · rw [← hsnd]
        split
        · rfl
        · exact head_quiet cfg ho _
  · have hsnd : (head cfg o s).2 = r := congrArg Prod.snd (Option.some.inj h)
    rw [← hsnd, hhead]

/-- A segment raises only where something it calls does. -/
theorem resume_quiet (ho : o.Quiet) {s t : DecodeEngine ν κ τ β ε} {r : Option (Point × Exc ε)}
    (h : resume cfg o s = some (t, r)) : r = none := by
  obtain ⟨⟨u, raised⟩, hbody, hr⟩ := Option.map_eq_some_iff.mp h
  have hnone := body_quiet ho hbody
  rw [hnone] at hr
  cases hr
  rfl

end DecodeEngine

/-! ## §2. A host and its reports. -/

/-- Who waits for the answer to a report. -/
inductive Sender
  | admission (done : ℕ)
  | loop
  deriving DecidableEq

/-- A `DecodeState` on its way to control. -/
structure Report where
  sender : Sender
  due : ℚ
  finishes : List ℚ

/-- The answer to a report on its way back. -/
structure Reply where
  sender : Sender
  due : ℚ

/-- A serving host: who it is, its decode engine, whether it prefills on the same
accelerator, how far control is, one way, and its uncontended step. -/
structure HostSettings (ι : Type*) where
  me : ι
  maxBatch : ℕ
  coupled : Bool
  controlRtt : ℚ
  baseStep : ℚ

/-- The callbacks a serving host gives its engine. -/
def HostSettings.engine (h : HostSettings ι) : EngineConfig :=
  ⟨h.maxBatch, true, h.coupled, true⟩

/-- A host, the sensor it reports to, and what is between them, in the order sent. -/
structure ReportingHost (ι ν κ τ β ε : Type*) where
  engine : DecodeEngine ν κ τ β ε
  sensor : ClusterSensor ι
  clock : ℚ
  inFlight : List Report
  replies : List Reply

/-- What can happen next. -/
inductive ReportEvent (ι ν κ τ β ε : Type*)
  /-- `admit` up to its report. -/
  | admission (o : Outcomes τ β ε) (request : Request ν κ)
  /-- An admission comes back from its report. -/
  | admitted (done : ℕ)
  /-- One segment of the step task. -/
  | step (o : Outcomes τ β ε)
  /-- The `k`-th report in flight arrives. -/
  | delivered (k : ℕ)
  | tick (now : ℚ)
  /-- Control folds an action that is no report of this host. -/
  | dispatched (action : Action ι κ)

/-- An action that is no batch report of `me`. -/
def Action.Foreign (me : ι) : Action ι κ → Prop
  | .decodeState inst _ => inst ≠ me
  | _ => True

instance [DecidableEq ι] (me : ι) (action : Action ι κ) : Decidable (action.Foreign me) := by
  unfold Action.Foreign
  split <;> infer_instance

namespace ReportingHost

variable [DecidableEq ι] (h : HostSettings ι)

/-- `_report`: over no distance the report is folded where it is sent, and its
sender goes on; otherwise it is due a leg later. -/
def send (sender : Sender) (s : ReportingHost ι ν κ τ β ε) : ReportingHost ι ν κ τ β ε :=
  let finishes := s.engine.finishes h.baseStep
  if h.controlRtt = 0 then
    { s with
      sensor := s.sensor.fold (.decodeState h.me finishes : Action ι κ)
      replies := s.replies ++ [⟨sender, s.clock⟩] }
  else { s with inFlight := s.inFlight ++ [⟨sender, s.clock + h.controlRtt, finishes⟩] }

omit [DecidableEq ι] in
/-- The answer to a sender's report is back. -/
def Answered (s : ReportingHost ι ν κ τ β ε) (sender : Sender) : Prop :=
  ∃ r ∈ s.replies, r.sender = sender ∧ r.due ≤ s.clock

instance (s : ReportingHost ι ν κ τ β ε) (sender : Sender) : Decidable (s.Answered sender) :=
  inferInstanceAs (Decidable (∃ r ∈ s.replies, _ ∧ _))

/-- The step task is not held: its report is answered, its step is over. -/
def CanStep (s : ReportingHost ι ν κ τ β ε) : Prop :=
  match s.engine.task with
  | .reporting => s.Answered .loop
  | .waiting _ stepEnd => stepEnd ≤ s.clock
  | _ => True

instance (s : ReportingHost ι ν κ τ β ε) : Decidable s.CanStep := by
  unfold CanStep
  split <;> infer_instance

/-- The engine goes on to `t`, and `sender` waits for no answer any more. -/
def goOn (sender : Sender) (t : DecodeEngine ν κ τ β ε) (s : ReportingHost ι ν κ τ β ε) :
    ReportingHost ι ν κ τ β ε :=
  { s with engine := t, replies := s.replies.filter (·.sender ≠ sender) }

/-- One segment of one coroutine, one delivery, or the passing of time.  Time stops
at whatever is due, so what is due at one instant is delivered there, in any order. -/
def next (s : ReportingHost ι ν κ τ β ε) :
    ReportEvent ι ν κ τ β ε → Option (ReportingHost ι ν κ τ β ε)
  | .admission o request =>
      let id := s.engine.futures.length
      let t := DecodeEngine.admitRequest h.engine o s.clock request s.engine
      if request.decodeTokens = 0 then some { s with engine := t }
      else
        match o.stepCost with
        | .ok _ => some (send h (.admission id) { s with engine := t })
        | .error e => (DecodeEngine.admitted id (.error e) t).map fun u => { s with engine := u }
  | .admitted done =>
      if s.Answered (.admission done) then
        (DecodeEngine.admitted done (.ok ()) s.engine).map fun t => goOn (.admission done) t s
      else none
  | .step o =>
      if s.CanStep then
        (DecodeEngine.resume h.engine o s.engine).map fun r =>
          match r.1.task with
          | .reporting => send h .loop (goOn .loop r.1 s)
          | _ => goOn .loop r.1 s
      else none
  | .delivered k =>
      s.inFlight[k]?.bind fun r =>
        if r.due ≤ s.clock then
          some { s with
            sensor := s.sensor.fold (.decodeState h.me r.finishes : Action ι κ)
            inFlight := s.inFlight.eraseIdx k
            replies := s.replies ++ [⟨r.sender, s.clock + h.controlRtt⟩] }
        else none
  | .tick now =>
      if s.clock ≤ now ∧ (∀ r ∈ s.inFlight, now ≤ r.due) ∧ ∀ r ∈ s.replies, now ≤ r.due then
        some { s with clock := now }
      else none
  | .dispatched action =>
      if action.Foreign h.me then some { s with sensor := s.sensor.fold action } else none

/-- Nobody admitted, nothing reported. -/
structure Fresh (s : ReportingHost ι ν κ τ β ε) : Prop where
  engine : s.engine = .new
  sensor : s.sensor.decodeFinishes h.me = []
  inFlight : s.inFlight = []

/-- **Any interleaving** of admissions, steps and deliveries. -/
def machine : Machine (ReportingHost ι ν κ τ β ε) (ReportEvent ι ν κ τ β ε) :=
  .ofPartial (Fresh h) (next h)

/-! ## §3. What the sensor has. -/

/-- The finish list of the host, as a value that control is sent copies of. -/
def feed (s : ReportingHost ι ν κ τ β ε) : Feed (List ℚ) :=
  ⟨s.engine.finishes h.baseStep, s.inFlight.map Report.finishes, s.sensor.decodeFinishes h.me⟩

/-- **In turn**: nothing the engine calls raises, and the newest report in flight is
not delivered before an older one. -/
def InTurn (s : ReportingHost ι ν κ τ β ε) : ReportEvent ι ν κ τ β ε → Prop
  | .admission o _ => o.Quiet
  | .step o => o.Quiet
  | .delivered k => (s.feed h).InTurn k
  | _ => True

/-- The newest report is the finish list, and over no distance none is in flight. -/
structure Sound (s : ReportingHost ι ν κ τ β ε) : Prop where
  caught : (s.feed h).Caught
  near : h.controlRtt = 0 → s.inFlight = []

variable {h}

omit [DecidableEq ι] in
/-- Nothing of this changed. -/
theorem Sound.same {s t : ReportingHost ι ν κ τ β ε} (hs : Sound h s)
    (hcurrent : t.engine.finishes h.baseStep = s.engine.finishes h.baseStep)
    (hflight : t.inFlight = s.inFlight)
    (hseen : t.sensor.decodeFinishes h.me = s.sensor.decodeFinishes h.me) : Sound h t := by
  refine ⟨?_, ?_⟩
  · have hfeed : t.feed h = s.feed h := by
      unfold feed
      rw [hcurrent, hflight, hseen]
    rw [hfeed]
    exact hs.caught
  · rw [hflight]
    exact hs.near

/-- A report makes up for whatever changed before it. -/
theorem sound_send (sender : Sender) {s : ReportingHost ι ν κ τ β ε}
    (hnear : h.controlRtt = 0 → s.inFlight = []) : Sound h (send h sender s) := by
  unfold send
  by_cases hrtt : h.controlRtt = 0
  · simp only [if_pos hrtt]
    refine ⟨?_, hnear⟩
    simp [feed, Feed.Caught, ClusterSensor.fold, hnear hrtt]
  · simp only [if_neg hrtt]
    refine ⟨?_, fun hz => absurd hz hrtt⟩
    have hpost := Feed.Caught.post (s.feed h) (s.engine.finishes h.baseStep)
    unfold feed at hpost ⊢
    rw [List.map_append]
    exact hpost

omit [DecidableEq ι] in
/-- An engine that kept its batch and its queue has the same finish list. -/
theorem finishes_congr {s t : DecodeEngine ν κ τ β ε} (hb : t.batch = s.batch)
    (hp : t.pending = s.pending) (baseStep : ℚ) : t.finishes baseStep = s.finishes baseStep := by
  unfold DecodeEngine.finishes
  rw [hb, hp]

/-- An admission that decodes reports; one that does not leaves the batch. -/
theorem Sound.admission {s t : ReportingHost ι ν κ τ β ε} (hs : Sound h s)
    {o : Outcomes τ β ε} (ho : o.Quiet) {request : Request ν κ}
    (hnext : next h s (.admission o request) = some t) : Sound h t := by
  simp only [next, ho.stepCost] at hnext
  split at hnext
  · next hzero =>
      cases hnext
      rcases DecodeEngine.admit_cases h.engine o s.clock request s.engine with
        ⟨log, ha⟩ | ⟨log, g, ha⟩ | ⟨hne, _⟩
      · rw [ha]
        exact hs.same rfl rfl rfl
      · rw [ha]
        exact hs.same rfl rfl rfl
      · exact absurd hzero hne
  · cases hnext
    exact sound_send _ hs.near

/-- An admission that comes back moves the step task at most. -/
theorem Sound.admitted {s t : ReportingHost ι ν κ τ β ε} (hs : Sound h s) {done : ℕ}
    (hnext : next h s (.admitted done) = some t) : Sound h t := by
  simp only [next] at hnext
  split at hnext
  · obtain ⟨u, hu, rfl⟩ := Option.map_eq_some_iff.mp hnext
    have hframe : u.batch = s.engine.batch ∧ u.pending = s.engine.pending := by
      rcases DecodeEngine.admitted_cases hu with rfl | rfl
      · exact ⟨rfl, rfl⟩
      · unfold DecodeEngine.ensureStepping
        split <;> exact ⟨rfl, rfl⟩
    exact hs.same (finishes_congr hframe.1 hframe.2 _) rfl rfl
  · cases hnext

/-- A segment of the step task reports what it changed. -/
theorem Sound.stepped {s t : ReportingHost ι ν κ τ β ε} (hs : Sound h s)
    {o : Outcomes τ β ε} (ho : o.Quiet) (hnext : next h s (.step o) = some t) : Sound h t := by
  simp only [next] at hnext
  split at hnext
  · obtain ⟨⟨u, r⟩, hu, rfl⟩ := Option.map_eq_some_iff.mp hnext
    obtain rfl := DecodeEngine.resume_quiet ho hu
    have hcases := DecodeEngine.resume_reports (show h.engine.onState = true from rfl) hu
    split
    · exact sound_send _ hs.near
    · next hnot =>
        obtain ⟨_, hb, hp⟩ := hcases.resolve_left hnot
        exact hs.same (finishes_congr hb hp _) rfl rfl
  · cases hnext

/-- A report delivered in its turn replaces what the sensor had. -/
theorem Sound.delivered {s t : ReportingHost ι ν κ τ β ε} (hs : Sound h s) {k : ℕ}
    (hk : (s.feed h).InTurn k) (hnext : next h s (.delivered k) = some t) : Sound h t := by
  simp only [next] at hnext
  obtain ⟨r, hr, hnext⟩ := Option.bind_eq_some_iff.mp hnext
  split at hnext
  · cases hnext
    have hfinishes : (s.feed h).inFlight[k]? = some r.finishes := by
      show (s.inFlight.map Report.finishes)[k]? = _
      rw [List.getElem?_map, hr]
      rfl
    have hdeliver := hs.caught.deliver hfinishes hk
    refine ⟨?_, fun hrtt => ?_⟩
    · unfold feed at hdeliver ⊢
      simp only [ClusterSensor.fold, Function.update_self, List.eraseIdx_map] at hdeliver ⊢
      exact hdeliver
    · show s.inFlight.eraseIdx k = []
      rw [hs.near hrtt]
      rfl
  · cases hnext

/-- **Every step in turn keeps the newest report the finish list.** -/
theorem Sound.step {s t : ReportingHost ι ν κ τ β ε} (hs : Sound h s)
    {e : ReportEvent ι ν κ τ β ε} (hok : InTurn h s e) (hnext : next h s e = some t) :
    Sound h t := by
  cases e with
  | admission o request => exact hs.admission hok hnext
  | admitted done => exact hs.admitted hnext
  | step o => exact hs.stepped hok hnext
  | delivered k => exact hs.delivered hok hnext
  | tick now =>
      obtain ⟨_, hnext⟩ := Option.ite_none_right_eq_some.mp hnext
      cases hnext
      exact hs.same rfl rfl rfl
  | dispatched action =>
      obtain ⟨hforeign, hnext⟩ := Option.ite_none_right_eq_some.mp hnext
      cases hnext
      refine hs.same rfl rfl ?_
      cases action with
      | decodeState inst finishes =>
          exact Function.update_of_ne (Ne.symm hforeign) finishes s.sensor.decodeFinishes
      | prefillFinished inst now =>
          show (s.sensor.fold (.prefillFinished inst now : Action ι κ)).decodeFinishes _ = _
          rw [ClusterSensor.fold_decodeFinishes _ nofun]
      | _ => rfl

theorem sound_of_run {s : ReportingHost ι ν κ τ β ε}
    (hrun : ((machine h).guarded (InTurn h)).Reachable s) : Sound h s := by
  refine hrun.guarded_invariant (P := Sound h) (fun s hfresh => ?_)
    fun _ _ _ hs hok hnext => hs.step hok hnext
  refine ⟨?_, fun _ => hfresh.inFlight⟩
  unfold feed
  rw [hfresh.engine, hfresh.inFlight, hfresh.sensor]
  rfl

/-- **One entry per request**: in every state of a run in turn, with no report of the
host in flight, the sensor has the finish list of its batch and queue, one entry
for each request there. -/
theorem oneEntry_of_run {s : ReportingHost ι ν κ τ β ε}
    (hrun : ((machine h).guarded (InTurn h)).Reachable s) (hnone : s.inFlight = []) :
    s.sensor.decodeFinishes h.me = s.engine.finishes h.baseStep ∧
      s.sensor.occupancy h.me = s.engine.batch.length + s.engine.pending.length := by
  have hflight : (s.feed h).inFlight = [] := by
    show s.inFlight.map Report.finishes = []
    rw [hnone]
    rfl
  have hseen : s.sensor.decodeFinishes h.me = s.engine.finishes h.baseStep :=
    (sound_of_run hrun).caught.seen_eq hflight
  refine ⟨hseen, ?_⟩
  unfold ClusterSensor.occupancy
  rw [hseen, DecodeEngine.finishes, List.length_map, List.length_append]

/-! ### Two admissions at one instant -/

/-- Host `0` decodes two at once, a second away from control. -/
def pairHost : HostSettings ℕ := ⟨0, 2, false, 1, 1⟩

/-- Nobody admitted anywhere. -/
def idle : ReportingHost ℕ ℕ ℕ Unit Unit Unit := ⟨.new, .new, 0, [], []⟩

theorem idle_fresh : Fresh pairHost idle := ⟨rfl, rfl, rfl⟩

/-- Two requests are admitted, and both reports are due a second later. -/
def admissions : List (ReportEvent ℕ ℕ ℕ Unit Unit Unit) :=
  [.admission DecodeEngine.smooth DecodeEngine.soloRequest,
    .admission DecodeEngine.smooth DecodeEngine.soloRequest, .tick 1]

theorem smooth_quiet : DecodeEngine.smooth.Quiet :=
  ⟨rfl, ⟨_, rfl⟩, ⟨_, rfl⟩, fun _ => rfl, fun _ _ => ⟨_, rfl⟩, rfl⟩

/-- Delivered as sent, they leave two entries. -/
theorem oneEntry_pair : ∃ s : ReportingHost ℕ ℕ ℕ Unit Unit Unit,
    s.inFlight.length = 0 ∧ s.engine.batch.length + s.engine.pending.length = 2 ∧
      s.sensor.occupancy 0 = 2 := by
  have hrun : (Machine.replay (next pairHost) idle (admissions ++ [.delivered 0, .delivered 0])).map
      (fun s => (s.inFlight.length, s.engine.batch.length + s.engine.pending.length))
      = some (0, 2) := by decide +kernel
  obtain ⟨s, hs, hval⟩ := Option.map_eq_some_iff.mp hrun
  obtain ⟨hflight, hsize⟩ := Prod.mk.inj hval
  have hturn : ∀ e ∈ admissions ++ [.delivered 0, .delivered 0], ∀ s, InTurn pairHost s e := by
    intro e he s
    simp only [admissions, List.cons_append, List.nil_append, List.mem_cons, List.not_mem_nil,
      or_false] at he
    rcases he with rfl | rfl | rfl | rfl | rfl
    · exact smooth_quiet
    · exact smooth_quiet
    · exact trivial
    · exact fun _ => rfl
    · exact fun _ => rfl
  have hreach : ((machine pairHost).guarded (InTurn pairHost)).Reachable s :=
    Machine.Reachable.of_replay_guarded (fun _ _ _ hnext => hnext) _ hturn (.init idle_fresh) hs
  refine ⟨s, hflight, hsize, ?_⟩
  rw [← hsize]
  exact (oneEntry_of_run hreach (List.length_eq_zero_iff.mp hflight)).2

/-- **A stale report stays**: delivered the other way round, which the shuffle allows,
the first admission's report overwrites the second's, and none is in flight. -/
theorem stale_report_stays :
    ¬ ∀ s : ReportingHost ℕ ℕ ℕ Unit Unit Unit, (machine pairHost).Reachable s →
      s.inFlight = [] →
      s.sensor.occupancy 0 = s.engine.batch.length + s.engine.pending.length := by
  intro hall
  have hrun : (Machine.replay (next pairHost) idle (admissions ++ [.delivered 1, .delivered 0])).map
      (fun s => (s.inFlight.length, s.engine.batch.length + s.engine.pending.length,
        s.sensor.occupancy 0)) = some (0, 2, 1) := by decide +kernel
  obtain ⟨s, hs, hval⟩ := Option.map_eq_some_iff.mp hrun
  have hreach : (machine pairHost).Reachable s :=
    Machine.Reachable.of_replay (fun _ _ _ hnext => hnext) _ (.init idle_fresh) hs
  simp only [Prod.mk.injEq] at hval
  obtain ⟨hflight, hsize, hoccupancy⟩ := hval
  have hentries := hall s hreach (List.length_eq_zero_iff.mp hflight)
  omega

/-! ## §4. The ready queue in the order it was filled. -/

/-- **First in, first out**: nothing the engine calls raises, and of the reports due at
one instant the oldest is delivered first. -/
def Fifo (h : HostSettings ι) (s : ReportingHost ι ν κ τ β ε) : ReportEvent ι ν κ τ β ε → Prop
  | .delivered k => ∀ j < k, ∀ r r', s.inFlight[j]? = some r → s.inFlight[k]? = some r' →
      r.due ≠ r'.due
  | e => InTurn h s e

/-- Reports are due within a leg of now, in the order they were sent. -/
structure Timed (h : HostSettings ι) (s : ReportingHost ι ν κ τ β ε) : Prop where
  due : ∀ r ∈ s.inFlight, s.clock ≤ r.due ∧ r.due ≤ s.clock + h.controlRtt
  sorted : s.inFlight.Pairwise fun r r' => r.due ≤ r'.due

/-- The report that is sent now is due last. -/
theorem Timed.send (hrtt : 0 ≤ h.controlRtt) {s : ReportingHost ι ν κ τ β ε} (hs : Timed h s)
    (sender : Sender) : Timed h (send h sender s) := by
  unfold ReportingHost.send
  by_cases hzero : h.controlRtt = 0
  · simp only [if_pos hzero]
    exact ⟨hs.due, hs.sorted⟩
  · simp only [if_neg hzero]
    constructor
    case due =>
      intro r hr
      rcases List.mem_append.mp hr with hr | hr
      · exact hs.due r hr
      · obtain rfl := List.mem_singleton.mp hr
        exact ⟨le_add_of_nonneg_right hrtt, le_refl _⟩
    case sorted =>
      refine List.pairwise_append.mpr ⟨hs.sorted, List.pairwise_singleton _ _, ?_⟩
      intro r hr r' hr'
      obtain rfl := List.mem_singleton.mp hr'
      exact (hs.due r hr).2

/-- Every step keeps the reports timed. -/
theorem Timed.step (hrtt : 0 ≤ h.controlRtt) {s t : ReportingHost ι ν κ τ β ε} (hs : Timed h s)
    {e : ReportEvent ι ν κ τ β ε} (hnext : next h s e = some t) : Timed h t := by
  cases e with
  | admission o request =>
      simp only [next] at hnext
      split at hnext
      · cases hnext
        exact ⟨hs.due, hs.sorted⟩
      · split at hnext
        · cases hnext
          have hsame : Timed h { s with
              engine := DecodeEngine.admitRequest h.engine o s.clock request s.engine } :=
            ⟨hs.due, hs.sorted⟩
          exact hsame.send hrtt _
        · obtain ⟨u, _, rfl⟩ := Option.map_eq_some_iff.mp hnext
          exact ⟨hs.due, hs.sorted⟩
  | admitted done =>
      obtain ⟨_, hnext⟩ := Option.ite_none_right_eq_some.mp hnext
      obtain ⟨u, _, rfl⟩ := Option.map_eq_some_iff.mp hnext
      exact ⟨hs.due, hs.sorted⟩
  | step o =>
      obtain ⟨_, hnext⟩ := Option.ite_none_right_eq_some.mp hnext
      obtain ⟨⟨u, r⟩, _, rfl⟩ := Option.map_eq_some_iff.mp hnext
      have hsame : Timed h (goOn .loop u s) := ⟨hs.due, hs.sorted⟩
      split
      · exact hsame.send hrtt _
      · exact hsame
  | delivered k =>
      obtain ⟨r, _, hnext⟩ := Option.bind_eq_some_iff.mp hnext
      obtain ⟨_, hnext⟩ := Option.ite_none_right_eq_some.mp hnext
      cases hnext
      have hsub : (s.inFlight.eraseIdx k).Sublist s.inFlight := List.eraseIdx_sublist _ _
      exact ⟨fun r hr => hs.due r (hsub.subset hr), hs.sorted.sublist hsub⟩
  | tick now =>
      obtain ⟨⟨hclock, hdue, _⟩, hnext⟩ := Option.ite_none_right_eq_some.mp hnext
      cases hnext
      refine ⟨fun r hr => ⟨hdue r hr, ?_⟩, hs.sorted⟩
      have hle := (hs.due r hr).2
      exact le_trans hle (add_le_add hclock le_rfl)
  | dispatched action =>
      obtain ⟨_, hnext⟩ := Option.ite_none_right_eq_some.mp hnext
      cases hnext
      exact ⟨hs.due, hs.sorted⟩

/-- What is delivered first in, first out is delivered in turn. -/
theorem Timed.inTurn {s t : ReportingHost ι ν κ τ β ε} (hs : Timed h s)
    {e : ReportEvent ι ν κ τ β ε} (hfifo : Fifo h s e) (hnext : next h s e = some t) :
    InTurn h s e := by
  cases e with
  | delivered k =>
      intro _
      by_contra hk
      obtain ⟨r', hr', hnext⟩ := Option.bind_eq_some_iff.mp hnext
      obtain ⟨hdue, _⟩ := Option.ite_none_right_eq_some.mp hnext
      obtain ⟨hlt, hget⟩ := List.getElem?_eq_some_iff.mp hr'
      -- the oldest report is due no later, and nothing in flight is overdue
      have hoften : s.inFlight[0].due ≤ s.inFlight[k].due :=
        List.pairwise_iff_getElem.mp hs.sorted 0 k (by omega) hlt (by omega)
      have hpast := (hs.due s.inFlight[0] (List.getElem_mem (by omega))).1
      refine hfifo 0 (by omega) _ r' (List.getElem?_eq_getElem (by omega)) hr' ?_
      rw [hget] at hoften
      exact le_antisymm hoften (le_trans hdue hpast)
  | admission o request => exact hfifo
  | admitted done => exact hfifo
  | step o => exact hfifo
  | tick now => exact hfifo
  | dispatched action => exact hfifo

/-- **So it is without the shuffle**: what is due at one instant is delivered in the
order sent, and with no report in flight the sensor has one entry per request. -/
theorem oneEntry_of_fifo (hrtt : 0 ≤ h.controlRtt) {s : ReportingHost ι ν κ τ β ε}
    (hrun : ((machine h).guarded (Fifo h)).Reachable s) (hnone : s.inFlight = []) :
    s.sensor.decodeFinishes h.me = s.engine.finishes h.baseStep ∧
      s.sensor.occupancy h.me = s.engine.batch.length + s.engine.pending.length := by
  have hboth : ((machine h).guarded (InTurn h)).Reachable s ∧ Timed h s := by
    refine hrun.guarded_invariant
      (P := fun s => ((machine h).guarded (InTurn h)).Reachable s ∧ Timed h s) ?_ ?_
    · intro s hfresh
      refine ⟨.init hfresh, fun r hr => ?_, ?_⟩
      · rw [hfresh.inFlight] at hr
        cases hr
      · rw [hfresh.inFlight]
        exact List.Pairwise.nil
    · intro s e t hs hok hnext
      exact ⟨.step hs.1 ⟨hs.2.inTurn hok hnext, hnext⟩, hs.2.step hrtt hnext⟩
  exact oneEntry_of_run hboth.1 hnone

end ReportingHost

end Toso.KvCache
