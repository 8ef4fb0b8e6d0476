/-
  Toso.KvCache.ServiceRun — a set of forward passes on one device, on a virtual clock.

  Every pass of a workload is submitted at its instant, and a pass that is due ends
  there: the clock does not move while anything is ready to run.  At one instant the
  coroutines run in any order.  A run keeps when each pass started and when it was
  complete.  Instants are exact rationals: a pass ends at exactly its start and length.

  Main results:
    * `moves_of_next` — what each event does.
    * `Tracked.step` — what every event keeps.
    * `settle` — every run can go on until all that is submitted before an instant is
      through by it.
-/
import Toso.KvCache.Accelerator
import Toso.Lib.Machine
import Toso.Lib.Server
import Mathlib.Data.Finset.Max
import Mathlib.Order.WithBot

namespace Toso.KvCache

open Lib

variable {τ : Type*} [LinearOrder τ]

/-! ## §1. Workloads. -/

/-- One call of `prefill`: when, for whom, and how much there is to compute. -/
structure Submission (τ : Type*) where
  submitted : ℚ
  tag : τ
  tokens : ℕ
  deriving DecidableEq

/-- When a pass started and when it was complete. -/
structure Slot (τ : Type*) where
  tag : τ
  start : ℚ
  stop : ℚ
  deriving DecidableEq

/-- **A workload**: the passes submitted to one device, each under a tag of its own, from
`opens` on, and how long the device is busy already. -/
structure Workload (τ : Type*) where
  busyUntil : ℚ
  opens : ℚ
  passes : List (Submission τ)
  distinct : (passes.map Submission.tag).Nodup
  ahead : ∀ x ∈ passes, opens ≤ x.submitted

namespace Submission

/-- The order of service: submission instant, then tag. -/
def key (x : Submission τ) : ℚ ×ₗ τ := toLex (x.submitted, x.tag)

/-- What a pass costs the device. -/
def cost (costs : WorkCosts) (x : Submission τ) : ℚ := costs.prefillCost x.tokens

/-- There is something to compute. -/
def Queues (costs : WorkCosts) (x : Submission τ) : Prop := 0 < x.cost costs

instance (costs : WorkCosts) : DecidablePred (Queues (τ := τ) costs) := fun x =>
  inferInstanceAs (Decidable (0 < x.cost costs))

end Submission

/-! ## §2. Runs of a workload. -/

/-- A device with the passes not submitted yet, the submission of each pass it has,
by number, when each of them started and was complete, in the order booked, and the
same for the passes with nothing to compute. -/
structure Service (τ : Type*) where
  device : Device τ
  left : List (Submission τ)
  passes : List (Submission τ)
  log : List (Slot τ)
  free : List (Slot τ)

/-- Nothing submitted yet. -/
def Workload.start (W : Workload τ) : Service τ :=
  ⟨⟨W.busyUntil, ⟨false, [], []⟩, W.opens, []⟩, W.passes, [], [], []⟩

/-- The clock may move to `now` past a pass at this stage: it is not ready to run. -/
def Pass.Stage.Holds (now : ℚ) : Pass.Stage → Prop
  | .handed => False
  | .occupying due => now ≤ due
  | _ => True

instance (now : ℚ) : DecidablePred (Pass.Stage.Holds now) := fun stage => by
  cases stage <;> unfold Pass.Stage.Holds <;> infer_instance

namespace Service

/-- What can run next. -/
inductive Event (τ : Type*)
  | submit (x : Submission τ)
  | resume (id : ℕ)
  | finish (id : ℕ)
  | tick (now : ℚ)

/-- The device goes on to `d`; what it booked goes on record under `tag`. -/
def record (s : Service τ) (tag : τ) (d : Device τ) : Service τ :=
  { s with
    device := d
    log := s.log ++ (d.bookings.drop s.device.bookings.length).map fun b =>
      ⟨tag, b.start, b.stop⟩ }

/-- One segment of one coroutine, or the clock moves on to where something is ready. -/
def next (costs : WorkCosts) (s : Service τ) : Event τ → Option (Service τ)
  | .submit x =>
      if x ∈ s.left ∧ x.submitted = s.device.clock then
        (Device.next costs s.device (.submit x.submitted x.tag x.tokens false)).map fun d =>
          let t := { s with left := s.left.erase x }
          if x.Queues costs then { t.record x.tag d with passes := s.passes ++ [x] }
          else { t with device := d, free := s.free ++ [⟨x.tag, x.submitted, x.submitted⟩] }
      else none
  | .resume id =>
      s.passes[id]?.bind fun x =>
        (Device.next costs s.device (.resume s.device.clock id false)).map (s.record x.tag)
  | .finish id =>
      (Device.next costs s.device (.finish s.device.clock id false)).map fun d =>
        { s with device := d }
  | .tick now =>
      if s.device.clock ≤ now ∧ (∀ p ∈ s.device.queue.passes, p.stage.Holds now) ∧
          ∀ x ∈ s.left, now ≤ x.submitted then
        some { s with device := { s.device with clock := now } }
      else none

/-- **Any run of a workload.** -/
def machine (costs : WorkCosts) (W : Workload τ) : Machine (Service τ) (Event τ) :=
  .ofPartial (· = W.start) (next costs)

/-- Everything is submitted and through. -/
def Complete (s : Service τ) : Prop := s.left = [] ∧ s.device.queue.running = false

instance (s : Service τ) : Decidable s.Complete :=
  inferInstanceAs (Decidable (s.left = [] ∧ s.device.queue.running = false))

/-- When the pass of `tag` started and was complete. -/
def times (s : Service τ) (tag : τ) : Option (ℚ × ℚ) :=
  ((s.log ++ s.free).find? (·.tag = tag)).map fun e => (e.start, e.stop)

/-! ## §3. What each event does. -/

/-- Pass `id` of `d` books the device now, and has it until it is through. -/
def occupied (costs : WorkCosts) (d : Device τ) (id tokens : ℕ) : Device τ :=
  let t := d.claim d.clock (costs.prefillCost tokens)
  { t with queue := t.queue.setStage id (.occupying t.busyUntil) }

/-- The interval that books. -/
def slot (costs : WorkCosts) (d : Device τ) (x : Submission τ) : Slot τ :=
  ⟨x.tag, max d.clock d.busyUntil, max d.clock d.busyUntil + x.cost costs⟩

/-- **What each event does**: a pass with nothing to compute goes through, another parks
or takes the device, the pass the device was handed begins, and one that is through
hands it on. -/
inductive Moves (costs : WorkCosts) (s : Service τ) : Event τ → Service τ → Prop
  | free {x : Submission τ} (hx : x ∈ s.left) (hnow : x.submitted = s.device.clock)
      (hcost : ¬ x.Queues costs) :
      Moves costs s (.submit x) { s with
        left := s.left.erase x
        free := s.free ++ [⟨x.tag, x.submitted, x.submitted⟩] }
  | park {x : Submission τ} (hx : x ∈ s.left) (hnow : x.submitted = s.device.clock)
      (hcost : x.Queues costs) (hrun : s.device.queue.running = true) :
      Moves costs s (.submit x) { s with
        device := { s.device with queue := { s.device.queue with
          waiting := s.device.queue.waiting ++
            [⟨x.submitted, x.tag, s.device.queue.passes.length⟩]
          passes := s.device.queue.passes ++ [⟨x.tokens, .waiting⟩] } }
        left := s.left.erase x
        passes := s.passes ++ [x] }
  | take {x : Submission τ} (hx : x ∈ s.left) (hnow : x.submitted = s.device.clock)
      (hcost : x.Queues costs) (hrun : s.device.queue.running = false) :
      Moves costs s (.submit x) { s with
        device := occupied costs { s.device with queue := { s.device.queue with
          running := true
          passes := s.device.queue.passes ++ [⟨x.tokens, .handed⟩] } }
          s.device.queue.passes.length x.tokens
        left := s.left.erase x
        passes := s.passes ++ [x]
        log := s.log ++ [slot costs s.device x] }
  | begin {id tokens : ℕ} {x : Submission τ} (hx : s.passes[id]? = some x)
      (hid : s.device.queue.passes[id]? = some ⟨tokens, .handed⟩) :
      Moves costs s (.resume id) { s with
        device := occupied costs s.device id tokens
        log := s.log ++ [⟨x.tag, max s.device.clock s.device.busyUntil,
          max s.device.clock s.device.busyUntil + costs.prefillCost tokens⟩] }
  | finish {id : ℕ} {due : ℚ} (hid : s.device.queue.stage id = some (.occupying due))
      (hdue : due ≤ s.device.clock) :
      Moves costs s (.finish id) { s with
        device := s.device.leave id }
  | tick {now : ℚ} (hnow : s.device.clock ≤ now)
      (hheld : ∀ p ∈ s.device.queue.passes, p.stage.Holds now)
      (hleft : ∀ x ∈ s.left, now ≤ x.submitted) :
      Moves costs s (.tick now) { s with device := { s.device with clock := now } }

omit [LinearOrder τ] in
/-- An interval booked on top of the others is the one recorded. -/
theorem record_booked (s : Service τ) (tag : τ) {d : Device τ} {b : Booking}
    (hb : d.bookings = s.device.bookings ++ [b]) :
    s.record tag d = { s with device := d, log := s.log ++ [⟨tag, b.start, b.stop⟩] } := by
  unfold record
  rw [hb, List.drop_left]
  rfl

theorem moves_of_next {costs : WorkCosts} {s t : Service τ} {e : Event τ}
    (h : next costs s e = some t) : Moves costs s e t := by
  cases e with
  | submit x =>
      obtain ⟨⟨hx, hnow⟩, h⟩ := Option.ite_none_right_eq_some.mp h
      obtain ⟨d, hd, rfl⟩ := Option.map_eq_some_iff.mp h
      have hclock : { s.device with clock := x.submitted } = s.device := by rw [hnow]
      simp only [Device.next, hnow, le_refl, if_true] at hd
      by_cases hcost : x.Queues costs
      · have hpos : 0 < costs.prefillCost x.tokens := hcost
        simp only [if_pos hpos] at hd
        cases hd
        simp only [if_pos hcost, Device.submit]
        -- in use: it parks; idle: it is handed the device at once
        by_cases hrun : s.device.queue.running = true
        · simp only [if_pos hrun]
          have hpark := Moves.park hx hnow hcost hrun
          rw [hnow] at hpark
          simpa [record] using hpark
        · simp only [if_neg hrun, Device.occupy]
          rw [record_booked _ _ rfl]
          exact Moves.take hx hnow hcost (Bool.eq_false_iff.mpr hrun)
      · have hpos : ¬ 0 < costs.prefillCost x.tokens := hcost
        simp only [if_neg hpos] at hd
        cases hd
        simp only [if_neg hcost]
        -- a pass that costs nothing leaves where it came
        exact Moves.free hx hnow hcost
  | resume id =>
      obtain ⟨x, hx, h⟩ := Option.bind_eq_some_iff.mp h
      obtain ⟨d, hd, rfl⟩ := Option.map_eq_some_iff.mp h
      simp only [Device.next] at hd
      split at hd
      · next tokens hp =>
          simp only [le_refl, if_true] at hd
          cases hd
          simp only [Device.occupy]
          rw [record_booked _ _ rfl]
          exact Moves.begin hx hp
      · cases hd
  | finish id =>
      obtain ⟨d, hd, rfl⟩ := Option.map_eq_some_iff.mp h
      simp only [Device.next] at hd
      split at hd
      · next tokens due hp =>
          simp only [le_refl, true_and] at hd
          obtain ⟨hdue, hd⟩ := Option.ite_none_right_eq_some.mp hd
          cases hd
          have hstage : s.device.queue.stage id = some (.occupying due) := by
            unfold PrefillQueue.stage
            rw [hp]
            rfl
          exact Moves.finish hstage (hdue.resolve_left (by simp))
      · cases hd
  | tick now =>
      obtain ⟨⟨hnow, hheld, hleft⟩, h⟩ := Option.ite_none_right_eq_some.mp h
      cases h
      exact Moves.tick hnow hheld hleft

/-! ## §4. What every event keeps. -/

omit [LinearOrder τ] in
theorem tokens_setStage (q : PrefillQueue τ) (id : ℕ) (stage : Pass.Stage) :
    (q.setStage id stage).passes.map Pass.tokens = q.passes.map Pass.tokens := by
  refine List.ext_getElem? fun j => ?_
  simp only [PrefillQueue.setStage, List.getElem?_map, List.getElem?_modify]
  cases q.passes[j]? with
  | none => rfl
  | some p =>
      by_cases hj : id = j
      · simp [hj, Pass.at]
      · simp [hj]

/-- **A pass that is through** leaves the device idle, or hands it to the least pass that
waits. -/
theorem leave_cases {q : PrefillQueue τ} (hq : q.Sound) {id : ℕ} (hid : q.Owns id) :
    (q.setStage id .done).handOff.passes.map Pass.tokens = q.passes.map Pass.tokens ∧
    ((q.waiting = [] ∧ (q.setStage id .done).handOff.waiting = [] ∧
        (q.setStage id .done).handOff.running = false ∧
        ∀ j, (q.setStage id .done).handOff.stage j
          = if j = id then some .done else q.stage j) ∨
      ∃ w rest, (w :: rest).Perm q.waiting ∧ (∀ w' ∈ q.waiting, w.Before w') ∧
        (q.setStage id .done).handOff.waiting = rest ∧
        (q.setStage id .done).handOff.running = q.running ∧ q.stage w.turn = some .waiting ∧
        ∀ j, (q.setStage id .done).handOff.stage j
          = if j = w.turn then some .handed else if j = id then some .done else q.stage j) := by
  obtain ⟨old, hold⟩ := PrefillQueue.owns_isSome hid
  have hdone := PrefillQueue.stage_setStage hold .done
  rcases PrefillQueue.handOff_cases (q.setStage id .done) with
    ⟨hwait, heq⟩ | ⟨w, rest, hperm, hleast, heq⟩
  · rw [heq]
    exact ⟨tokens_setStage q id .done, .inl ⟨hwait, hwait, rfl, hdone⟩⟩
  · have hperm' : (w :: rest).Perm q.waiting := hperm
    have hparked : q.stage w.turn = some .waiting :=
      (hq.parked w.turn).mpr (List.mem_map_of_mem (hperm'.mem_iff.mp List.mem_cons_self))
    have hother : w.turn ≠ id := by
      intro hsame
      rw [hsame] at hparked
      exact PrefillQueue.not_owns_of_waiting hparked hid
    have hw : (q.setStage id .done).stage w.turn = some .waiting := by
      rw [hdone, if_neg hother]
      exact hparked
    have hstage := PrefillQueue.stage_setStage
      (q := { q.setStage id .done with waiting := rest }) hw .handed
    have htokens := tokens_setStage { q.setStage id .done with waiting := rest } w.turn .handed
    rw [heq]
    refine ⟨htokens.trans (tokens_setStage q id .done),
      .inr ⟨w, rest, hperm', hleast, rfl, rfl, hparked, fun j => ?_⟩⟩
    rw [hstage]
    by_cases hj : j = w.turn
    · rw [if_pos hj, if_pos hj]
    · rw [if_neg hj, if_neg hj]
      exact hdone j

/-- What holds of every state of a run. -/
structure Tracked (costs : WorkCosts) (W : Workload τ) (s : Service τ) : Prop where
  queue : s.device.queue.Sound
  tokens : s.device.queue.passes.map Pass.tokens = s.passes.map Submission.tokens
  entries : ∀ w ∈ s.device.queue.waiting, ∃ x, s.passes[w.turn]? = some x ∧ w.key = x.key
  distinct : ((s.passes ++ s.left).map Submission.tag).Nodup
  member : ∀ x ∈ s.passes ++ s.left, x ∈ W.passes
  queues : ∀ x ∈ s.passes, x.Queues costs
  past : ∀ x ∈ s.passes, x.submitted ≤ s.device.clock
  ahead : ∀ x ∈ s.left, s.device.clock ≤ x.submitted
  lasts : ∀ id due, s.device.queue.stage id = some (.occupying due) → s.device.clock ≤ due
  logged : ∀ e ∈ s.log, ∃ x ∈ s.passes, e.tag = x.tag
  freed : ∀ e ∈ s.free, ∃ x ∈ W.passes, ¬ x.Queues costs ∧
    e = ⟨x.tag, x.submitted, x.submitted⟩
  gone : ∀ x ∈ W.passes, ¬ x.Queues costs →
    x ∈ s.left ∨ (⟨x.tag, x.submitted, x.submitted⟩ : Slot τ) ∈ s.free

section

variable {costs : WorkCosts} {W : Workload τ} {s t : Service τ}

omit [LinearOrder τ] in
theorem tracked_start (costs : WorkCosts) (W : Workload τ) : Tracked costs W W.start where
  queue := by
    have hnone : ∀ id, ¬ (⟨false, [], []⟩ : PrefillQueue τ).Owns id := by
      intro id hown
      obtain ⟨old, hold⟩ := PrefillQueue.owns_isSome hown
      cases hold
    refine ⟨⟨List.nodup_nil, fun id => ?_⟩, fun id _ hid _ => absurd hid (hnone id), ?_,
      fun _ => ⟨rfl, hnone⟩⟩
    · constructor
      · intro hid
        cases hid
      · intro hid
        cases hid
    · intro hrun
      cases hrun
  tokens := rfl
  entries w hw := by cases hw
  distinct := W.distinct
  member x hx := hx
  queues x hx := by cases hx
  past x hx := by cases hx
  ahead := W.ahead
  lasts id due hid := by cases hid
  logged e he := by cases he
  freed e he := by cases he
  gone x hx _ := .inl hx

/-- A submission moves one of those left. -/
theorem submitted_perm {x : Submission τ} (hx : x ∈ s.left) :
    (s.passes ++ [x] ++ s.left.erase x).Perm (s.passes ++ s.left) := by
  rw [List.append_assoc]
  exact (List.perm_cons_erase hx).symm.append_left s.passes

omit [LinearOrder τ] in
theorem Tracked.nodup_left (h : Tracked costs W s) : s.left.Nodup := by
  have hdistinct := h.distinct
  rw [List.map_append, List.nodup_append] at hdistinct
  exact hdistinct.2.1.of_map

theorem Tracked.mem_erase (h : Tracked costs W s) {x y : Submission τ} :
    y ∈ s.left.erase x ↔ y ≠ x ∧ y ∈ s.left := h.nodup_left.mem_erase_iff

/-- What takes the pass `x` of the submissions left, and moves the device as a submission
may. -/
theorem Tracked.submitted (h : Tracked costs W s) {x : Submission τ} (hx : x ∈ s.left)
    (hnow : x.submitted = s.device.clock) (hcost : x.Queues costs) {d : Device τ}
    {log : List (Slot τ)} (hqueue : d.queue.Sound) (hclock : d.clock = s.device.clock)
    (htokens : d.queue.passes.map Pass.tokens = s.device.queue.passes.map Pass.tokens ++ [x.tokens])
    (hwaiting : d.queue.waiting = s.device.queue.waiting ∨ d.queue.waiting =
      s.device.queue.waiting ++ [⟨x.submitted, x.tag, s.device.queue.passes.length⟩])
    (hlasts : ∀ id due, d.queue.stage id = some (.occupying due) →
      s.device.queue.stage id = some (.occupying due) ∨ s.device.clock ≤ due)
    (hlog : ∀ e ∈ log, e ∈ s.log ∨ e.tag = x.tag) :
    Tracked costs W { s with
      device := d, left := s.left.erase x, passes := s.passes ++ [x], log := log } := by
  have hperm := submitted_perm hx
  have hlength : s.device.queue.passes.length = s.passes.length := by
    have hlen := congrArg List.length h.tokens
    simpa using hlen
  constructor
  case queue => exact hqueue
  case tokens =>
    show d.queue.passes.map Pass.tokens = (s.passes ++ [x]).map Submission.tokens
    rw [htokens, h.tokens, List.map_append]
    rfl
  case entries =>
    intro w hw
    -- the numbers of the passes do not change: one more comes at the end
    have hold : ∀ w ∈ s.device.queue.waiting,
        ∃ y, (s.passes ++ [x])[w.turn]? = some y ∧ w.key = y.key := by
      intro w hw
      obtain ⟨y, hy, hkey⟩ := h.entries w hw
      refine ⟨y, ?_, hkey⟩
      rw [List.getElem?_append_left (List.getElem?_eq_some_iff.mp hy).1]
      exact hy
    have hw' : w ∈ d.queue.waiting := hw
    rcases hwaiting with hsame | hnew
    · rw [hsame] at hw'
      exact hold w hw'
    · rw [hnew] at hw'
      rcases List.mem_append.mp hw' with hw' | hw'
      · exact hold w hw'
      · rw [List.mem_singleton.mp hw']
        refine ⟨x, ?_, rfl⟩
        show (s.passes ++ [x])[s.device.queue.passes.length]? = some x
        rw [hlength]
        exact List.getElem?_concat_length
  case distinct => exact ((hperm.map Submission.tag).nodup_iff).mpr h.distinct
  case member => exact fun y hy => h.member y (hperm.mem_iff.mp hy)
  case queues =>
    intro y hy
    rcases List.mem_append.mp hy with hy | hy
    · exact h.queues y hy
    · rw [List.mem_singleton.mp hy]
      exact hcost
  case past =>
    intro y hy
    show y.submitted ≤ d.clock
    rw [hclock]
    rcases List.mem_append.mp hy with hy | hy
    · exact h.past y hy
    · rw [List.mem_singleton.mp hy]
      exact hnow.le
  case ahead =>
    intro y hy
    show d.clock ≤ y.submitted
    rw [hclock]
    exact h.ahead y (List.mem_of_mem_erase hy)
  case lasts =>
    intro id due hid
    show d.clock ≤ due
    rw [hclock]
    rcases hlasts id due hid with hold | hnew
    · exact h.lasts id due hold
    · exact hnew
  case logged =>
    intro e he
    rcases hlog e he with hold | htag
    · obtain ⟨y, hy, heq⟩ := h.logged e hold
      exact ⟨y, List.mem_append_left _ hy, heq⟩
    · exact ⟨x, List.mem_append_right _ (List.mem_singleton_self x), htag⟩
  case freed => exact h.freed
  case gone =>
    intro y hy hfree
    -- `x` queues, so it is none of those that were free
    rcases h.gone y hy hfree with hleft | hgone
    · have hne : y ≠ x := by
        intro heq
        exact hfree (heq ▸ hcost)
      exact .inl (h.mem_erase.mpr ⟨hne, hleft⟩)
    · exact .inr hgone

/-- A pass with nothing to compute touches no device. -/
theorem Tracked.free (h : Tracked costs W s) {x : Submission τ} (hx : x ∈ s.left)
    (hcost : ¬ x.Queues costs) : Tracked costs W { s with
      left := s.left.erase x, free := s.free ++ [⟨x.tag, x.submitted, x.submitted⟩] } := by
  have hsub : (s.passes ++ s.left.erase x).Sublist (s.passes ++ s.left) :=
    List.erase_sublist.append_left s.passes
  constructor
  case queue => exact h.queue
  case tokens => exact h.tokens
  case entries => exact h.entries
  case distinct => exact h.distinct.sublist (hsub.map Submission.tag)
  case member => exact fun y hy => h.member y (hsub.subset hy)
  case queues => exact h.queues
  case past => exact h.past
  case ahead => exact fun y hy => h.ahead y (List.mem_of_mem_erase hy)
  case lasts => exact h.lasts
  case logged => exact h.logged
  case freed =>
    intro e he
    rcases List.mem_append.mp he with he | he
    · exact h.freed e he
    · exact ⟨x, h.member x (List.mem_append_right _ hx), hcost, List.mem_singleton.mp he⟩
  case gone =>
    intro y hy hfree
    by_cases heq : y = x
    · rw [heq]
      exact .inr (List.mem_append_right _ (List.mem_singleton_self _))
    · rcases h.gone y hy hfree with hleft | hgone
      · exact .inl (h.mem_erase.mpr ⟨heq, hleft⟩)
      · exact .inr (List.mem_append_left _ hgone)

omit [LinearOrder τ] in
/-- Where each pass is once one has taken the device. -/
theorem stage_taken (costs : WorkCosts) (s : Service τ) (x : Submission τ) (j : ℕ) :
    (occupied costs { s.device with queue := { s.device.queue with
        running := true
        passes := s.device.queue.passes ++ [⟨x.tokens, .handed⟩] } }
      s.device.queue.passes.length x.tokens).queue.stage j
      = if j = s.device.queue.passes.length then
          some (.occupying (max s.device.clock s.device.busyUntil + x.cost costs))
        else s.device.queue.stage j := by
  have hstage := PrefillQueue.stage_concat s.device.queue true s.device.queue.waiting
    ⟨x.tokens, .handed⟩
  have hnew := hstage s.device.queue.passes.length
  rw [if_pos rfl] at hnew
  have htaken := PrefillQueue.stage_setStage hnew
    (.occupying (max s.device.clock s.device.busyUntil + costs.prefillCost x.tokens)) j
  rw [hstage] at htaken
  refine htaken.trans ?_
  by_cases hj : j = s.device.queue.passes.length
  · rw [if_pos hj, if_pos hj]
    rfl
  · rw [if_neg hj, if_neg hj, if_neg hj]

/-- A device that is handed to a pass is booked for it. -/
theorem Tracked.taken (h : Tracked costs W s) {x : Submission τ} (hx : x ∈ s.left)
    (hnow : x.submitted = s.device.clock) (hcost : x.Queues costs)
    (hrun : s.device.queue.running = false) : Tracked costs W { s with
      device := occupied costs { s.device with queue := { s.device.queue with
        running := true
        passes := s.device.queue.passes ++ [⟨x.tokens, .handed⟩] } }
        s.device.queue.passes.length x.tokens
      left := s.left.erase x
      passes := s.passes ++ [x]
      log := s.log ++ [slot costs s.device x] } := by
  obtain ⟨htaken, hown⟩ := h.queue.take hrun x.tokens
  refine h.submitted hx hnow hcost (htaken.begin hown _) rfl ?_ (.inl rfl) ?_ ?_
  · have htokens := tokens_setStage (⟨true, s.device.queue.waiting,
      s.device.queue.passes ++ [⟨x.tokens, .handed⟩]⟩ : PrefillQueue τ)
      s.device.queue.passes.length
      (.occupying (max s.device.clock s.device.busyUntil + costs.prefillCost x.tokens))
    rw [List.map_append] at htokens
    exact htokens
  · intro id due hid
    rw [stage_taken] at hid
    split at hid
    · cases hid
      exact .inr (le_add_of_le_of_nonneg (le_max_left _ _) (le_of_lt hcost))
    · exact .inl hid
  · intro e he
    rcases List.mem_append.mp he with he | he
    · exact .inl he
    · rw [List.mem_singleton.mp he]
      exact .inr rfl

omit [LinearOrder τ] in
/-- The pass the device was handed costs what its submission does. -/
theorem Tracked.begin_tokens (h : Tracked costs W s) {id tokens : ℕ} {x : Submission τ}
    (hx : s.passes[id]? = some x)
    (hid : s.device.queue.passes[id]? = some ⟨tokens, .handed⟩) : tokens = x.tokens := by
  have htokens : (s.device.queue.passes.map Pass.tokens)[id]?
      = (s.passes.map Submission.tokens)[id]? := by rw [h.tokens]
  rw [List.getElem?_map, List.getElem?_map, hid, hx] at htokens
  exact Option.some.inj htokens

omit [LinearOrder τ] in
theorem Tracked.begin_cost (h : Tracked costs W s) {id tokens : ℕ} {x : Submission τ}
    (hx : s.passes[id]? = some x)
    (hid : s.device.queue.passes[id]? = some ⟨tokens, .handed⟩) :
    0 < costs.prefillCost tokens := by
  rw [h.begin_tokens hx hid]
  exact h.queues x (List.mem_of_getElem? hx)

/-- **Every event** keeps a run tracked. -/
theorem Tracked.step {e : Event τ} (h : Tracked costs W s) (hm : Moves costs s e t) :
    Tracked costs W t := by
  cases hm with
  | free hx hnow hcost => exact h.free hx hcost
  | @park x hx hnow hcost hrun =>
      refine h.submitted hx hnow hcost (h.queue.park hrun _ _ _) rfl ?_ (.inr rfl) ?_
        fun e he => .inl he
      · exact List.map_append
      · intro id due hid
        have hstage := PrefillQueue.stage_concat s.device.queue s.device.queue.running
          (s.device.queue.waiting ++ [⟨x.submitted, x.tag, s.device.queue.passes.length⟩])
          ⟨x.tokens, .waiting⟩ id
        have hboth := hstage.symm.trans hid
        split at hboth
        · cases hboth
        · exact .inl hboth
  | take hx hnow hcost hrun => exact h.taken hx hnow hcost hrun
  | @begin id tokens x hx hid =>
      -- the device is taken for as long as the pass costs, from when it is free
      have hhanded : s.device.queue.stage id = some .handed := by
        unfold PrefillQueue.stage
        rw [hid]
        rfl
      have hcost := h.begin_cost hx hid
      refine ⟨h.queue.begin (.inl hhanded) _, ?_, h.entries, h.distinct, h.member, h.queues, h.past,
        h.ahead, ?_, ?_, h.freed, h.gone⟩
      · exact (tokens_setStage _ _ _).trans h.tokens
      · intro j due hj
        have hstage := PrefillQueue.stage_setStage hhanded
          (.occupying (max s.device.clock s.device.busyUntil + costs.prefillCost tokens)) j
        have hboth := hstage.symm.trans hj
        split at hboth
        · cases hboth
          exact le_add_of_le_of_nonneg (le_max_left _ _) hcost.le
        · exact h.lasts j due hboth
      · intro e he
        rcases List.mem_append.mp he with he | he
        · exact h.logged e he
        · rw [List.mem_singleton.mp he]
          exact ⟨x, List.mem_of_getElem? hx, rfl⟩
  | @finish id due hid hdue =>
      have hown : s.device.queue.Owns id := .inr ⟨due, hid⟩
      -- nobody waits, or the least of those that wait is handed the device
      obtain ⟨htokens, hcases⟩ := leave_cases h.queue hown
      refine ⟨h.queue.leave hown, htokens.trans h.tokens, ?_, h.distinct, h.member, h.queues,
        h.past, h.ahead, ?_, h.logged, h.freed, h.gone⟩
      · intro w hw
        have hw' : w ∈ (s.device.queue.setStage id .done).handOff.waiting := hw
        rcases hcases with ⟨_, hnone, _⟩ | ⟨w', rest, hperm, _, hrest, _⟩
        · rw [hnone] at hw'
          cases hw'
        · rw [hrest] at hw'
          exact h.entries w (hperm.mem_iff.mp (List.mem_cons_of_mem _ hw'))
      · intro j due' hj
        rcases hcases with ⟨_, _, _, hstage⟩ | ⟨w, rest, _, _, _, _, _, hstage⟩
        · have hboth := (hstage j).symm.trans hj
          split at hboth
          · cases hboth
          · exact h.lasts j due' hboth
        · have hboth := (hstage j).symm.trans hj
          split at hboth
          · cases hboth
          · split at hboth
            · cases hboth
            · exact h.lasts j due' hboth
  | @tick now hnow hheld hleft =>
      refine ⟨h.queue, h.tokens, h.entries, h.distinct, h.member, h.queues,
        fun x hx => (h.past x hx).trans hnow, hleft, fun id due hid => ?_, h.logged, h.freed,
        h.gone⟩
      obtain ⟨p, hp, hstage⟩ := Option.map_eq_some_iff.mp hid
      have hholds := hheld p (List.mem_of_getElem? hp)
      rw [hstage] at hholds
      exact hholds

theorem tracked_of_run (hrun : (machine costs W).Reachable s) : Tracked costs W s := by
  refine hrun.invariant (P := Tracked costs W) ?_ fun _ _ _ h hst => h.step (moves_of_next hst)
  rintro _ rfl
  exact tracked_start costs W

/-- What an event books starts where the device was free, or later. -/
theorem Moves.booked {e : Event τ} (h : Tracked costs W s) (hm : Moves costs s e t) :
    s.device.busyUntil ≤ t.device.busyUntil ∧
      ∃ more, t.log = s.log ++ more ∧ ∀ entry ∈ more, s.device.busyUntil ≤ entry.start := by
  have hsame : ∃ more, s.log = s.log ++ more ∧ ∀ entry ∈ more,
      s.device.busyUntil ≤ entry.start := ⟨[], (List.append_nil _).symm, fun _ he => by cases he⟩
  have hmax : s.device.busyUntil ≤ max s.device.clock s.device.busyUntil := le_max_right _ _
  cases hm with
  | free hx hnow hcost => exact ⟨le_rfl, hsame⟩
  | park hx hnow hcost hrun => exact ⟨le_rfl, hsame⟩
  | @take x hx hnow hcost hrun =>
      refine ⟨le_add_of_le_of_nonneg hmax (le_of_lt hcost), [slot costs s.device x], rfl, ?_⟩
      intro entry he
      rw [List.mem_singleton.mp he]
      exact hmax
  | @begin id tokens x hx hid =>
      refine ⟨le_add_of_le_of_nonneg hmax (h.begin_cost hx hid).le, [_], rfl, ?_⟩
      intro entry he
      rw [List.mem_singleton.mp he]
      exact hmax
  | finish hid hdue => exact ⟨le_of_eq (by rfl), hsame⟩
  | tick hnow hheld hleft => exact ⟨le_rfl, hsame⟩

/-! ## §5. Every run goes on. -/

/-- Of the passes left, the least is submitted first. -/
def Orderly (s : Service τ) : Event τ → Prop
  | .submit x => ∀ y ∈ s.left, x.key ≤ y.key
  | _ => True

/-- How far the device is from its next hand-off. -/
def handing (q : PrefillQueue τ) : ℕ :=
  if q.running then if q.passes.any (fun p => decide (p.stage = .handed)) then 2 else 1 else 0

/-- What a run still has to do. -/
def remaining (s : Service τ) : ℕ :=
  4 * s.left.length + 3 * s.device.queue.waiting.length + handing s.device.queue

omit [LinearOrder τ] in
theorem handing_handed {q : PrefillQueue τ} (hrun : q.running = true) {id : ℕ}
    (h : q.stage id = some .handed) : handing q = 2 := by
  unfold handing
  rw [if_pos hrun, if_pos ((Device.handed_iff q).mpr ⟨id, h⟩)]

omit [LinearOrder τ] in
theorem handing_occupied {q : PrefillQueue τ} (hrun : q.running = true)
    (h : ∀ id, q.stage id ≠ some .handed) : handing q = 1 := by
  unfold handing
  rw [if_pos hrun, if_neg]
  intro hany
  obtain ⟨id, hid⟩ := (Device.handed_iff q).mp hany
  exact h id hid

omit [LinearOrder τ] in
theorem handing_le (q : PrefillQueue τ) : handing q ≤ 2 := by
  unfold handing
  split
  · split <;> omega
  · omega

omit [LinearOrder τ] in
/-- While one pass is in its turn, the device is handed to no other. -/
theorem not_handed_of_occupying {q : PrefillQueue τ} (hq : q.Sound) {id : ℕ} {due : ℚ}
    (hid : q.stage id = some (.occupying due)) (j : ℕ) : q.stage j ≠ some .handed := by
  intro hj
  have hsame := hq.one j id (.inl hj) (.inr ⟨due, hid⟩)
  rw [hsame, hid] at hj
  cases hj

omit [LinearOrder τ] in
theorem running_of_owns {q : PrefillQueue τ} (hq : q.Sound) {id : ℕ} (hid : q.Owns id) :
    q.running = true := by
  by_contra hidle
  exact (hq.idle (Bool.eq_false_iff.mpr hidle)).2 id hid

/-- **Every event but the clock's** leaves less to do. -/
theorem Moves.remaining {e : Event τ} (h : Tracked costs W s) (hm : Moves costs s e t)
    (he : ∀ now, e ≠ .tick now) : t.remaining < s.remaining := by
  have hnext := h.step hm
  unfold Service.remaining
  -- a submission weighs four, an entry that waits three, a handed pass two and a running one one
  cases hm with
  | @free x hx hnow hcost =>
      have hlen := List.length_erase_of_mem hx
      have hpos := List.length_pos_of_mem hx
      show 4 * (s.left.erase x).length + 3 * s.device.queue.waiting.length +
        handing s.device.queue < _
      omega
  | @park x hx hnow hcost hrun =>
      have hlen := List.length_erase_of_mem hx
      have hpos := List.length_pos_of_mem hx
      have hhanding : handing (⟨s.device.queue.running, s.device.queue.waiting ++
            [⟨x.submitted, x.tag, s.device.queue.passes.length⟩],
          s.device.queue.passes ++ [⟨x.tokens, .waiting⟩]⟩ : PrefillQueue τ)
          = handing s.device.queue := by
        simp [handing]
      show 4 * (s.left.erase x).length + 3 * (s.device.queue.waiting ++ [_]).length +
        handing _ < _
      rw [List.length_append, List.length_singleton]
      rw [hhanding]
      omega
  | @take x hx hnow hcost hrun =>
      have hlen := List.length_erase_of_mem hx
      have hpos := List.length_pos_of_mem hx
      refine lt_of_le_of_lt (Nat.add_le_add_left (handing_le _) _) ?_
      show 4 * (s.left.erase x).length + 3 * s.device.queue.waiting.length + 2 < _
      omega
  | @begin id tokens x hx hid =>
      have hhanded : s.device.queue.stage id = some .handed := by
        unfold PrefillQueue.stage
        rw [hid]
        rfl
      have hrun := running_of_owns h.queue (.inl hhanded)
      have hbefore := handing_handed hrun hhanded
      have hstage := PrefillQueue.stage_setStage hhanded
        (.occupying (max s.device.clock s.device.busyUntil + costs.prefillCost tokens)) id
      rw [if_pos rfl] at hstage
      have hafter := handing_occupied (q := (occupied costs s.device id tokens).queue) hrun
        (not_handed_of_occupying hnext.queue hstage)
      show 4 * s.left.length + 3 * s.device.queue.waiting.length +
        handing (occupied costs s.device id tokens).queue < _
      omega
  | @finish id due hid hdue =>
      have hown : s.device.queue.Owns id := .inr ⟨due, hid⟩
      have hbefore := handing_occupied (running_of_owns h.queue hown)
        (not_handed_of_occupying h.queue hid)
      -- handing on costs two and gains an entry less
      obtain ⟨_, ⟨hwait, hnone, hidle, _⟩ | ⟨w, rest, hperm, _, hrest, _⟩⟩ :=
        leave_cases h.queue hown
      · have hafter : handing (s.device.queue.setStage id .done).handOff = 0 := by
          unfold handing
          rw [hidle]
          rfl
        show 4 * s.left.length + 3 * (s.device.queue.setStage id .done).handOff.waiting.length +
          handing (s.device.queue.setStage id .done).handOff < _
        rw [hnone, hafter, hwait]
        omega
      · have hle := handing_le (s.device.queue.setStage id .done).handOff
        have hlen := hperm.length_eq
        rw [List.length_cons] at hlen
        show 4 * s.left.length + 3 * (s.device.queue.setStage id .done).handOff.waiting.length +
          handing (s.device.queue.setStage id .done).handOff < _
        rw [hrest]
        omega
  | @tick now hnow hheld hleft => exact absurd rfl (he now)

/-- Nothing is ready to run before `limit`. -/
structure SettledBy (limit : WithTop ℚ) (s : Service τ) : Prop where
  left : ∀ x ∈ s.left, limit ≤ x.submitted
  handed : ∀ id, s.device.queue.stage id ≠ some .handed
  occupying : ∀ id (due : ℚ), s.device.queue.stage id = some (.occupying due) → limit < due

omit [LinearOrder τ] in
/-- What the clock may pass. -/
theorem holds_of_stages {q : PrefillQueue τ} {now : ℚ}
    (hhanded : ∀ id, q.stage id ≠ some .handed)
    (hdue : ∀ id due, q.stage id = some (.occupying due) → now ≤ due) :
    ∀ p ∈ q.passes, p.stage.Holds now := by
  intro p hp
  obtain ⟨id, hid⟩ := List.mem_iff_getElem?.mp hp
  have hstage : q.stage id = some p.stage := by
    unfold PrefillQueue.stage
    rw [hid]
    rfl
  cases hcase : p.stage with
  | handed =>
      rw [hcase] at hstage
      exact hhanded id hstage
  | occupying due =>
      rw [hcase] at hstage
      exact hdue id due hstage
  | waiting => trivial
  | done => trivial

variable (costs W) in
/-- The clock moves to where something is ready. -/
theorem ticked {now : ℚ} (hnow : s.device.clock ≤ now)
    (hhanded : ∀ id, s.device.queue.stage id ≠ some .handed)
    (hdue : ∀ id due, s.device.queue.stage id = some (.occupying due) → now ≤ due)
    (hleft : ∀ x ∈ s.left, now ≤ x.submitted) :
    ((machine costs W).guarded Orderly).step s (.tick now)
      { s with device := { s.device with clock := now } } := by
  exact ⟨trivial, if_pos ⟨hnow, holds_of_stages hhanded hdue, hleft⟩⟩

/-- A pass that was handed the device can begin. -/
theorem Tracked.can_resume (h : Tracked costs W s) {id : ℕ}
    (hid : s.device.queue.stage id = some .handed) : ∃ t, next costs s (.resume id) = some t := by
  obtain ⟨⟨tokens, stage⟩, hp, rfl⟩ := Option.map_eq_some_iff.mp hid
  have htokens : (s.device.queue.passes.map Pass.tokens)[id]?
      = (s.passes.map Submission.tokens)[id]? := by rw [h.tokens]
  rw [List.getElem?_map, List.getElem?_map, hp] at htokens
  obtain ⟨x, hx, _⟩ := Option.map_eq_some_iff.mp htokens.symm
  refine Option.isSome_iff_exists.mp ?_
  simp [next, Device.next, hx, hp]

variable (costs) in
/-- A pass whose end has come can end. -/
theorem can_finish {id : ℕ} {due : ℚ}
    (hid : s.device.queue.stage id = some (.occupying due)) (hdue : due ≤ s.device.clock) :
    ∃ t, next costs s (.finish id) = some t := by
  obtain ⟨⟨tokens, stage⟩, hp, rfl⟩ := Option.map_eq_some_iff.mp hid
  refine Option.isSome_iff_exists.mp ?_
  simp [next, Device.next, hp, hdue]

variable (costs) in
/-- What is to be submitted now can be. -/
theorem can_submit {x : Submission τ} (hx : x ∈ s.left) (hnow : x.submitted = s.device.clock) :
    ∃ t, next costs s (.submit x) = some t := by
  have hdevice : ∃ d, Device.next costs s.device (.submit x.submitted x.tag x.tokens false)
      = some d := by
    simp only [Device.next, hnow, le_refl, if_true]
    split
    · exact ⟨_, rfl⟩
    · exact ⟨_, rfl⟩
  obtain ⟨d, hd⟩ := hdevice
  refine Option.isSome_iff_exists.mp ?_
  simp only [next, hx, hnow, true_and, if_true]
  rw [← hnow, hd]
  rfl

theorem submitted_le_of_key {x y : Submission τ} (h : x.key ≤ y.key) :
    x.submitted ≤ y.submitted := by
  rcases Prod.Lex.toLex_le_toLex.mp h with hlt | ⟨heq, _⟩
  · exact hlt.le
  · exact heq.le

/-- Of the passes left, one comes first. -/
theorem exists_least {l : List (Submission τ)} {x : Submission τ} (hx : x ∈ l) :
    ∃ y ∈ l, ∀ z ∈ l, y.key ≤ z.key := by
  obtain ⟨y, hy, hle⟩ := l.toFinset.exists_min_image Submission.key ⟨x, List.mem_toFinset.mpr hx⟩
  exact ⟨y, List.mem_toFinset.mp hy, fun z hz => hle z (List.mem_toFinset.mpr hz)⟩

/-- A step of an orderly run towards `limit`: less to do, and nothing submitted at or after
it. -/
def Advances (costs : WorkCosts) (W : Workload τ) (limit : WithTop ℚ) (s t : Service τ) : Prop :=
  ((machine costs W).guarded Orderly).Steps s t ∧ (t.device.clock : WithTop ℚ) ≤ limit ∧
    t.remaining < s.remaining ∧
    ∀ x ∈ t.passes, x ∈ s.passes ∨ (x.submitted : WithTop ℚ) < limit

/-- A pass in its turn is through at its end. -/
theorem Tracked.advance_finish (h : Tracked costs W s) {limit : WithTop ℚ} {id : ℕ} {due : ℚ}
    (hid : s.device.queue.stage id = some (.occupying due)) (hlimit : (due : WithTop ℚ) ≤ limit)
    (hleft : ∀ x ∈ s.left, due ≤ x.submitted) : ∃ t, Advances costs W limit s t := by
  have htick : ((machine costs W).guarded Orderly).step s (.tick due)
      { s with device := { s.device with clock := due } } := by
    refine ticked costs W (h.lasts id due hid) (not_handed_of_occupying h.queue hid) ?_ hleft
    intro j due' hj
    obtain rfl := h.queue.one j id (.inr ⟨due', hj⟩) (.inr ⟨due, hid⟩)
    rw [hid] at hj
    cases hj
    exact le_rfl
  obtain ⟨t, ht⟩ := can_finish costs
    (s := { s with device := { s.device with clock := due } }) hid le_rfl
  have hmoves := moves_of_next ht
  have hless := hmoves.remaining (h.step (moves_of_next htick.2)) nofun
  have hstep : ((machine costs W).guarded Orderly).step
      { s with device := { s.device with clock := due } } (.finish id) t := ⟨trivial, ht⟩
  refine ⟨t, (Machine.Steps.single htick).trans (.single hstep), ?_, hless, ?_⟩
  · cases hmoves
    exact hlimit
  · intro x hx
    cases hmoves
    exact .inl hx

/-- The first of the passes left is submitted at its instant. -/
theorem Tracked.advance_submit (h : Tracked costs W s) {limit : WithTop ℚ} {x : Submission τ}
    (hx : x ∈ s.left) (hleast : ∀ y ∈ s.left, x.key ≤ y.key)
    (hlimit : (x.submitted : WithTop ℚ) < limit)
    (hhanded : ∀ id, s.device.queue.stage id ≠ some .handed)
    (hdue : ∀ id due, s.device.queue.stage id = some (.occupying due) → x.submitted ≤ due) :
    ∃ t, Advances costs W limit s t := by
  have htick : ((machine costs W).guarded Orderly).step s (.tick x.submitted)
      { s with device := { s.device with clock := x.submitted } } :=
    ticked costs W (h.ahead x hx) hhanded hdue fun y hy => submitted_le_of_key (hleast y hy)
  obtain ⟨t, ht⟩ := can_submit costs
    (s := { s with device := { s.device with clock := x.submitted } }) hx rfl
  have hmoves := moves_of_next ht
  have hless := hmoves.remaining (h.step (moves_of_next htick.2)) nofun
  have hstep : ((machine costs W).guarded Orderly).step
      { s with device := { s.device with clock := x.submitted } } (.submit x) t := ⟨hleast, ht⟩
  refine ⟨t, (Machine.Steps.single htick).trans (.single hstep), ?_, hless, ?_⟩
  · cases hmoves with
    | free => exact hlimit.le
    | park => exact hlimit.le
    | take => exact hlimit.le
  · intro y hy
    have hold : y ∈ s.passes ∨ y = x := by
      cases hmoves with
      | free => exact .inl hy
      | park => exact (List.mem_append.mp hy).imp_right List.mem_singleton.mp
      | take => exact (List.mem_append.mp hy).imp_right List.mem_singleton.mp
    rcases hold with hold | rfl
    · exact .inl hold
    · exact .inr hlimit

/-- **A run goes on** unless nothing is ready before `limit`. -/
theorem Tracked.advance (h : Tracked costs W s) {limit : WithTop ℚ}
    (hclock : (s.device.clock : WithTop ℚ) ≤ limit) :
    SettledBy limit s ∨ ∃ t, Advances costs W limit s t := by
  by_cases hhanded : ∃ id, s.device.queue.stage id = some .handed
  · obtain ⟨id, hid⟩ := hhanded
    obtain ⟨t, ht⟩ := h.can_resume hid
    have hmoves := moves_of_next ht
    have hless := hmoves.remaining h nofun
    have hstep : ((machine costs W).guarded Orderly).step s (.resume id) t := ⟨trivial, ht⟩
    refine .inr ⟨t, .single hstep, ?_, hless, ?_⟩
    · cases hmoves
      exact hclock
    · intro x hx
      cases hmoves
      exact .inl hx
  have hhanded' : ∀ id, s.device.queue.stage id ≠ some .handed := fun id hid =>
    hhanded ⟨id, hid⟩
  by_cases hdue : ∃ id due, s.device.queue.stage id = some (.occupying due) ∧
      (due : WithTop ℚ) ≤ limit ∧ ∀ x ∈ s.left, due ≤ x.submitted
  · obtain ⟨id, due, hid, hlimit, hleft⟩ := hdue
    exact .inr (h.advance_finish hid hlimit hleft)
  by_cases hleft : ∃ x ∈ s.left, (x.submitted : WithTop ℚ) < limit
  · obtain ⟨y, hy, hlimit⟩ := hleft
    obtain ⟨x, hx, hleast⟩ := exists_least hy
    have hxlimit : (x.submitted : WithTop ℚ) < limit :=
      lt_of_le_of_lt (WithTop.coe_le_coe.mpr (submitted_le_of_key (hleast y hy))) hlimit
    refine .inr (h.advance_submit hx hleast hxlimit hhanded' fun id due hid => ?_)
    -- an end before that would have come first
    by_contra hlate
    have hbefore : due ≤ x.submitted := (not_le.mp hlate).le
    exact hdue ⟨id, due, hid, (WithTop.coe_le_coe.mpr hbefore).trans hxlimit.le,
      fun z hz => hbefore.trans (submitted_le_of_key (hleast z hz))⟩
  · have hall : ∀ x ∈ s.left, limit ≤ (x.submitted : WithTop ℚ) := fun x hx =>
      not_lt.mp fun hlt => hleft ⟨x, hx, hlt⟩
    refine .inl ⟨hall, hhanded', fun id due hid => ?_⟩
    by_contra hlate
    have hlimit : (due : WithTop ℚ) ≤ limit := not_lt.mp hlate
    exact hdue ⟨id, due, hid, hlimit, fun x hx => WithTop.coe_le_coe.mp (hlimit.trans (hall x hx))⟩

theorem Tracked.steps (h : Tracked costs W s)
    (hsteps : ((machine costs W).guarded Orderly).Steps s t) : Tracked costs W t := by
  refine hsteps.invariant (P := Tracked costs W) (fun u e v hu hst => ?_) h
  obtain ⟨_, hnext⟩ := hst
  exact hu.step (moves_of_next hnext)

/-- **Every run can go on** until nothing is ready before `limit`, and submits nothing that
comes at it or later. -/
theorem settle (limit : WithTop ℚ) : ∀ (n : ℕ) (s : Service τ), s.remaining = n →
    Tracked costs W s → (s.device.clock : WithTop ℚ) ≤ limit →
    ∃ t, ((machine costs W).guarded Orderly).Steps s t ∧
      (t.device.clock : WithTop ℚ) ≤ limit ∧ SettledBy limit t ∧
      ∀ x ∈ t.passes, x ∈ s.passes ∨ (x.submitted : WithTop ℚ) < limit := by
  intro n
  induction n using Nat.strong_induction_on with
  | _ n ih =>
      intro s hn h hclock
      rcases h.advance hclock with hsettled | ⟨t, hsteps, hclock', hless, hpasses⟩
      · exact ⟨s, .refl, hclock, hsettled, fun x hx => .inl hx⟩
      · obtain ⟨u, hsteps', hclock'', hsettled, hpasses'⟩ :=
          ih t.remaining (hn ▸ hless) t rfl (h.steps hsteps) hclock'
        refine ⟨u, hsteps.trans hsteps', hclock'', hsettled, fun x hx => ?_⟩
        rcases hpasses' x hx with hx | hlt
        · exact hpasses x hx
        · exact .inr hlt

/-- **Every run can be completed.** -/
theorem complete (h : Tracked costs W s) :
    ∃ t, ((machine costs W).guarded Orderly).Steps s t ∧ t.Complete := by
  obtain ⟨t, hsteps, _, hsettled, _⟩ := settle ⊤ s.remaining s rfl h le_top
  refine ⟨t, hsteps, List.eq_nil_iff_forall_not_mem.mpr fun x hx => ?_, ?_⟩
  · exact absurd (hsettled.left x hx) (not_le.mpr (WithTop.coe_lt_top _))
  · by_contra hrun
    obtain ⟨id, hhanded | ⟨due, hdue⟩⟩ := (h.steps hsteps).queue.busy
      (by simpa using hrun)
    · exact hsettled.handed id hhanded
    · exact absurd (hsettled.occupying id due hdue) not_top_lt

end

end Service

end Toso.KvCache
