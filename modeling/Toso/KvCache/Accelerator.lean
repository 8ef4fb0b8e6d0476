/-
  Toso.KvCache.Accelerator — one device under forward passes and decode steps.

  `SimulatedAccelerator` keeps one occupancy, `busy_until`, which a decode step
  books at once and a forward pass books when it is its turn.  The turns are the
  `_PrefillQueue`'s: a pass that finds nobody running has the device, any other
  parks on a future, and whoever is through hands the device to the waiting pass
  with the least submission instant and tag, so that `_running` never goes false
  in between.

  Main results:
    * `device_of_run` — the bookings and the owner of every state of a run.
    * `handOff_least` — who a device is handed to.
    * `turn_of_fair` — nobody waits forever for a turn.
    * `device_served` — the three together.
-/
import Toso.Lib.Progress
import Mathlib.Algebra.Order.Field.Rat
import Mathlib.Data.List.Sort
import Mathlib.Data.Prod.Lex

namespace Toso.KvCache

open Lib

/-! ## §1. The device. -/

/-- Where the coroutine of one `run` is: parked on its turn, its turn resolved, in its
pass, or through with it. -/
inductive Pass.Stage
  | waiting
  | handed
  | occupying (due : ℚ)
  | done
  deriving DecidableEq

/-- One `_PrefillQueue.run`. -/
structure Pass where
  tokens : ℕ
  stage : Pass.Stage
  deriving DecidableEq

/-- `_Queued`; `turn` numbers the pass whose future it is. -/
structure Queued (τ : Type*) where
  submitted : ℚ
  tag : τ
  turn : ℕ
  deriving DecidableEq

/-- `_PrefillQueue`, with the coroutines of the passes in the order they were
submitted. -/
structure PrefillQueue (τ : Type*) where
  running : Bool
  waiting : List (Queued τ)
  passes : List Pass
  deriving DecidableEq

/-- What work costs on the device. -/
structure WorkCosts where
  prefillCost : ℕ → ℚ
  stepCost : ℕ → ℚ

/-- An interval booked on the device, and the instant it was booked at. -/
structure Booking where
  booked : ℚ
  start : ℚ
  stop : ℚ
  deriving DecidableEq

/-- The occupancy of a `SimulatedAccelerator` and its queue, with the clock of the run and
what was booked in it. -/
structure Device (τ : Type*) where
  busyUntil : ℚ
  queue : PrefillQueue τ
  clock : ℚ
  bookings : List Booking
  deriving DecidableEq

variable {τ : Type*} [LinearOrder τ]

/-- The key of the queue's sort. -/
def Queued.key (w : Queued τ) : ℚ ×ₗ τ := toLex (w.submitted, w.tag)

/-- The order the queue serves in. -/
def Queued.Before (w w' : Queued τ) : Prop := w.key ≤ w'.key

instance : DecidableRel (Queued.Before (τ := τ)) := fun w w' =>
  inferInstanceAs (Decidable (w.key ≤ w'.key))

instance : IsTrans (Queued τ) Queued.Before := ⟨fun _ _ _ h h' => le_trans (α := ℚ ×ₗ τ) h h'⟩

instance : Std.Total (Queued.Before (τ := τ)) := ⟨fun w w' => le_total w.key w'.key⟩

/-- A pass at another stage. -/
def Pass.at (stage : Pass.Stage) (p : Pass) : Pass := { p with stage := stage }

namespace PrefillQueue

/-- Pass `id` goes on to `stage`. -/
def setStage (q : PrefillQueue τ) (id : ℕ) (stage : Pass.Stage) : PrefillQueue τ :=
  { q with passes := q.passes.modify id (Pass.at stage) }

/-- `_hand_off`: the device to the longest-waiting pass, or marked idle. -/
def handOff (q : PrefillQueue τ) : PrefillQueue τ :=
  match q.waiting.insertionSort Queued.Before with
  | [] => { q with running := false }
  | w :: rest => { q with waiting := rest }.setStage w.turn .handed

end PrefillQueue

namespace Device

/-- `claim_prefill` and `claim_step`: book after whatever already has the device. -/
def claim (s : Device τ) (now cost : ℚ) : Device τ :=
  { s with
    busyUntil := max now s.busyUntil + cost
    bookings := s.bookings ++ [⟨now, max now s.busyUntil, max now s.busyUntil + cost⟩] }

/-- Pass `id` is through, one way or the other: `finally` hands the device on. -/
def leave (s : Device τ) (id : ℕ) : Device τ :=
  { s with queue := (s.queue.setStage id .done).handOff }

/-- Pass `id` has the device: it books its pass and waits for its end, unless the booking
raises. -/
def occupy (costs : WorkCosts) (s : Device τ) (now : ℚ) (id tokens : ℕ) (raises : Bool) :
    Device τ :=
  if raises then s.leave id
  else
    let t := s.claim now (costs.prefillCost tokens)
    { t with queue := t.queue.setStage id (.occupying t.busyUntil) }

/-- What can happen next, and when. -/
inductive Event (τ : Type*)
  /-- `prefill` up to its first await; the booking, where there is one, may raise. -/
  | submit (now : ℚ) (tag : τ) (tokens : ℕ) (raises : Bool)
  /-- A pass whose turn was resolved resumes. -/
  | resume (now : ℚ) (id : ℕ) (raises : Bool)
  /-- The wait for the end of a pass returns, or raises. -/
  | finish (now : ℚ) (id : ℕ) (raises : Bool)
  /-- `claim_step`. -/
  | claimStep (now : ℚ) (batchSize : ℕ)

/-- `run` up to its first await. -/
def submit (costs : WorkCosts) (s : Device τ) (now : ℚ) (tag : τ) (tokens : ℕ) (raises : Bool) :
    Device τ :=
  let id := s.queue.passes.length
  if s.queue.running then
    { s with queue := { s.queue with
        waiting := s.queue.waiting ++ [⟨now, tag, id⟩]
        passes := s.queue.passes ++ [⟨tokens, .waiting⟩] } }
  else
    occupy costs { s with queue := { s.queue with
      running := true
      passes := s.queue.passes ++ [⟨tokens, .handed⟩] } } now id tokens raises

/-- One segment of one coroutine, at an instant no earlier than the last. -/
def next (costs : WorkCosts) (s : Device τ) : Event τ → Option (Device τ)
  | .submit now tag tokens raises =>
      if s.clock ≤ now then
        -- a pass with nothing to compute does not queue
        if 0 < costs.prefillCost tokens then
          some (submit costs { s with clock := now } now tag tokens raises)
        else some { s with clock := now }
      else none
  | .resume now id raises =>
      match s.queue.passes[id]? with
      | some ⟨tokens, .handed⟩ =>
          if s.clock ≤ now then some (occupy costs { s with clock := now } now id tokens raises)
          else none
      | _ => none
  | .finish now id raises =>
      match s.queue.passes[id]? with
      | some ⟨_, .occupying due⟩ =>
          if s.clock ≤ now ∧ (raises ∨ due ≤ now) then some (leave { s with clock := now } id)
          else none
      | _ => none
  | .claimStep now batchSize =>
      if s.clock ≤ now then some (claim { s with clock := now } now (costs.stepCost batchSize))
      else none

/-- The runs of a fresh device. -/
def machine (costs : WorkCosts) : Machine (Device τ) (Event τ) :=
  .ofPartial (fun s => ∃ now, s = ⟨0, ⟨false, [], []⟩, now, []⟩) (next costs)

end Device

/-! ## §2. Who has the device. -/

namespace PrefillQueue

omit [LinearOrder τ]

/-- Where pass `id` is. -/
def stage (q : PrefillQueue τ) (id : ℕ) : Option Pass.Stage := (q.passes[id]?).map Pass.stage

/-- Pass `id` has the device, or has been handed it. -/
def Owns (q : PrefillQueue τ) (id : ℕ) : Prop :=
  q.stage id = some .handed ∨ ∃ due, q.stage id = some (.occupying due)

theorem not_owns_of_waiting {q : PrefillQueue τ} {id : ℕ} (h : q.stage id = some .waiting) :
    ¬ q.Owns id := by
  rintro (hown | ⟨due, hown⟩)
  · rw [h] at hown
    cases hown
  · rw [h] at hown
    cases hown

theorem owns_isSome {q : PrefillQueue τ} {id : ℕ} (h : q.Owns id) :
    ∃ old, q.stage id = some old := by
  rcases h with h | ⟨due, h⟩
  · exact ⟨_, h⟩
  · exact ⟨_, h⟩

theorem stage_setStage {q : PrefillQueue τ} {id : ℕ} {old : Pass.Stage}
    (h : q.stage id = some old) (new : Pass.Stage) (j : ℕ) :
    (q.setStage id new).stage j = if j = id then some new else q.stage j := by
  unfold stage setStage at *
  rw [List.getElem?_modify]
  by_cases hj : j = id
  · subst hj
    obtain ⟨p, hp, _⟩ := Option.map_eq_some_iff.mp h
    simp [hp, Pass.at]
  · rw [if_neg hj]
    cases q.passes[j]? with
    | none => rfl
    | some p => simp [Ne.symm hj]

theorem stage_concat (q : PrefillQueue τ) (running : Bool) (waiting : List (Queued τ)) (p : Pass)
    (j : ℕ) : (⟨running, waiting, q.passes ++ [p]⟩ : PrefillQueue τ).stage j
      = if j = q.passes.length then some p.stage else q.stage j := by
  unfold stage
  show ((q.passes ++ [p])[j]?).map Pass.stage = _
  by_cases hj : j = q.passes.length
  · rw [if_pos hj, hj, List.getElem?_concat_length]
    rfl
  · rw [if_neg hj]
    by_cases hlt : j < q.passes.length
    · rw [List.getElem?_append_left hlt]
    · rw [List.getElem?_eq_none (by rw [List.length_append, List.length_singleton]; omega),
        List.getElem?_eq_none (by omega)]

theorem stage_fresh (q : PrefillQueue τ) : q.stage q.passes.length = none := by
  unfold stage
  rw [List.getElem?_eq_none le_rfl]
  rfl

/-- The queue holds one entry for each pass parked on its turn. -/
structure Parked (q : PrefillQueue τ) : Prop where
  turns : (q.waiting.map Queued.turn).Nodup
  parked : ∀ id, q.stage id = some .waiting ↔ id ∈ q.waiting.map Queued.turn

/-- Between two segments: one owner while `_running`, and nobody waits otherwise. -/
structure Sound (q : PrefillQueue τ) : Prop extends Parked q where
  one : ∀ id id', q.Owns id → q.Owns id' → id = id'
  busy : q.running = true → ∃ id, q.Owns id
  idle : q.running = false → q.waiting = [] ∧ ∀ id, ¬ q.Owns id

theorem Parked.setStage {q : PrefillQueue τ} (h : q.Parked) {id : ℕ} (hown : q.Owns id)
    {new : Pass.Stage} (hnew : new ≠ .waiting) : (q.setStage id new).Parked := by
  have hnot : id ∉ q.waiting.map Queued.turn := fun hin =>
    not_owns_of_waiting ((h.parked id).mpr hin) hown
  obtain ⟨old, hold⟩ := owns_isSome hown
  constructor
  case turns => exact h.turns
  case parked =>
    intro j
    rw [stage_setStage hold]
    show _ ↔ j ∈ q.waiting.map Queued.turn
    by_cases hj : j = id
    · subst hj
      rw [if_pos rfl]
      exact ⟨fun heq => absurd (Option.some.inj heq) hnew, fun hin => absurd hin hnot⟩
    · rw [if_neg hj]
      exact h.parked j

/-- The owner books its pass: it stays the owner. -/
theorem Sound.begin {q : PrefillQueue τ} (h : q.Sound) {id : ℕ} (hown : q.Owns id) (due : ℚ) :
    (q.setStage id (.occupying due)).Sound := by
  obtain ⟨old, hold⟩ := owns_isSome hown
  have howns : ∀ j, (q.setStage id (.occupying due)).Owns j ↔ q.Owns j := by
    intro j
    unfold Owns
    rw [stage_setStage hold]
    by_cases hj : j = id
    · subst hj
      rw [if_pos rfl]
      exact ⟨fun _ => hown, fun _ => .inr ⟨due, rfl⟩⟩
    · rw [if_neg hj]
  refine ⟨h.toParked.setStage hown (by simp), ?_, ?_, ?_⟩
  · intro j j' hj hj'
    exact h.one j j' ((howns j).mp hj) ((howns j').mp hj')
  · exact fun _ => ⟨id, (howns id).mpr hown⟩
  · intro hidle
    exact absurd hown ((h.idle hidle).2 id)

/-- The owner is through: nobody has the device until it is handed on. -/
theorem Sound.none_owns {q : PrefillQueue τ} (h : q.Sound) {id : ℕ} (hown : q.Owns id) (j : ℕ) :
    ¬ (q.setStage id .done).Owns j := by
  obtain ⟨old, hold⟩ := owns_isSome hown
  unfold Owns
  rw [stage_setStage hold]
  by_cases hj : j = id
  · rw [if_pos hj]
    simp
  · rw [if_neg hj]
    exact fun hj' => hj (h.one j id hj' hown)

/-- **A submission while some pass has the device** parks. -/
theorem Sound.park {q : PrefillQueue τ} (h : q.Sound) (hrun : q.running = true) (submitted : ℚ)
    (tag : τ) (tokens : ℕ) :
    ({ q with
      waiting := q.waiting ++ [⟨submitted, tag, q.passes.length⟩]
      passes := q.passes ++ [⟨tokens, .waiting⟩] } : PrefillQueue τ).Sound := by
  have hstage := stage_concat q q.running (q.waiting ++ [⟨submitted, tag, q.passes.length⟩])
    ⟨tokens, .waiting⟩
  have hfresh := stage_fresh q
  have howns : ∀ j, Owns (⟨q.running, q.waiting ++ [⟨submitted, tag, q.passes.length⟩],
      q.passes ++ [⟨tokens, .waiting⟩]⟩ : PrefillQueue τ) j ↔ q.Owns j := by
    intro j
    unfold Owns
    rw [hstage]
    by_cases hj : j = q.passes.length
    · rw [if_pos hj, hj, hfresh]
      simp
    · rw [if_neg hj]
  refine ⟨⟨?_, fun id => ?_⟩, ?_, ?_, ?_⟩
  · rw [List.map_append, List.nodup_append]
    refine ⟨h.turns, List.nodup_singleton _, ?_⟩
    rintro id hid _ hnew rfl
    have hlast : id = q.passes.length := by simpa using hnew
    have hpark := (h.parked id).mpr hid
    rw [hlast, hfresh] at hpark
    cases hpark
  · rw [hstage, List.map_append, List.mem_append, ← h.parked id]
    by_cases hj : id = q.passes.length
    · rw [if_pos hj]
      simp [hj]
    · rw [if_neg hj]
      simp [hj]
  · exact fun j j' hj hj' => h.one j j' ((howns j).mp hj) ((howns j').mp hj')
  · intro _
    obtain ⟨id, hid⟩ := h.busy hrun
    exact ⟨id, (howns id).mpr hid⟩
  · intro hidle
    rw [show q.running = false from hidle] at hrun
    cases hrun

/-- **A submission that finds nobody running** has the device. -/
theorem Sound.take {q : PrefillQueue τ} (h : q.Sound) (hrun : q.running = false) (tokens : ℕ) :
    ({ q with running := true, passes := q.passes ++ [⟨tokens, .handed⟩] } : PrefillQueue τ).Sound
      ∧ ({ q with running := true, passes := q.passes ++ [⟨tokens, .handed⟩] } :
        PrefillQueue τ).Owns q.passes.length := by
  obtain ⟨hwait, hnone⟩ := h.idle hrun
  have hstage := stage_concat q true q.waiting ⟨tokens, .handed⟩
  have howns : ∀ j, Owns (⟨true, q.waiting, q.passes ++ [⟨tokens, .handed⟩]⟩ : PrefillQueue τ) j
      ↔ j = q.passes.length := by
    intro j
    unfold Owns
    rw [hstage]
    by_cases hj : j = q.passes.length
    · rw [if_pos hj]
      simp [hj]
    · rw [if_neg hj]
      exact ⟨fun hown => absurd hown (hnone j), fun heq => absurd heq hj⟩
  refine ⟨⟨⟨h.turns, fun id => ?_⟩, ?_, ?_, ?_⟩, (howns _).mpr rfl⟩
  · rw [hstage]
    by_cases hj : id = q.passes.length
    · rw [if_pos hj]
      show some Pass.Stage.handed = some .waiting ↔ id ∈ q.waiting.map Queued.turn
      rw [hwait]
      simp
    · rw [if_neg hj]
      exact h.parked id
  · intro j j' hj hj'
    exact ((howns j).mp hj).trans ((howns j').mp hj').symm
  · exact fun _ => ⟨_, (howns _).mpr rfl⟩
  · intro hidle
    cases hidle

end PrefillQueue

namespace PrefillQueue

/-- What `_hand_off` does: it marks an empty queue idle, or gives the device to a waiting
pass nobody waiting is before. -/
theorem handOff_cases (q : PrefillQueue τ) :
    (q.waiting = [] ∧ q.handOff = { q with running := false }) ∨
      ∃ w rest, (w :: rest).Perm q.waiting ∧ (∀ w' ∈ q.waiting, w.Before w') ∧
        q.handOff = { q with waiting := rest }.setStage w.turn .handed := by
  have hperm := List.perm_insertionSort Queued.Before q.waiting
  have hsorted := List.pairwise_insertionSort Queued.Before q.waiting
  unfold handOff
  cases hsort : q.waiting.insertionSort Queued.Before with
  | nil =>
      rw [hsort] at hperm
      exact .inl ⟨hperm.symm.eq_nil, rfl⟩
  | cons w rest =>
      rw [hsort] at hperm hsorted
      refine .inr ⟨w, rest, hperm, fun w' hw' => ?_, rfl⟩
      rcases List.mem_cons.mp (hperm.mem_iff.mpr hw') with rfl | hrest
      · exact le_rfl (a := w'.key)
      · exact (List.pairwise_cons.mp hsorted).1 w' hrest

/-- **The device handed on**: from nobody's, it is the least waiting pass's or idle. -/
theorem Parked.handOff {q : PrefillQueue τ} (h : q.Parked) (hrun : q.running = true)
    (hnone : ∀ id, ¬ q.Owns id) : q.handOff.Sound := by
  rcases handOff_cases q with ⟨hwait, heq⟩ | ⟨w, rest, hperm, _, heq⟩
  · rw [heq]
    refine ⟨⟨h.turns, h.parked⟩, fun id _ hid _ => absurd hid (hnone id), ?_, ?_⟩
    · intro hrun'
      cases hrun'
    · exact fun _ => ⟨hwait, hnone⟩
  · have hturns : (w.turn :: rest.map Queued.turn).Nodup :=
      (hperm.map Queued.turn).nodup_iff.mpr h.turns
    have hw : q.stage w.turn = some .waiting :=
      (h.parked w.turn).mpr (List.mem_map_of_mem (hperm.mem_iff.mp List.mem_cons_self))
    have hstage := stage_setStage (q := { q with waiting := rest }) hw .handed
    have howns : ∀ j, q.handOff.Owns j ↔ j = w.turn := by
      intro j
      rw [heq]
      unfold Owns
      rw [hstage]
      by_cases hj : j = w.turn
      · rw [if_pos hj]
        simp [hj]
      · rw [if_neg hj]
        exact ⟨fun hown => absurd hown (hnone j), fun hin => absurd hin hj⟩
    refine ⟨⟨?_, fun id => ?_⟩, ?_, ?_, ?_⟩
    · rw [heq]
      exact (List.nodup_cons.mp hturns).2
    · rw [heq, hstage]
      show _ ↔ id ∈ rest.map Queued.turn
      have hmem := (hperm.map Queued.turn).mem_iff (a := id)
      rw [← h.parked id, List.map_cons, List.mem_cons] at hmem
      by_cases hj : id = w.turn
      · rw [if_pos hj, hj]
        exact ⟨fun hf => absurd hf (by simp), fun hin => absurd hin (List.nodup_cons.mp hturns).1⟩
      · rw [if_neg hj]
        exact ⟨fun hp => (hmem.mpr hp).resolve_left hj, fun hin => hmem.mp (.inr hin)⟩
    · exact fun j j' hj hj' => ((howns j).mp hj).trans ((howns j').mp hj').symm
    · exact fun _ => ⟨w.turn, (howns _).mpr rfl⟩
    · intro hidle
      rw [heq] at hidle
      rw [show q.running = false from hidle] at hrun
      cases hrun

/-- A pass that is through hands the device on. -/
theorem Sound.leave {q : PrefillQueue τ} (h : q.Sound) {id : ℕ} (hown : q.Owns id) :
    (q.setStage id .done).handOff.Sound := by
  refine (h.toParked.setStage hown (by simp)).handOff ?_ (h.none_owns hown)
  by_contra hidle
  exact (h.idle (Bool.eq_false_iff.mpr hidle)).2 id hown

end PrefillQueue

/-! ## §3. Every state of a run. -/

namespace Device

/-- A segment of the pass that has the device. -/
def Event.IsTurn : Event τ → Prop
  | .resume _ _ _ => True
  | .finish _ _ _ => True
  | _ => False

/-- The queue after an event: as it was, with one pass more parked, taken, its owner in its
pass, or handed on. -/
inductive Moves (s : Device τ) : Event τ → PrefillQueue τ → Prop
  | quiet {ev} (h : ¬ ev.IsTurn) : Moves s ev s.queue
  | park {now tag tokens raises} (h : s.queue.running = true) :
      Moves s (.submit now tag tokens raises) { s.queue with
        waiting := s.queue.waiting ++ [⟨now, tag, s.queue.passes.length⟩]
        passes := s.queue.passes ++ [⟨tokens, .waiting⟩] }
  | take {now tag tokens raises q} (h : s.queue.running = false)
      (hq : let r : PrefillQueue τ := { s.queue with
          running := true, passes := s.queue.passes ++ [⟨tokens, .handed⟩] }
        (∃ due, q = r.setStage s.queue.passes.length (.occupying due)) ∨
          q = (r.setStage s.queue.passes.length .done).handOff) :
      Moves s (.submit now tag tokens raises) q
  | begin {now id raises} (due : ℚ) (h : s.queue.stage id = some .handed) :
      Moves s (.resume now id raises) (s.queue.setStage id (.occupying due))
  | leave {ev} (id : ℕ) (hev : ev.IsTurn) (h : s.queue.Owns id) :
      Moves s ev (s.queue.setStage id .done).handOff

/-- What an event books: nothing, or an interval after all the others. -/
def Books (s t : Device τ) : Prop :=
  (t.busyUntil = s.busyUntil ∧ t.bookings = s.bookings) ∨
    ∃ cost, 0 < cost ∧ t.busyUntil = max t.clock s.busyUntil + cost ∧
      t.bookings = s.bookings ++ [⟨t.clock, max t.clock s.busyUntil, t.busyUntil⟩]

omit [LinearOrder τ] in
theorem mem_setStage {q : PrefillQueue τ} {id : ℕ} {new : Pass.Stage} {p : Pass}
    (h : p ∈ (q.setStage id new).passes) : ∃ p' ∈ q.passes, p'.tokens = p.tokens := by
  obtain ⟨j, hj⟩ := List.mem_iff_getElem?.mp h
  unfold PrefillQueue.setStage at hj
  rw [List.getElem?_modify] at hj
  obtain ⟨p', hp', heq⟩ := Option.map_eq_some_iff.mp hj
  refine ⟨p', List.mem_of_getElem? hp', ?_⟩
  rw [← heq]
  split
  · rfl
  · rfl

theorem mem_handOff {q : PrefillQueue τ} {p : Pass} (h : p ∈ q.handOff.passes) :
    ∃ p' ∈ q.passes, p'.tokens = p.tokens := by
  rcases PrefillQueue.handOff_cases q with ⟨_, heq⟩ | ⟨w, rest, _, _, heq⟩
  · rw [heq] at h
    exact ⟨p, h, rfl⟩
  · rw [heq] at h
    exact mem_setStage h

/-- Nothing queues that costs nothing. -/
def Costly (costs : WorkCosts) (q : PrefillQueue τ) : Prop :=
  ∀ p ∈ q.passes, 0 < costs.prefillCost p.tokens

omit [LinearOrder τ] in
theorem Costly.setStage {costs : WorkCosts} {q : PrefillQueue τ} (h : Costly costs q) (id : ℕ)
    (new : Pass.Stage) : Costly costs (q.setStage id new) := by
  intro p hp
  obtain ⟨p', hp', heq⟩ := mem_setStage hp
  exact heq ▸ h p' hp'

theorem Costly.leave {costs : WorkCosts} {q : PrefillQueue τ} (h : Costly costs q) (id : ℕ) :
    Costly costs (q.setStage id .done).handOff := by
  intro p hp
  obtain ⟨p', hp', heq⟩ := mem_handOff hp
  exact heq ▸ h.setStage id .done p' hp'

omit [LinearOrder τ] in
theorem Costly.concat {costs : WorkCosts} {q : PrefillQueue τ} (h : Costly costs q) {p : Pass}
    (hp : 0 < costs.prefillCost p.tokens) (running : Bool) (waiting : List (Queued τ)) :
    Costly costs ⟨running, waiting, q.passes ++ [p]⟩ := by
  intro p' hp'
  rcases List.mem_append.mp hp' with hp' | hp'
  · exact h p' hp'
  · rw [List.mem_singleton.mp hp']
    exact hp

/-- What a pass that has the device does with it. -/
theorem occupy_spec {costs : WorkCosts} {s : Device τ} {id tokens : ℕ}
    (hcost : 0 < costs.prefillCost tokens) (hcostly : Costly costs s.queue) (raises : Bool) :
    (occupy costs s s.clock id tokens raises).clock = s.clock ∧
      ((∃ due, (occupy costs s s.clock id tokens raises).queue
          = s.queue.setStage id (.occupying due)) ∨
        (occupy costs s s.clock id tokens raises).queue = (s.queue.setStage id .done).handOff) ∧
      Books s (occupy costs s s.clock id tokens raises) ∧
      Costly costs (occupy costs s s.clock id tokens raises).queue := by
  unfold occupy
  cases raises with
  | true => exact ⟨rfl, .inr rfl, .inl ⟨rfl, rfl⟩, hcostly.leave id⟩
  | false => exact ⟨rfl, .inl ⟨_, rfl⟩, .inr ⟨_, hcost, rfl, rfl⟩, hcostly.setStage id _⟩

/-- **Everything one event can do.** -/
theorem next_spec {costs : WorkCosts} (hstep : ∀ n, 0 < costs.stepCost n) {s t : Device τ}
    {ev : Event τ} (hcostly : Costly costs s.queue) (h : next costs s ev = some t) :
    s.clock ≤ t.clock ∧ Moves s ev t.queue ∧ Books s t ∧ Costly costs t.queue := by
  cases ev with
  | submit now tag tokens raises =>
      obtain ⟨hnow, h⟩ := Option.ite_none_right_eq_some.mp h
      -- a pass that costs nothing is answered without the device
      by_cases hpos : 0 < costs.prefillCost tokens
      · rw [if_pos hpos] at h
        cases h
        unfold submit
        -- in use: it parks
        by_cases hrun : s.queue.running = true
        · rw [if_pos hrun]
          exact ⟨hnow, .park hrun, .inl ⟨rfl, rfl⟩, hcostly.concat hpos _ _⟩
        · rw [if_neg hrun]
          obtain ⟨hclock, hqueue, hbooks, hcostly'⟩ := @occupy_spec _ _ costs
            { s with
              clock := now
              queue := { s.queue with
                running := true
                passes := s.queue.passes ++ [⟨tokens, .handed⟩] } }
            s.queue.passes.length _ hpos (hcostly.concat hpos _ _) raises
          exact ⟨hnow.trans hclock.ge, .take (Bool.eq_false_iff.mpr hrun) hqueue, hbooks, hcostly'⟩
      · rw [if_neg hpos] at h
        cases h
        exact ⟨hnow, .quiet (fun hf => hf), .inl ⟨rfl, rfl⟩, hcostly⟩
  | resume now id raises =>
      unfold next at h
      cases hp : s.queue.passes[id]? with
      | none => simp [hp] at h
      | some p =>
          obtain ⟨tokens, stage⟩ := p
          cases stage with
          | handed =>
              simp only [hp] at h
              obtain ⟨hnow, h⟩ := Option.ite_none_right_eq_some.mp h
              cases h
              have hhanded : s.queue.stage id = some .handed := by
                unfold PrefillQueue.stage
                rw [hp]
                rfl
              obtain ⟨hclock, hqueue, hbooks, hcostly'⟩ := @occupy_spec _ _ costs
                { s with clock := now } id _ (hcostly _ (List.mem_of_getElem? hp)) hcostly raises
              refine ⟨hnow.trans hclock.ge, ?_, hbooks, hcostly'⟩
              -- it begins, or it raises and leaves
              rcases hqueue with ⟨due, hqueue⟩ | hqueue
              · rw [hqueue]
                exact .begin due hhanded
              · rw [hqueue]
                exact .leave id trivial (.inl hhanded)
          | waiting => simp [hp] at h
          | occupying due => simp [hp] at h
          | done => simp [hp] at h
  | finish now id raises =>
      unfold next at h
      cases hp : s.queue.passes[id]? with
      | none => simp [hp] at h
      | some p =>
          obtain ⟨tokens, stage⟩ := p
          cases stage with
          | occupying due =>
              simp only [hp] at h
              obtain ⟨⟨hnow, _⟩, h⟩ := Option.ite_none_right_eq_some.mp h
              cases h
              refine ⟨hnow, .leave id trivial (.inr ⟨due, ?_⟩), .inl ⟨rfl, rfl⟩, hcostly.leave id⟩
              unfold PrefillQueue.stage
              rw [hp]
              rfl
          | waiting => simp [hp] at h
          | handed => simp [hp] at h
          | done => simp [hp] at h
  | claimStep now batchSize =>
      obtain ⟨hnow, h⟩ := Option.ite_none_right_eq_some.mp h
      cases h
      exact ⟨hnow, .quiet (fun hf => hf), .inr ⟨_, hstep batchSize, rfl, rfl⟩, hcostly⟩

/-- What holds of every state of a run. -/
structure Sound (costs : WorkCosts) (s : Device τ) : Prop where
  queue : s.queue.Sound
  costly : Costly costs s.queue
  /-- The occupancy lasts as long as anything booked on it. -/
  horizon : ∀ b ∈ s.bookings, b.stop ≤ s.busyUntil
  apart : s.bookings.Pairwise fun b b' => b.stop ≤ b'.start
  timely : ∀ b ∈ s.bookings, b.booked ≤ b.start ∧ b.start < b.stop

theorem Moves.sound {s : Device τ} {ev : Event τ} {q : PrefillQueue τ} (h : Moves s ev q)
    (hs : s.queue.Sound) : q.Sound := by
  cases h with
  | quiet hev => exact hs
  | park hrun => exact hs.park hrun _ _ _
  | take hrun hq =>
      obtain ⟨htaken, hown⟩ := hs.take hrun _
      rcases hq with ⟨due, rfl⟩ | rfl
      · exact htaken.begin hown due
      · exact htaken.leave hown
  | begin due hhanded => exact hs.begin (.inl hhanded) due
  | leave id hev hown => exact hs.leave hown

theorem sound_of_run {costs : WorkCosts} (hstep : ∀ n, 0 < costs.stepCost n) {s : Device τ}
    (h : (machine costs).Reachable s) : s.Sound costs := by
  refine h.invariant (P := Sound costs) ?_ fun s ev t hs hst => ?_
  · rintro _ ⟨now, rfl⟩
    have hstage : ∀ id, (⟨false, [], []⟩ : PrefillQueue τ).stage id = none := fun id => rfl
    have hnone : ∀ id, ¬ (⟨false, [], []⟩ : PrefillQueue τ).Owns id := by
      intro id hown
      obtain ⟨old, hold⟩ := PrefillQueue.owns_isSome hown
      rw [hstage] at hold
      cases hold
    refine ⟨⟨⟨List.nodup_nil, fun id => by rw [hstage]; simp⟩, ?_, ?_, fun _ => ⟨rfl, hnone⟩⟩,
      fun p hp => absurd hp (by simp), fun b hb => absurd hb (by simp), List.Pairwise.nil,
      fun b hb => absurd hb (by simp)⟩
    · exact fun id _ hid _ => absurd hid (hnone id)
    · exact fun hrun => by cases hrun
  · obtain ⟨_, hmoves, hbooks, hcostly⟩ := next_spec hstep hs.costly hst
    rcases hbooks with ⟨huntil, hsame⟩ | ⟨cost, hcost, huntil, hnew⟩
    · exact ⟨hmoves.sound hs.queue, hcostly, by rw [huntil, hsame]; exact hs.horizon,
        by rw [hsame]; exact hs.apart, by rw [hsame]; exact hs.timely⟩
    · -- the new interval begins where the occupancy ended, or later
      have hlonger : max t.clock s.busyUntil < t.busyUntil := by
        rw [huntil]
        exact lt_add_of_pos_right _ hcost
      have hmax : s.busyUntil ≤ max t.clock s.busyUntil := le_max_right _ _
      constructor
      case queue => exact hmoves.sound hs.queue
      case costly => exact hcostly
      case horizon =>
        intro b hb
        rw [hnew, List.mem_append, List.mem_singleton] at hb
        rcases hb with hb | rfl
        · exact (hs.horizon b hb).trans (hmax.trans hlonger.le)
        · exact le_rfl
      case apart =>
        rw [hnew, List.pairwise_append]
        refine ⟨hs.apart, List.pairwise_singleton _ _, fun b hb b' hb' => ?_⟩
        rw [List.mem_singleton.mp hb']
        exact (hs.horizon b hb).trans hmax
      case timely =>
        intro b hb
        rw [hnew, List.mem_append, List.mem_singleton] at hb
        rcases hb with hb | rfl
        · exact hs.timely b hb
        · exact ⟨le_max_left _ _, hlonger⟩

/-! ## §4. Turns. -/

/-- **The device, in any state of a run.** -/
structure Exclusive (s : Device τ) : Prop where
  apart : s.bookings.Pairwise fun b b' => b.stop ≤ b'.start
  timely : ∀ b ∈ s.bookings, b.booked ≤ b.start ∧ b.start < b.stop
  one : ∀ id id', s.queue.Owns id → s.queue.Owns id' → id = id'
  owned : s.queue.waiting ≠ [] → ∃ id, s.queue.Owns id

theorem device_of_run {costs : WorkCosts} (hstep : ∀ n, 0 < costs.stepCost n) {s : Device τ}
    (h : (machine costs).Reachable s) : s.Exclusive := by
  have hs := sound_of_run hstep h
  refine ⟨hs.apart, hs.timely, hs.queue.one, fun hwait => hs.queue.busy ?_⟩
  by_contra hidle
  exact hwait (hs.queue.idle (Bool.eq_false_iff.mpr hidle)).1

/-- What an event does to whoever waits: the entries stay, but for one that is handed the
device, and nobody was before it. -/
theorem Moves.waiting {s : Device τ} {ev : Event τ} {q : PrefillQueue τ} (h : Moves s ev q)
    (hs : s.queue.Sound) :
    ((∀ w ∈ s.queue.waiting, w ∈ q.waiting) ∧
        ∀ id, s.queue.stage id = some .waiting → q.stage id = some .waiting) ∨
      ∃ w rest, (w :: rest).Perm s.queue.waiting ∧ q.waiting = rest ∧ ev.IsTurn ∧
        (∀ w' ∈ s.queue.waiting, w.Before w') ∧ q.stage w.turn = some .handed ∧
        ∀ id, id ≠ w.turn → s.queue.stage id = some .waiting → q.stage id = some .waiting := by
  cases h with
  | quiet hev => exact .inl ⟨fun _ hw => hw, fun _ hid => hid⟩
  | park hrun =>
      refine .inl ⟨fun w hw => List.mem_append_left _ hw, fun id hid => ?_⟩
      rw [show ({ s.queue with waiting := _, passes := _ } : PrefillQueue τ).stage id = _ from
        PrefillQueue.stage_concat s.queue s.queue.running _ _ id]
      split
      · rfl
      · exact hid
  | take hrun hq =>
      obtain ⟨hwait, _⟩ := hs.idle hrun
      refine .inl ⟨fun w hw => absurd hw (by rw [hwait]; simp), fun id hid => ?_⟩
      have hin := (hs.parked id).mp hid
      rw [hwait] at hin
      cases hin
  | begin due hhanded =>
      refine .inl ⟨fun _ hw => hw, fun id hid => ?_⟩
      rw [PrefillQueue.stage_setStage hhanded]
      split
      · rename_i heq
        rw [heq, hhanded] at hid
        cases hid
      · exact hid
  | leave id hev hown =>
      obtain ⟨old, hold⟩ := PrefillQueue.owns_isSome hown
      -- whoever leaves holds the device, so it is none of those that wait
      have hstay : ∀ j, s.queue.stage j = some .waiting →
          (s.queue.setStage id .done).stage j = some .waiting := by
        intro j hj
        rw [PrefillQueue.stage_setStage hold]
        split
        · rename_i heq
          exact absurd (heq ▸ hown) (PrefillQueue.not_owns_of_waiting hj)
        · exact hj
      rcases PrefillQueue.handOff_cases (s.queue.setStage id .done) with
        ⟨_, heq⟩ | ⟨w, rest, hperm, hleast, heq⟩
      · rw [heq]
        exact .inl ⟨fun _ hw => hw, hstay⟩
      · have hw : (s.queue.setStage id .done).stage w.turn = some .waiting :=
          hstay _ ((hs.parked w.turn).mpr
            (List.mem_map_of_mem (hperm.mem_iff.mp List.mem_cons_self)))
        have hstage := PrefillQueue.stage_setStage
          (q := { s.queue.setStage id .done with waiting := rest }) hw .handed
        refine .inr ⟨w, rest, hperm, by rw [heq]; rfl, hev, hleast, ?_, fun j hj hjw => ?_⟩
        · rw [heq, hstage, if_pos rfl]
        · rw [heq, hstage, if_neg hj]
          exact hstay j hjw

/-- **Every hand-off** goes to a waiting pass nobody waiting is before. -/
theorem handOff_least {costs : WorkCosts} (hstep : ∀ n, 0 < costs.stepCost n) {s t : Device τ}
    {ev : Event τ} (h : (machine costs).Reachable s) (hs : next costs s ev = some t) {id : ℕ}
    (hwait : s.queue.stage id = some .waiting) (hhanded : t.queue.stage id = some .handed) :
    ∃ w ∈ s.queue.waiting, w.turn = id ∧ ∀ w' ∈ s.queue.waiting, w.Before w' := by
  have hsound := sound_of_run hstep h
  obtain ⟨_, hmoves, _⟩ := next_spec hstep hsound.costly hs
  rcases hmoves.waiting hsound.queue with ⟨_, hstay⟩ | ⟨w, rest, hperm, _, _, hleast, _, hother⟩
  · rw [hstay id hwait] at hhanded
    cases hhanded
  · refine ⟨w, hperm.mem_iff.mp List.mem_cons_self, ?_, hleast⟩
    by_contra hne
    rw [hother id (Ne.symm hne) hwait] at hhanded
    cases hhanded

/-- How far `w` is from its turn: the entries it does not precede, then whether the device
is still on its way to a pass. -/
def turnLeft (w : Queued τ) (q : PrefillQueue τ) : ℕ :=
  2 * q.waiting.countP (fun x => decide (x.Before w)) +
    if q.passes.any (fun p => decide (p.stage = .handed)) then 1 else 0

omit [LinearOrder τ] in
theorem handed_iff (q : PrefillQueue τ) :
    q.passes.any (fun p => decide (p.stage = .handed)) = true ↔
      ∃ id, q.stage id = some .handed := by
  rw [List.any_eq_true]
  constructor
  · rintro ⟨p, hp, hstage⟩
    obtain ⟨id, hid⟩ := List.mem_iff_getElem?.mp hp
    refine ⟨id, ?_⟩
    unfold PrefillQueue.stage
    rw [hid, Option.map_some, of_decide_eq_true hstage]
  · rintro ⟨id, hid⟩
    obtain ⟨p, hp, hstage⟩ := Option.map_eq_some_iff.mp hid
    exact ⟨p, List.mem_of_getElem? hp, decide_eq_true hstage⟩

/-- **Every event** brings a waiting pass nearer to its turn, or is nobody's turn. -/
theorem Moves.turnLeft {s : Device τ} {ev : Event τ} {q : PrefillQueue τ} (h : Moves s ev q)
    (hs : s.queue.Sound) {w : Queued τ} (hw : w ∈ s.queue.waiting)
    (hlate : ∀ now tag tokens raises, ev = .submit now tag tokens raises →
      w.key < toLex (now, tag)) :
    Device.turnLeft w q < Device.turnLeft w s.queue ∨
      (Device.turnLeft w q = Device.turnLeft w s.queue ∧ ¬ ev.IsTurn) := by
  have hq := h.sound hs
  cases h with
  | quiet hev => exact .inr ⟨rfl, hev⟩
  | @park now tag tokens raises hrun =>
      refine .inr ⟨?_, fun hf => hf⟩
      have hbehind : ¬ (⟨now, tag, s.queue.passes.length⟩ : Queued τ).Before w :=
        not_le.mpr (hlate now tag tokens raises rfl)
      unfold Device.turnLeft
      show 2 * (s.queue.waiting ++ [_]).countP _ +
        (if (s.queue.passes ++ [(⟨tokens, .waiting⟩ : Pass)]).any _ then 1 else 0) = _
      rw [List.countP_append, List.countP_singleton, List.any_append]
      simp [hbehind]
  | take hrun hq' =>
      rw [(hs.idle hrun).1] at hw
      cases hw
  | @begin now id raises due hhanded =>
      refine .inl ?_
      have hold := (handed_iff s.queue).mpr ⟨id, hhanded⟩
      -- the owner is in its pass, and there is no other
      have hnew : (s.queue.setStage id (.occupying due)).passes.any
          (fun p => decide (p.stage = .handed)) = false := by
        rw [Bool.eq_false_iff]
        intro hany
        obtain ⟨j, hj⟩ := (handed_iff _).mp hany
        have hown := PrefillQueue.stage_setStage hhanded (.occupying due)
        have heq := hq.one _ _ (.inl hj) (.inr ⟨due, by rw [hown, if_pos rfl]⟩)
        rw [hown, if_pos heq] at hj
        cases hj
      unfold Device.turnLeft
      rw [hold, hnew]
      exact Nat.lt_succ_self _
  | leave id hev hown =>
      refine .inl ?_
      rcases PrefillQueue.handOff_cases (s.queue.setStage id .done) with
        ⟨hwait, _⟩ | ⟨x, rest, hperm, hleast, heq⟩
      · rw [show s.queue.waiting = [] from hwait] at hw
        cases hw
      · have hperm' : (x :: rest).Perm s.queue.waiting := hperm
        have hcount := hperm'.countP_eq fun y => decide (y.Before w)
        rw [List.countP_cons, if_pos (decide_eq_true (hleast w hw))] at hcount
        unfold Device.turnLeft
        rw [heq, ← hcount]
        show 2 * rest.countP _ + (if _ then 1 else 0) < _
        split <;> omega

/-- Nobody goes on where nobody has the device. -/
theorem Moves.not_isTurn {s : Device τ} {ev : Event τ} {q : PrefillQueue τ} (h : Moves s ev q)
    (hnobody : ∀ id, ¬ s.queue.Owns id) : ¬ ev.IsTurn := by
  cases h with
  | quiet hev => exact hev
  | park _ => exact fun hf => hf
  | take _ _ => exact fun hf => hf
  | begin due hhanded => exact absurd (.inl hhanded) (hnobody _)
  | leave id _ hown => exact absurd hown (hnobody id)

/-- Somebody's turn is on as long as anybody waits. -/
theorem turn_enabled (costs : WorkCosts) {s : Device τ} (hs : s.queue.Sound) {w : Queued τ}
    (hw : w ∈ s.queue.waiting) : (machine costs).Enabled Event.IsTurn s := by
  have hrun : s.queue.running = true := by
    by_contra hidle
    rw [(hs.idle (Bool.eq_false_iff.mpr hidle)).1] at hw
    cases hw
  obtain ⟨id, hown⟩ := hs.busy hrun
  have hsome : ∃ ev : Event τ, ev.IsTurn ∧ (next costs s ev).isSome := by
    rcases hown with hhanded | ⟨due, hdue⟩
    · obtain ⟨⟨tokens, stage⟩, hp, rfl⟩ := Option.map_eq_some_iff.mp hhanded
      refine ⟨.resume s.clock id false, trivial, ?_⟩
      simp [next, hp]
    · obtain ⟨⟨tokens, stage⟩, hp, rfl⟩ := Option.map_eq_some_iff.mp hdue
      refine ⟨.finish (max s.clock due) id false, trivial, ?_⟩
      simp [next, hp]
  obtain ⟨ev, hev, hnext⟩ := hsome
  obtain ⟨t, ht⟩ := Option.isSome_iff_exists.mp hnext
  exact ⟨ev, t, hev, ht⟩

/-- From instant `k` of a run on, nobody is submitted ahead of `w`. -/
def LateFrom {costs : WorkCosts} (R : (machine (τ := τ) costs).Run) (w : Queued τ) (k : ℕ) : Prop :=
  ∀ j, k ≤ j → ∀ now tag tokens raises, R.event j = some (.submit now tag tokens raises) →
    w.key < toLex (now, tag)

/-- So it is once the clock has moved on. -/
theorem lateFrom_of_clock {costs : WorkCosts} (hstep : ∀ n, 0 < costs.stepCost n)
    (R : (machine (τ := τ) costs).Run) {w : Queued τ} {k : ℕ}
    (hk : w.submitted < (R.state k).clock) : LateFrom R w k := by
  intro j hj now tag tokens raises hev
  have hclock : w.submitted < (R.state j).clock := by
    refine R.stays (P := fun s => w.submitted < s.clock) (fun i ev hev hlt => ?_) hk hj
    exact hlt.trans_le (next_spec hstep (sound_of_run hstep (R.reachable i)).costly
      (R.step i ev hev)).1
  obtain ⟨hnow, _⟩ := Option.ite_none_right_eq_some.mp (R.step j _ hev)
  exact Prod.Lex.toLex_lt_toLex.mpr (.inl (hclock.trans_le hnow))

/-- **Nobody waits forever for a turn**, while whoever has the device goes on and those
ahead are not without end. -/
theorem turn_of_fair {costs : WorkCosts} (hstep : ∀ n, 0 < costs.stepCost n)
    (R : (machine (τ := τ) costs).Run) (hfair : R.Fair Event.IsTurn) {n : ℕ} {w : Queued τ}
    (hw : w ∈ (R.state n).queue.waiting) {k : ℕ} (hlate : LateFrom R w k) :
    ∃ m, n ≤ m ∧ (R.state m).queue.stage w.turn = some .handed := by
  have hsound : ∀ i, (R.state i).Sound costs := fun i => sound_of_run hstep (R.reachable i)
  have hspec : ∀ i ev, R.event i = some ev → Moves (R.state i) ev (R.state (i + 1)).queue :=
    fun i ev hev => (next_spec hstep (hsound i).costly (R.step i ev hev)).2.1
  obtain ⟨m, hm, hleft⟩ := R.eventually_of_rank (κ := Unit)
    (W := fun s => w ∈ s.queue.waiting) (fun s => turnLeft w s.queue) (fun _ => ())
    (A := fun _ => Event.IsTurn) (fun _ => hfair) (max n k)
    (fun i _ hi => turn_enabled costs (hsound i).queue hi)
    (fun i ev hi hev hwi _ => by
      rcases (hspec i ev hev).turnLeft (hsound i).queue hwi
        (fun now tag tokens raises heq => hlate i ((le_max_right n k).trans hi) now tag tokens
          raises (heq ▸ hev)) with hlt | ⟨hsame, hnot⟩
      · exact .inl hlt
      · exact .inr ⟨hsame, rfl, hnot⟩)
  obtain ⟨i, ev, hi, hev, hin, hout⟩ := R.last_of_eventually
    (P := fun s => w ∈ s.queue.waiting) hw ⟨m, (le_max_left n k).trans hm, hleft⟩
  -- it left the queue in one event, and that was its hand-off
  rcases (hspec i ev hev).waiting (hsound i).queue with
    ⟨hstay, _⟩ | ⟨x, rest, hperm, hrest, _, _, hhanded, _⟩
  · exact absurd (hstay w hin) hout
  · rcases List.mem_cons.mp (hperm.mem_iff.mpr hin) with rfl | hmem
    · exact ⟨i + 1, by omega, hhanded⟩
    · exact absurd (hrest ▸ hmem) hout

/-- **One device, under every interleaving** of submissions, passes that end or raise, and
steps: what is booked on it is apart and not in the past, one pass has it at a time and some
pass does while any waits, it is handed to the least submission and tag waiting, and
every pass gets its turn. -/
theorem device_served (costs : WorkCosts) (hstep : ∀ n, 0 < costs.stepCost n) :
    (∀ s : Device τ, (machine costs).Reachable s → s.Exclusive) ∧
    (∀ (s t : Device τ) (ev : Event τ), (machine costs).Reachable s → next costs s ev = some t →
      ∀ id, s.queue.stage id = some .waiting → t.queue.stage id = some .handed →
        ∃ w ∈ s.queue.waiting, w.turn = id ∧ ∀ w' ∈ s.queue.waiting, w.Before w') ∧
    ∀ R : (machine (τ := τ) costs).Run, R.Fair Event.IsTurn →
      ∀ n, ∀ w ∈ (R.state n).queue.waiting, (∃ k, LateFrom R w k) →
        ∃ m, n ≤ m ∧ (R.state m).queue.stage w.turn = some .handed :=
  ⟨fun _ h => device_of_run hstep h, fun _ _ _ h hs _ => handOff_least hstep h hs,
    fun R hfair _ _ hw ⟨_, hlate⟩ => turn_of_fair hstep R hfair hw hlate⟩

/-! ### Two passes and a step -/

/-- Every token takes one second, and so does a step. -/
def secondEach : WorkCosts := ⟨fun tokens => tokens, fun _ => 1⟩

/-- The second pass waits for the first, which raises half way through, and for the step
booked meanwhile. -/
def pairEvents : List (Event ℕ) :=
  [.submit 0 1 2 false, .submit 0 0 1 false, .claimStep 1 1, .finish 1 0 true,
    .resume 1 1 false, .finish 4 1 false]

/-- What that run leaves. -/
def pairDone : Device ℕ :=
  ⟨4, ⟨false, [], [⟨2, .done⟩, ⟨1, .done⟩]⟩, 4, [⟨0, 0, 2⟩, ⟨1, 2, 3⟩, ⟨1, 3, 4⟩]⟩

theorem pairEvents_replay :
    Machine.replay (next secondEach) ⟨0, ⟨false, [], []⟩, 0, []⟩ pairEvents = some pairDone := by
  decide +kernel

def pairRun : (machine (τ := ℕ) secondEach).Run :=
  .ofReplay (fun _ _ _ hst => hst) ⟨0, rfl⟩ pairEvents pairEvents_replay

theorem pairRun_served : pairDone.Exclusive ∧
    ∃ m, 2 ≤ m ∧ (pairRun.state m).queue.stage 1 = some .handed := by
  obtain ⟨hexclusive, _, hturn⟩ := device_served (τ := ℕ) secondEach fun _ => one_pos
  have hend : pairRun.state 6 = pairDone :=
    Machine.Run.ofReplay_state _ _ _ pairEvents_replay le_rfl
  refine ⟨hexclusive _ (hend ▸ pairRun.reachable 6), hturn pairRun ?_ 2 ⟨0, 0, 1⟩ ?_ ⟨3, ?_⟩⟩
  · refine Machine.Run.ofReplay_fair _ _ _ pairEvents_replay ?_
    rintro ⟨ev, t, hA, hst⟩
    have hnobody : ∀ id, ¬ pairDone.queue.Owns id := by
      rintro (_ | _ | id)
      · simp [PrefillQueue.Owns, PrefillQueue.stage, pairDone]
      · simp [PrefillQueue.Owns, PrefillQueue.stage, pairDone]
      · simp [PrefillQueue.Owns, PrefillQueue.stage, pairDone]
    have hreach : (machine secondEach).Reachable pairDone := hend ▸ pairRun.reachable 6
    have hcostly : Costly secondEach pairDone.queue :=
      (sound_of_run (fun _ => one_pos) hreach).costly
    exact (next_spec (fun _ => one_pos) hcostly hst).2.1.not_isTurn hnobody hA
  · decide +kernel
  · exact lateFrom_of_clock (fun _ => one_pos) pairRun (by decide +kernel)

end Device

end Toso.KvCache
