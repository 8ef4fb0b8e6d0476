/-
  Toso.SimCommon.Resources — the virtual clock, and the channels transfers share.

  A charge suspends its task once: on a timer of its own (`sleep`), or on a
  transfer that a channel of the run's registry completes.  A `serialize`
  channel serves one transfer at a time; a `progressive` one lets every transfer
  warm up for its latency and then shares its bandwidth equally.  The clock
  moves when nothing is ready, and never past a pending timer.

  Any number of tasks run here.  The theorems are about one of them, in the runs
  in which no other transfer is in flight on a channel together with one of its
  own.

  Main results:
    * `Alone.step`, `alone_of_run` — one step, and a whole run: the task is on
      time in every state it can be in.
    * `costs_total` — it takes exactly the sum of its solo costs.
-/
import Toso.Lib.Dict
import Toso.Lib.Machine
import Mathlib.Data.Rat.Defs
import Mathlib.Algebra.Order.Ring.Rat
import Mathlib.Algebra.Order.Field.Basic
import Mathlib.Tactic.Linarith

namespace Toso.SimCommon

open Lib

/-! ## §1. Transfers, and the two kinds of channel. -/

/-- `CONTENTION_MODES`. -/
inductive Contention
  | none
  | serialize
  | progressive
  deriving DecidableEq

/-- `_Transfer`.  Its future is known by the task that awaits it. -/
structure Transfer where
  seq : ℕ
  /-- Bytes still to move. -/
  remaining : ℚ
  latency : ℚ
  /-- Its solo bandwidth. -/
  capacity : ℚ
  future : ℕ
  deriving DecidableEq

/-- `_SerializeChannel`: busy exactly while it serves a transfer, whose timer stands
beside it. -/
structure SerializeChannel where
  queue : List Transfer
  serving : Option (Transfer × ℚ)
  deriving DecidableEq

namespace SerializeChannel

/-- `_start_next`. -/
def startNext (c : SerializeChannel) (now : ℚ) : SerializeChannel :=
  match c.queue with
  | [] => { c with serving := .none }
  | t :: rest => ⟨rest, some (t, now + (t.latency + t.remaining / t.capacity))⟩

/-- `register`. -/
def register (c : SerializeChannel) (t : Transfer) (now : ℚ) : SerializeChannel :=
  let c := { c with queue := c.queue ++ [t] }
  match c.serving with
  | some _ => c
  | .none => c.startNext now

end SerializeChannel

/-- `_ProgressiveChannel`: the transfers that warm up, and those in the byte phase, by
`seq`, each with its timer. -/
structure ProgressiveChannel where
  capacity : ℚ
  warming : Dict ℕ (Transfer × ℚ)
  active : Dict ℕ (Transfer × ℚ)
  rate : ℚ
  lastUpdate : ℚ

namespace ProgressiveChannel

/-- `register`: no re-rate happens until the latency has elapsed. -/
def register (c : ProgressiveChannel) (t : Transfer) (now : ℚ) : ProgressiveChannel :=
  { c with warming := c.warming.set t.seq (t, now + t.latency) }

/-- `_advance`: debit every active transfer for the bytes moved. -/
def advance (c : ProgressiveChannel) (now : ℚ) : ProgressiveChannel :=
  let moved := (now - c.lastUpdate) * c.rate
  { c with
    active :=
      if 0 < now - c.lastUpdate then
        c.active.mapValues fun e => ({ e.1 with remaining := max 0 (e.1.remaining - moved) }, e.2)
      else c.active
    lastUpdate := now }

/-- `_recompute`: the equal share, and every completion timer again. -/
def recompute (c : ProgressiveChannel) (now : ℚ) : ProgressiveChannel :=
  let k := c.active.entries.length
  let rate := if k = 0 then 0 else c.capacity / k
  { c with
    rate := rate
    active := c.active.mapValues fun e => (e.1, now + e.1.remaining / rate) }

/-- `_enter`: the warm-up of `t`, whose timer stands at `seq`, is over. -/
def enter (c : ProgressiveChannel) (seq : ℕ) (t : Transfer) (now : ℚ) : ProgressiveChannel :=
  let c := { c with warming := c.warming.erase seq }.advance now
  -- its completion timer is set by the re-rate
  { c with active := c.active.set t.seq (t, now) }.recompute now

/-- `_complete`: `t`'s bytes are exhausted. -/
def complete (c : ProgressiveChannel) (seq : ℕ) (now : ℚ) : ProgressiveChannel :=
  let c := c.advance now
  { c with active := c.active.erase seq }.recompute now

end ProgressiveChannel

/-- A channel of the registry. -/
inductive Channel
  | serialize (c : SerializeChannel)
  | progressive (c : ProgressiveChannel)

namespace Channel

/-- `register`. -/
def register : Channel → Transfer → ℚ → Channel
  | .serialize c, t, now => .serialize (c.register t now)
  | .progressive c, t, now => .progressive (c.register t now)

/-- The channel of a key its registry sees first: a `progressive` one takes its
capacity from the transfer that made it. -/
def create (mode : Contention) (capacity now : ℚ) : Channel :=
  match mode with
  | .serialize => .serialize ⟨[], .none⟩
  | _ => .progressive ⟨capacity, Dict.empty, Dict.empty, 0, now⟩

/-- Its pending timers. -/
def timers : Channel → List ℚ
  | .serialize c => (c.serving.map Prod.snd).toList
  | .progressive c => c.warming.values.map Prod.snd ++ c.active.values.map Prod.snd

/-- The tasks whose transfers are in flight on it. -/
def futures : Channel → List ℕ
  | .serialize c => c.queue.map Transfer.future ++ (c.serving.map fun e => e.1.future).toList
  | .progressive c =>
      c.warming.values.map (fun e => e.1.future) ++ c.active.values.map fun e => e.1.future

/-- It is fit for a transfer of this capacity. -/
def Fits (capacity : ℚ) : Channel → Prop
  | .serialize _ => True
  | .progressive c => c.capacity = capacity

instance (capacity : ℚ) : (c : Channel) → Decidable (c.Fits capacity)
  | .serialize _ => inferInstanceAs (Decidable True)
  | .progressive c => inferInstanceAs (Decidable (c.capacity = capacity))

end Channel

/-! ## §2. Tasks, and the loop that runs them. -/

/-- One await of a transport operation. -/
inductive Charge (χ : Type*)
  /-- `asyncio.sleep`. -/
  | sleep (dt : ℚ)
  /-- `ResourceRegistry.transfer`. -/
  | transfer (key : χ) (capacity latency : ℚ) (nbytes : ℕ)
  deriving DecidableEq

/-- Where a task is. -/
inductive Phase (χ : Type*)
  | ready
  | sleeping (wakes : ℚ)
  | awaiting (key : χ)
  | finished (time : ℚ)
  deriving DecidableEq

/-- A task that awaits a list of charges, one after the other. -/
structure Task (χ : Type*) where
  started : ℚ
  charges : List (Charge χ)
  /-- The charges it has not begun. -/
  left : List (Charge χ)
  phase : Phase χ
  deriving DecidableEq

/-- The clock, the registry and the tasks. -/
structure Loop (χ : Type*) where
  clock : ℚ
  seq : ℕ
  channels : Dict χ Channel
  tasks : Dict ℕ (Task χ)

/-- What happens next. -/
inductive LoopEvent (χ : Type*)
  /-- An operation is called. -/
  | call (id : ℕ) (charges : List (Charge χ))
  /-- A ready task runs up to its next await, or to its end. -/
  | run (id : ℕ)
  /-- The timer of a sleep is due. -/
  | wake (id : ℕ)
  /-- `_finish` is due. -/
  | finish (key : χ)
  /-- `_enter` is due. -/
  | enter (key : χ) (seq : ℕ)
  /-- `_complete` is due. -/
  | complete (key : χ) (seq : ℕ)
  /-- The clock moves.  It need not reach a timer of this model: other coroutines
  have timers too. -/
  | tick (now : ℚ)

/-- It does not keep the clock from moving to `now`. -/
def Task.Allows {χ : Type*} (task : Task χ) (now : ℚ) : Prop :=
  match task.phase with
  | .ready => False
  | .sleeping w => now ≤ w
  | _ => True

instance {χ : Type*} (task : Task χ) (now : ℚ) : Decidable (task.Allows now) :=
  match h : task.phase with
  | .ready => isFalse (by unfold Task.Allows; rw [h]; exact id)
  | .sleeping w => decidable_of_iff (now ≤ w) (by unfold Task.Allows; rw [h])
  | .awaiting _ => isTrue (by unfold Task.Allows; rw [h]; trivial)
  | .finished _ => isTrue (by unfold Task.Allows; rw [h]; trivial)

namespace Loop

variable {χ : Type*}

/-- The loop of a run that has not begun. -/
def initial : Loop χ := ⟨0, 0, Dict.empty, Dict.empty⟩

/-- Nothing is ready, and no timer is due before `now`. -/
def Allows (s : Loop χ) (now : ℚ) : Prop :=
  (∀ task ∈ s.tasks.values, task.Allows now) ∧ ∀ c ∈ s.channels.values, ∀ w ∈ c.timers, now ≤ w

instance (s : Loop χ) (now : ℚ) : Decidable (s.Allows now) :=
  inferInstanceAs (Decidable ((∀ task ∈ s.tasks.values, task.Allows now) ∧
    ∀ c ∈ s.channels.values, ∀ w ∈ c.timers, now ≤ w))

variable [DecidableEq χ]

def setTask (s : Loop χ) (id : ℕ) (task : Task χ) : Loop χ :=
  { s with tasks := s.tasks.set id task }

def setChannel (s : Loop χ) (key : χ) (c : Channel) : Loop χ :=
  { s with channels := s.channels.set key c }

/-- `ResourceRegistry.transfer`, up to its await. -/
def transfer (mode : Contention) (s : Loop χ) (id : ℕ) (key : χ) (capacity latency : ℚ)
    (nbytes : ℕ) : Loop χ :=
  let t : Transfer := ⟨s.seq + 1, nbytes, latency, capacity, id⟩
  let channel := (s.channels.get? key).getD (Channel.create mode capacity s.clock)
  { s with seq := s.seq + 1 }.setChannel key (channel.register t s.clock)

/-- `future.set_result`: the task that awaits it is ready. -/
def resolve (s : Loop χ) (future : ℕ) : Loop χ :=
  match s.tasks.get? future with
  | some ⟨started, charges, left, .awaiting _⟩ =>
      s.setTask future ⟨started, charges, left, .ready⟩
  | _ => s

/-- A ready task runs. -/
def runTask (mode : Contention) (s : Loop χ) (id : ℕ) (task : Task χ) : Loop χ :=
  match task.left with
  | [] => s.setTask id { task with phase := .finished s.clock }
  | .sleep dt :: rest =>
      -- a sleep of no time yields once
      s.setTask id { task with
        left := rest
        phase := if dt ≤ 0 then .ready else .sleeping (s.clock + dt) }
  | .transfer key capacity latency nbytes :: rest =>
      (s.transfer mode id key capacity latency nbytes).setTask id
        { task with left := rest, phase := .awaiting key }

/-- One step of the loop. -/
def next (mode : Contention) (s : Loop χ) : LoopEvent χ → Option (Loop χ)
  | .call id charges =>
      if id ∈ s.tasks then none else some (s.setTask id ⟨s.clock, charges, charges, .ready⟩)
  | .run id =>
      match s.tasks.get? id with
      | some task => if task.phase = .ready then some (s.runTask mode id task) else none
      | none => none
  | .wake id =>
      match s.tasks.get? id with
      | some ⟨started, charges, left, .sleeping w⟩ =>
          if w ≤ s.clock then some (s.setTask id ⟨started, charges, left, .ready⟩) else none
      | _ => none
  | .finish key =>
      match s.channels.get? key with
      | some (.serialize ⟨queue, some (t, w)⟩) =>
          if w ≤ s.clock then
            some ((s.setChannel key (.serialize
              (SerializeChannel.startNext ⟨queue, some (t, w)⟩ s.clock))).resolve t.future)
          else none
      | _ => none
  | .enter key seq =>
      match s.channels.get? key with
      | some (.progressive c) =>
          match c.warming.get? seq with
          | some (t, w) =>
              if w ≤ s.clock then some (s.setChannel key (.progressive (c.enter seq t s.clock)))
              else none
          | none => none
      | _ => none
  | .complete key seq =>
      match s.channels.get? key with
      | some (.progressive c) =>
          match c.active.get? seq with
          | some (t, w) =>
              if w ≤ s.clock then
                some ((s.setChannel key (.progressive (c.complete seq s.clock))).resolve t.future)
              else none
          | none => none
      | _ => none
  | .tick now => if s.clock ≤ now ∧ s.Allows now then some { s with clock := now } else none

/-- What each event does, and when it can happen. -/
inductive Moves (mode : Contention) (s : Loop χ) : LoopEvent χ → Loop χ → Prop
  | call {id : ℕ} {charges : List (Charge χ)} (hid : id ∉ s.tasks) :
      Moves mode s (.call id charges) (s.setTask id ⟨s.clock, charges, charges, .ready⟩)
  | run {id : ℕ} {task : Task χ} (htask : s.tasks.get? id = some task)
      (hready : task.phase = .ready) : Moves mode s (.run id) (s.runTask mode id task)
  | wake {id : ℕ} {started : ℚ} {charges left : List (Charge χ)} {w : ℚ}
      (htask : s.tasks.get? id = some ⟨started, charges, left, .sleeping w⟩) (hdue : w ≤ s.clock) :
      Moves mode s (.wake id) (s.setTask id ⟨started, charges, left, .ready⟩)
  | finish {key : χ} {queue : List Transfer} {t : Transfer} {w : ℚ}
      (hget : s.channels.get? key = some (.serialize ⟨queue, some (t, w)⟩)) (hdue : w ≤ s.clock) :
      Moves mode s (.finish key) ((s.setChannel key (.serialize
        (SerializeChannel.startNext ⟨queue, some (t, w)⟩ s.clock))).resolve t.future)
  | enter {key : χ} {seq : ℕ} {c : ProgressiveChannel} {t : Transfer} {w : ℚ}
      (hget : s.channels.get? key = some (.progressive c))
      (hwarm : c.warming.get? seq = some (t, w)) (hdue : w ≤ s.clock) :
      Moves mode s (.enter key seq) (s.setChannel key (.progressive (c.enter seq t s.clock)))
  | complete {key : χ} {seq : ℕ} {c : ProgressiveChannel} {t : Transfer} {w : ℚ}
      (hget : s.channels.get? key = some (.progressive c))
      (hactive : c.active.get? seq = some (t, w)) (hdue : w ≤ s.clock) :
      Moves mode s (.complete key seq)
        ((s.setChannel key (.progressive (c.complete seq s.clock))).resolve t.future)
  | tick {now : ℚ} (hle : s.clock ≤ now) (hallows : s.Allows now) :
      Moves mode s (.tick now) { s with clock := now }

/-- **An enabled event** finds what its guard asks for. -/
theorem moves_of_next {mode : Contention} {s t : Loop χ} {e : LoopEvent χ}
    (h : s.next mode e = some t) : s.Moves mode e t := by
  cases e with
  | call id charges =>
      simp only [next] at h
      split at h
      · cases h
      · rename_i hid
        cases h
        exact .call hid
  | run id =>
      simp only [next] at h
      split at h
      · rename_i task htask
        split at h
        · rename_i hready
          cases h
          exact .run htask hready
        · cases h
      · cases h
  | wake id =>
      simp only [next] at h
      split at h
      · rename_i htask
        split at h
        · rename_i hdue
          cases h
          exact .wake htask hdue
        · cases h
      · cases h
  | finish key =>
      simp only [next] at h
      split at h
      · rename_i hget
        split at h
        · rename_i hdue
          cases h
          exact .finish hget hdue
        · cases h
      · cases h
  | enter key seq =>
      simp only [next] at h
      split at h
      · rename_i hget
        split at h
        · rename_i hwarm
          split at h
          · rename_i hdue
            cases h
            exact .enter hget hwarm hdue
          · cases h
        · cases h
      · cases h
  | complete key seq =>
      simp only [next] at h
      split at h
      · rename_i hget
        split at h
        · rename_i hactive
          split at h
          · rename_i hdue
            cases h
            exact .complete hget hactive hdue
          · cases h
        · cases h
      · cases h
  | tick now =>
      simp only [next] at h
      split at h
      · rename_i hnow
        cases h
        exact .tick hnow.1 hnow.2
      · cases h

/-- The runs of the loop, under one registry. -/
def machine (χ : Type*) [DecidableEq χ] (mode : Contention) : Machine (Loop χ) (LoopEvent χ) :=
  Machine.ofPartial (fun s => s = initial) (next mode)

end Loop

/-! ## §3. A channel with one transfer in flight. -/

namespace ProgressiveChannel

/-- Debiting moves bytes only: the same transfers stay, with the same futures. -/
theorem futures_advance (c : ProgressiveChannel) (now : ℚ) :
    ((c.advance now).active.values.map fun e => e.1.future)
      = c.active.values.map fun e => e.1.future := by
  unfold advance
  by_cases h : 0 < now - c.lastUpdate
  · simp [h, Function.comp_def]
  · simp [h]

/-- A re-rate moves timers only. -/
theorem futures_recompute (c : ProgressiveChannel) (now : ℚ) :
    ((c.recompute now).active.values.map fun e => e.1.future)
      = c.active.values.map fun e => e.1.future := by
  unfold recompute
  simp [Function.comp_def]

@[simp] theorem capacity_register (c : ProgressiveChannel) (t : Transfer) (now : ℚ) :
    (c.register t now).capacity = c.capacity := rfl

end ProgressiveChannel

namespace Channel

@[simp] theorem futures_create (mode : Contention) (capacity now : ℚ) :
    (create mode capacity now).futures = [] := by
  cases mode <;> rfl

theorem fits_create (mode : Contention) (capacity now : ℚ) :
    (create mode capacity now).Fits capacity := by
  cases mode with
  | none => exact rfl
  | serialize => exact trivial
  | progressive => exact rfl

theorem fits_register {c : Channel} {capacity : ℚ} (h : c.Fits capacity) (t : Transfer)
    (now : ℚ) : (c.register t now).Fits capacity := by
  cases c with
  | serialize c => exact trivial
  | progressive c => exact h

/-- Starting the next transfer puts none in flight. -/
theorem mem_futures_startNext {c : SerializeChannel} {now : ℚ} {z : ℕ}
    (h : z ∈ (Channel.serialize (c.startNext now)).futures) :
    z ∈ c.queue.map Transfer.future := by
  unfold SerializeChannel.startNext at h
  cases hq : c.queue with
  | nil =>
      rw [hq] at h
      simp [futures] at h
  | cons t rest =>
      rw [hq] at h
      simpa [futures, or_comm, eq_comm] using h

/-- Registering puts one transfer in flight. -/
theorem mem_futures_register {c : Channel} {t : Transfer} {now : ℚ} {z : ℕ}
    (h : z ∈ (c.register t now).futures) : z = t.future ∨ z ∈ c.futures := by
  cases c with
  | serialize c =>
      obtain ⟨queue, serving⟩ := c
      cases serving with
      | none =>
          have hq := mem_futures_startNext h
          simp only [List.map_append, List.mem_append, List.map_cons, List.map_nil,
            List.mem_singleton] at hq
          cases hq with
          | inl hq => exact .inr (List.mem_append_left _ hq)
          | inr hz => exact .inl hz
      | some served =>
          simp only [register, SerializeChannel.register, futures, List.map_append,
            List.mem_append, List.map_cons, List.map_nil, List.mem_singleton] at h
          cases h with
          | inl hq =>
              cases hq with
              | inl hq => exact .inr (List.mem_append_left _ hq)
              | inr hz => exact .inl hz
          | inr hs => exact .inr (List.mem_append_right _ hs)
  | progressive c =>
      simp only [register, ProgressiveChannel.register, futures, List.mem_append,
        List.mem_map] at h
      cases h with
      | inl hw =>
          obtain ⟨e, he, rfl⟩ := hw
          cases Dict.mem_values_set he with
          | inl heq => exact .inl (by rw [heq])
          | inr hold => exact .inr (List.mem_append_left _ (List.mem_map_of_mem hold))
      | inr ha => exact .inr (List.mem_append_right _ (List.mem_map.mpr ha))

/-- Entering the byte phase puts none in flight. -/
theorem mem_futures_enter {c : ProgressiveChannel} {seq : ℕ} {t : Transfer} {w now : ℚ}
    {z : ℕ} (ht : c.warming.get? seq = some (t, w))
    (h : z ∈ (Channel.progressive (c.enter seq t now)).futures) :
    z ∈ (Channel.progressive c).futures := by
  unfold futures at h ⊢
  rw [List.mem_append] at h ⊢
  cases h with
  | inl hw =>
      obtain ⟨e, he, rfl⟩ := List.mem_map.mp hw
      exact .inl (List.mem_map_of_mem (Dict.mem_values_erase he))
  | inr ha =>
      unfold ProgressiveChannel.enter at ha
      rw [ProgressiveChannel.futures_recompute] at ha
      obtain ⟨e, he, rfl⟩ := List.mem_map.mp ha
      cases Dict.mem_values_set he with
      | inl heq =>
          subst heq
          have hin : (t, w) ∈ c.warming.values := (Dict.mem_values_iff _ _).mpr ⟨_, ht⟩
          exact .inl (List.mem_map.mpr ⟨_, hin, rfl⟩)
      | inr hold =>
          have hadv := List.mem_map_of_mem (f := fun e : Transfer × ℚ => e.1.future) hold
          rw [ProgressiveChannel.futures_advance] at hadv
          exact .inr hadv

/-- Completing a transfer puts none in flight. -/
theorem mem_futures_complete {c : ProgressiveChannel} {seq : ℕ} {now : ℚ} {z : ℕ}
    (h : z ∈ (Channel.progressive (c.complete seq now)).futures) :
    z ∈ (Channel.progressive c).futures := by
  unfold futures at h ⊢
  rw [List.mem_append] at h ⊢
  cases h with
  | inl hw => exact .inl hw
  | inr ha =>
      unfold ProgressiveChannel.complete at ha
      rw [ProgressiveChannel.futures_recompute] at ha
      obtain ⟨e, he, rfl⟩ := List.mem_map.mp ha
      have hadv := List.mem_map_of_mem (f := fun e : Transfer × ℚ => e.1.future)
        (Dict.mem_values_erase he)
      rw [ProgressiveChannel.futures_advance] at hadv
      exact .inr hadv

/-- `x`'s transfer is the one in flight: its next timer, and when it will be over. -/
inductive Lone (x : ℕ) : Channel → ℚ → ℚ → Prop
  | serving {t : Transfer} {w : ℚ} (future : t.future = x) :
      Lone x (.serialize ⟨[], some (t, w)⟩) w w
  | warming {c : ProgressiveChannel} {t : Transfer} {w : ℚ} (future : t.future = x)
      (warming : c.warming.entries = [(t.seq, t, w)]) (active : c.active.entries = []) :
      Lone x (.progressive c) w (w + t.remaining / c.capacity)
  | moving {c : ProgressiveChannel} {t : Transfer} {w : ℚ} (future : t.future = x)
      (warming : c.warming.entries = []) (active : c.active.entries = [(t.seq, t, w)]) :
      Lone x (.progressive c) w w

/-- Nothing in flight on a channel: both of its stages are empty. -/
theorem progressive_idle {c : ProgressiveChannel} (h : (Channel.progressive c).futures = []) :
    c.warming.entries = [] ∧ c.active.entries = [] := by
  unfold futures Dict.values at h
  rw [List.append_eq_nil_iff, List.map_eq_nil_iff, List.map_eq_nil_iff, List.map_eq_nil_iff,
    List.map_eq_nil_iff] at h
  exact h

/-- **A transfer that finds its channel free is charged its solo cost**: latency, then
bytes over bandwidth. -/
theorem register_lone {c : Channel} {t : Transfer} (now : ℚ) (hidle : c.futures = [])
    (hfits : c.Fits t.capacity) :
    ∃ w, (c.register t now).Lone t.future w (now + (t.latency + t.remaining / t.capacity)) ∧
      (0 ≤ t.latency → 0 ≤ t.remaining / t.capacity →
        now ≤ w ∧ w ≤ now + (t.latency + t.remaining / t.capacity)) := by
  cases c with
  | serialize c =>
      obtain ⟨queue, serving⟩ := c
      unfold futures at hidle
      rw [List.append_eq_nil_iff, List.map_eq_nil_iff] at hidle
      obtain ⟨hq, hs⟩ := hidle
      simp only at hq
      subst hq
      cases serving with
      | none =>
          refine ⟨_, .serving rfl, ?_⟩
          intro hlat hbytes
          exact ⟨by linarith, le_rfl⟩
      | some served => simp at hs
  | progressive c =>
      obtain ⟨hw, ha⟩ := progressive_idle hidle
      have hcap : c.capacity = t.capacity := hfits
      have hwarm : (c.register t now).warming.entries = [(t.seq, t, now + t.latency)] := by
        simp [ProgressiveChannel.register, Dict.set, hw, Assoc.put]
      have hlone := Lone.warming (c := c.register t now) rfl hwarm ha
      rw [ProgressiveChannel.capacity_register, hcap] at hlone
      refine ⟨now + t.latency, ?_, ?_⟩
      · rw [← add_assoc]
        exact hlone
      · intro hlat hbytes
        exact ⟨by linarith, by linarith⟩

/-- **A lone transfer that has warmed up gets the whole bandwidth.** -/
theorem enter_moving {c : ProgressiveChannel} {t : Transfer} {w : ℚ} (now : ℚ)
    (hw : c.warming.entries = [(t.seq, t, w)]) (ha : c.active.entries = []) :
    (c.enter t.seq t now).warming.entries = [] ∧
      (c.enter t.seq t now).active.entries = [(t.seq, t, now + t.remaining / c.capacity)] := by
  have hempty : c.active = Dict.empty := by
    cases hd : c.active with
    | mk entries nodup =>
        rw [hd] at ha
        simp only at ha
        subst ha
        rfl
  constructor
  · simp [ProgressiveChannel.enter, ProgressiveChannel.recompute, ProgressiveChannel.advance,
      Dict.erase, hw, Assoc.drop]
  · simp [ProgressiveChannel.enter, ProgressiveChannel.recompute, ProgressiveChannel.advance,
      hempty, Dict.set, Dict.mapValues, Dict.empty, Assoc.put]

/-- With its one transfer completed, nothing is in flight. -/
theorem complete_idle {c : ProgressiveChannel} {t : Transfer} {w : ℚ} (now : ℚ)
    (hw : c.warming.entries = []) (ha : c.active.entries = [(t.seq, t, w)]) :
    (Channel.progressive (c.complete t.seq now)).futures = [] := by
  simp only [futures, ProgressiveChannel.complete, ProgressiveChannel.recompute,
    ProgressiveChannel.advance, Dict.values, Dict.mapValues, hw, Dict.erase]
  by_cases h : 0 < now - c.lastUpdate
  · simp [h, ha, Assoc.drop]
  · simp [h, ha, Assoc.drop]

/-- A lone transfer's timer is the only one. -/
theorem Lone.timers_eq {x : ℕ} {c : Channel} {w due : ℚ} (h : c.Lone x w due) :
    c.timers = [w] := by
  cases h with
  | serving hx => rfl
  | warming hx hw ha => simp [timers, Dict.values, hw, ha]
  | moving hx hw ha => simp [timers, Dict.values, hw, ha]

theorem Lone.timer {x : ℕ} {c : Channel} {w due : ℚ} (h : c.Lone x w due) : w ∈ c.timers := by
  rw [h.timers_eq]
  exact List.mem_singleton_self w

end Channel

/-! ## §4. One task, undisturbed. -/

section Undisturbed

variable {χ : Type*}

/-- What a charge takes with nothing in its way. -/
def Charge.solo : Charge χ → ℚ
  | .sleep dt => max 0 dt
  | .transfer _ capacity latency nbytes => latency + nbytes / capacity

/-- What charges take one after the other. -/
def total (charges : List (Charge χ)) : ℚ := (charges.map Charge.solo).sum

@[simp] theorem total_nil : total ([] : List (Charge χ)) = 0 := rfl

@[simp] theorem total_cons (charge : Charge χ) (rest : List (Charge χ)) :
    total (charge :: rest) = charge.solo + total rest := rfl

/-- Its latency is not negative, and its bandwidth is positive. -/
def Charge.WellRated : Charge χ → Prop
  | .sleep _ => True
  | .transfer _ capacity latency _ => 0 ≤ latency ∧ 0 < capacity

def Task.WellRated (task : Task χ) : Prop := ∀ charge ∈ task.charges, charge.WellRated

/-- When it should be done. -/
def Task.deadline (task : Task χ) : ℚ := task.started + total task.charges

namespace Loop

/-- `x` awaits a transfer on `key`. -/
def Awaits (s : Loop χ) (x : ℕ) (key : χ) : Prop :=
  (s.tasks.get? x).map Task.phase = some (.awaiting key)

@[simp] theorem get?_setTask_self (s : Loop χ) (id : ℕ) (task : Task χ) :
    (s.setTask id task).tasks.get? id = some task := Dict.get?_set_self _ _ _

theorem get?_setTask_ne (s : Loop χ) {id x : ℕ} (task : Task χ) (h : id ≠ x) :
    (s.setTask id task).tasks.get? x = s.tasks.get? x := Dict.get?_set_ne _ _ h

@[simp] theorem clock_resolve (s : Loop χ) (future : ℕ) :
    (s.resolve future).clock = s.clock := by
  unfold resolve
  split <;> rfl

@[simp] theorem channels_resolve (s : Loop χ) (future : ℕ) :
    (s.resolve future).channels = s.channels := by
  unfold resolve
  split <;> rfl

@[simp] theorem seq_resolve (s : Loop χ) (future : ℕ) : (s.resolve future).seq = s.seq := by
  unfold resolve
  split <;> rfl

theorem get?_resolve_ne (s : Loop χ) {future x : ℕ} (h : future ≠ x) :
    (s.resolve future).tasks.get? x = s.tasks.get? x := by
  unfold resolve
  split
  · exact get?_setTask_ne _ _ h
  · rfl

theorem get?_resolve_self (s : Loop χ) {x : ℕ} {started : ℚ} {charges left : List (Charge χ)}
    {key : χ} (h : s.tasks.get? x = some ⟨started, charges, left, .awaiting key⟩) :
    (s.resolve x).tasks.get? x = some ⟨started, charges, left, .ready⟩ := by
  unfold resolve
  rw [h]
  exact get?_setTask_self _ _ _

/-- What a task awaits, read off the task. -/
theorem awaits_iff {s : Loop χ} {x : ℕ} {task : Task χ} (h : s.tasks.get? x = some task)
    (key : χ) : s.Awaits x key ↔ task.phase = .awaiting key := by
  unfold Awaits
  rw [h, Option.map_some, Option.some.injEq]

/-- One that awaits is there. -/
theorem Awaits.task {s : Loop χ} {x : ℕ} {key : χ} (h : s.Awaits x key) :
    ∃ started charges left, s.tasks.get? x = some ⟨started, charges, left, .awaiting key⟩ := by
  unfold Awaits at h
  rw [Option.map_eq_some_iff] at h
  obtain ⟨⟨started, charges, left, phase⟩, htask, rfl⟩ := h
  exact ⟨started, charges, left, htask⟩

variable [DecidableEq χ]

@[simp] theorem tasks_setChannel (s : Loop χ) (key : χ) (c : Channel) :
    (s.setChannel key c).tasks = s.tasks := rfl

instance (s : Loop χ) (x : ℕ) (key : χ) : Decidable (s.Awaits x key) :=
  inferInstanceAs (Decidable ((s.tasks.get? x).map Task.phase = some (.awaiting key)))

/-- A channel after one was set. -/
theorem get?_setChannel_cases {s : Loop χ} {key key' : χ} {c c' : Channel}
    (h : (s.setChannel key c).channels.get? key' = some c') :
    (key = key' ∧ c' = c) ∨ (key ≠ key' ∧ s.channels.get? key' = some c') :=
  Dict.get?_set_cases h

/-- A charge `id` is about to begin does not make a transfer overlap with one of `x`'s:
`x` begins one on a free channel, of the capacity its transfers carry, and the others
begin none where `x` has one in flight. -/
def Clear (s : Loop χ) (x id : ℕ) : Charge χ → Prop
  | .sleep _ => True
  | .transfer key capacity _ _ =>
      if id = x then ∀ c ∈ s.channels.get? key, c.futures = [] ∧ c.Fits capacity
      else ¬ s.Awaits x key

instance (s : Loop χ) (x id : ℕ) : (charge : Charge χ) → Decidable (s.Clear x id charge)
  | .sleep _ => inferInstanceAs (Decidable True)
  | .transfer key capacity _ _ => inferInstanceAs (Decidable (if id = x then
      ∀ c ∈ s.channels.get? key, c.futures = [] ∧ c.Fits capacity else ¬ s.Awaits x key))

/-- **No other transfer overlaps with one of `x`'s on a channel.** -/
def Undisturbed (x : ℕ) (s : Loop χ) : LoopEvent χ → Prop
  | .run id => ∀ task ∈ s.tasks.get? id, ∀ charge ∈ task.left.head?, s.Clear x id charge
  | _ => True

instance (x : ℕ) (s : Loop χ) : (e : LoopEvent χ) → Decidable (Undisturbed x s e)
  | .run id => inferInstanceAs (Decidable (∀ task ∈ s.tasks.get? id,
      ∀ charge ∈ task.left.head?, s.Clear x id charge))
  | .call _ _ => inferInstanceAs (Decidable True)
  | .wake _ => inferInstanceAs (Decidable True)
  | .finish _ => inferInstanceAs (Decidable True)
  | .enter _ _ => inferInstanceAs (Decidable True)
  | .complete _ _ => inferInstanceAs (Decidable True)
  | .tick _ => inferInstanceAs (Decidable True)

end Loop

variable [DecidableEq χ]

/-- **`x` is on time**: what it waits for is due at the moment its solo costs say, and
the clock has not passed it. -/
def Task.OnTime (s : Loop χ) (x : ℕ) (task : Task χ) : Prop :=
  match task.phase with
  | .ready => task.WellRated → s.clock + total task.left = task.deadline
  | .sleeping w => task.WellRated → s.clock ≤ w ∧ w + total task.left = task.deadline
  | .awaiting key => ∃ c w due, s.channels.get? key = some c ∧ c.Lone x w due ∧
      (task.WellRated → s.clock ≤ w ∧ w ≤ due ∧ due + total task.left = task.deadline)
  | .finished τ => task.WellRated → τ = task.deadline

/-- The invariant: `x`'s transfers are where it awaits them only, and it is on time. -/
structure Alone (x : ℕ) (s : Loop χ) : Prop where
  foreign : ∀ key c, s.channels.get? key = some c → ¬ s.Awaits x key → x ∉ c.futures
  suffix : ∀ task, s.tasks.get? x = some task → task.left <:+ task.charges
  onTime : ∀ task, s.tasks.get? x = some task → task.OnTime s x

/-! ## §5. What each step leaves of the invariant. -/

namespace Alone

variable {x : ℕ} {s t : Loop χ}

/-- A step that leaves `x`'s task and the channel it awaits alone. -/
theorem frame (h : Alone x s) (hclock : t.clock = s.clock)
    (htask : t.tasks.get? x = s.tasks.get? x)
    (hkeep : ∀ key, s.Awaits x key → t.channels.get? key = s.channels.get? key)
    (hforeign : ∀ key c, t.channels.get? key = some c → ¬ s.Awaits x key → x ∉ c.futures) :
    Alone x t where
  foreign := by
    intro key c hc hnot
    refine hforeign key c hc ?_
    unfold Loop.Awaits at hnot ⊢
    rwa [htask] at hnot
  suffix := by
    intro task ht
    rw [htask] at ht
    exact h.suffix task ht
  onTime := by
    intro task ht
    rw [htask] at ht
    have hold := h.onTime task ht
    obtain ⟨started, charges, left, phase⟩ := task
    cases phase with
    | ready =>
        intro hrated
        rw [hclock]
        exact hold hrated
    | sleeping w =>
        intro hrated
        rw [hclock]
        exact hold hrated
    | awaiting key =>
        obtain ⟨c, w, due, hc, hlone, htime⟩ := hold
        refine ⟨c, w, due, ?_, hlone, ?_⟩
        · rw [hkeep key ((Loop.awaits_iff ht key).mpr rfl)]
          exact hc
        · rw [hclock]
          exact htime
    | finished τ => exact hold

/-- A step that writes another task. -/
theorem setTask_ne (h : Alone x s) {id : ℕ} (hne : id ≠ x) (task : Task χ) :
    Alone x (s.setTask id task) :=
  h.frame rfl (s.get?_setTask_ne task hne) (fun _ _ => rfl) h.foreign

/-- `x`'s own task after a step that begins or ends no transfer of its. -/
theorem setTask_self (h : Alone x s) {task : Task χ}
    (hout : ∀ key, ¬ s.Awaits x key) (hsuffix : task.left <:+ task.charges)
    (htime : task.OnTime (s.setTask x task) x) : Alone x (s.setTask x task) where
  foreign := by
    intro key c hc _
    exact h.foreign key c hc (hout key)
  suffix := by
    intro task' ht
    rw [Loop.get?_setTask_self] at ht
    cases ht
    exact hsuffix
  onTime := by
    intro task' ht
    rw [Loop.get?_setTask_self] at ht
    cases ht
    exact htime

/-- `call`. -/
theorem called (h : Alone x s) {id : ℕ} (charges : List (Charge χ)) (hid : id ∉ s.tasks) :
    Alone x (s.setTask id ⟨s.clock, charges, charges, .ready⟩) := by
  by_cases hx : id = x
  · subst hx
    have hnone : s.tasks.get? id = none := (Dict.get?_eq_none_iff _ _).mpr hid
    refine h.setTask_self ?_ (List.suffix_refl _) ?_
    · intro key haw
      unfold Loop.Awaits at haw
      rw [hnone] at haw
      cases haw
    · intro _
      rfl
  · exact h.setTask_ne hx _

/-- A registry that takes a transfer of another task. -/
theorem transfer_ne (h : Alone x s) (mode : Contention) {id : ℕ} (hne : id ≠ x) {key : χ}
    (capacity latency : ℚ) (nbytes : ℕ) (hclear : ¬ s.Awaits x key) :
    Alone x (s.transfer mode id key capacity latency nbytes) := by
  refine h.frame rfl rfl ?_ ?_
  · intro key' haw
    have hkey : key ≠ key' := fun heq => hclear (heq ▸ haw)
    exact Dict.get?_set_ne _ _ hkey
  · intro key' c hc hnot
    obtain ⟨rfl, rfl⟩ | ⟨_, hold⟩ := Loop.get?_setChannel_cases hc
    · -- the new transfer is `id`'s; what else is in flight was before
      intro hin
      cases Channel.mem_futures_register hin with
      | inl hid => exact hne hid.symm
      | inr hold =>
          cases hget : s.channels.get? key with
          | none =>
              rw [hget, Option.getD_none, Channel.futures_create] at hold
              cases hold
          | some c' =>
              rw [hget] at hold
              exact h.foreign key c' hget hclear hold
    · exact h.foreign key' c hold hnot

/-- `run`, of another task. -/
theorem run_ne (h : Alone x s) (mode : Contention) {id : ℕ} (hne : id ≠ x) (task : Task χ)
    (hclear : ∀ charge ∈ task.left.head?, s.Clear x id charge) :
    Alone x (s.runTask mode id task) := by
  unfold Loop.runTask
  cases hleft : task.left with
  | nil => exact h.setTask_ne hne _
  | cons charge rest =>
      cases charge with
      | sleep dt => exact h.setTask_ne hne _
      | transfer key capacity latency nbytes =>
          have hkey : ¬ s.Awaits x key := by
            have hhead := hclear (.transfer key capacity latency nbytes) (by rw [hleft]; rfl)
            simpa only [Loop.Clear, if_neg hne] using hhead
          exact (h.transfer_ne mode hne capacity latency nbytes hkey).setTask_ne hne _

/-- `x` begins a transfer on a free channel: it will be over after its solo cost. -/
theorem transfer_self (h : Alone x s) (mode : Contention) {started : ℚ}
    {charges rest : List (Charge χ)} {key : χ} {capacity latency : ℚ} {nbytes : ℕ}
    (htask : s.tasks.get? x =
      some ⟨started, charges, .transfer key capacity latency nbytes :: rest, .ready⟩)
    (hfree : ∀ c ∈ s.channels.get? key, c.futures = [] ∧ c.Fits capacity) :
    Alone x ((s.transfer mode x key capacity latency nbytes).setTask x
      ⟨started, charges, rest, .awaiting key⟩) where
  foreign := by
    intro key' c hc hnot
    have hkey : key ≠ key' := by
      intro heq
      refine hnot ((Loop.awaits_iff (Loop.get?_setTask_self _ _ _) key').mpr ?_)
      rw [heq]
    refine h.foreign key' c ((Dict.get?_set_ne s.channels _ hkey).symm.trans hc) ?_
    intro haw
    rw [Loop.awaits_iff htask] at haw
    cases haw
  suffix := by
    intro task ht
    rw [Loop.get?_setTask_self] at ht
    cases ht
    exact (List.suffix_cons _ rest).trans (h.suffix _ htask)
  onTime := by
    intro task ht
    rw [Loop.get?_setTask_self] at ht
    cases ht
    -- the channel the registry has for the key, or makes for it
    have hchannel : ∃ c, (s.channels.get? key).getD (Channel.create mode capacity s.clock) = c ∧
        c.futures = [] ∧ c.Fits capacity := by
      cases hget : s.channels.get? key with
      | none => exact ⟨_, rfl, Channel.futures_create _ _ _, Channel.fits_create _ _ _⟩
      | some c => exact ⟨c, rfl, hfree c hget⟩
    obtain ⟨c, hc, hidle, hfits⟩ := hchannel
    obtain ⟨w, hlone, htimes⟩ := Channel.register_lone
      (t := ⟨s.seq + 1, nbytes, latency, capacity, x⟩) s.clock hidle hfits
    refine ⟨_, w, s.clock + (latency + (nbytes : ℚ) / capacity), Dict.get?_set_self _ _ _,
      ?_, ?_⟩
    · rw [hc]
      exact hlone
    · intro hrated
      have hleft := h.onTime _ htask hrated
      have hin := (h.suffix _ htask).subset List.mem_cons_self
      obtain ⟨hlat, hcap⟩ := hrated _ hin
      have hbytes : (0 : ℚ) ≤ (nbytes : ℚ) / capacity :=
        div_nonneg (Nat.cast_nonneg nbytes) hcap.le
      obtain ⟨hnow, hdue⟩ := htimes hlat hbytes
      refine ⟨hnow, hdue, ?_⟩
      rw [total_cons, Charge.solo] at hleft
      show s.clock + (latency + (nbytes : ℚ) / capacity) + total rest = _
      rw [add_assoc]
      exact hleft

/-- `run`, of `x`. -/
theorem run_self (h : Alone x s) (mode : Contention) {task : Task χ}
    (htask : s.tasks.get? x = some task) (hready : task.phase = .ready)
    (hclear : ∀ charge ∈ task.left.head?, s.Clear x x charge) :
    Alone x (s.runTask mode x task) := by
  obtain ⟨started, charges, left, phase⟩ := task
  subst hready
  have hout : ∀ key, ¬ s.Awaits x key := by
    intro key haw
    rw [Loop.awaits_iff htask] at haw
    cases haw
  have hleft := h.onTime _ htask
  have hsuffix := h.suffix _ htask
  unfold Loop.runTask
  cases left with
  | nil =>
      refine h.setTask_self hout hsuffix ?_
      intro hrated
      have hend := hleft hrated
      rw [total_nil, add_zero] at hend
      exact hend
  | cons charge rest =>
      cases charge with
      | sleep dt =>
          refine h.setTask_self hout ((List.suffix_cons _ rest).trans hsuffix) ?_
          by_cases hdt : dt ≤ 0
          · -- it yields once, and the clock stands
            simp only [if_pos hdt]
            intro hrated
            have hend := hleft hrated
            rw [total_cons, Charge.solo, max_eq_left hdt, zero_add] at hend
            exact hend
          · simp only [if_neg hdt]
            intro hrated
            have hend := hleft hrated
            rw [total_cons, Charge.solo, max_eq_right (le_of_not_ge hdt), ← add_assoc] at hend
            refine ⟨?_, hend⟩
            show s.clock ≤ s.clock + dt
            linarith
      | transfer key capacity latency nbytes =>
          have hfree : ∀ c ∈ s.channels.get? key, c.futures = [] ∧ c.Fits capacity := by
            have hhead := hclear (.transfer key capacity latency nbytes) rfl
            simpa only [Loop.Clear, if_true] using hhead
          exact h.transfer_self mode htask hfree

/-- `wake`. -/
theorem woken (h : Alone x s) {id : ℕ} {started w : ℚ} {charges left : List (Charge χ)}
    (htask : s.tasks.get? id = some ⟨started, charges, left, .sleeping w⟩) (hdue : w ≤ s.clock) :
    Alone x (s.setTask id ⟨started, charges, left, .ready⟩) := by
  by_cases hx : id = x
  · subst hx
    have hsuffix := h.suffix _ htask
    refine h.setTask_self ?_ hsuffix ?_
    · intro key haw
      rw [Loop.awaits_iff htask] at haw
      cases haw
    · intro hrated
      obtain ⟨hnow, hend⟩ := h.onTime _ htask hrated
      have hclock : s.clock = w := le_antisymm hnow hdue
      show s.clock + total left = _
      rw [hclock]
      exact hend
  · exact h.setTask_ne hx _

/-- A channel `x` awaits nothing on moves, and another task's future may be resolved. -/
theorem setChannel_ne (h : Alone x s) {key : χ} {c c' : Channel}
    (hc : s.channels.get? key = some c) (hnot : ¬ s.Awaits x key)
    (hless : ∀ z ∈ c'.futures, z ∈ c.futures) : Alone x (s.setChannel key c') := by
  refine h.frame rfl rfl ?_ ?_
  · intro key' haw
    have hkey : key ≠ key' := fun heq => hnot (heq ▸ haw)
    exact Dict.get?_set_ne _ _ hkey
  · intro key' d hd hnot'
    obtain ⟨rfl, rfl⟩ | ⟨_, hold⟩ := Loop.get?_setChannel_cases hd
    · exact fun hin => h.foreign key c hc hnot (hless x hin)
    · exact h.foreign key' d hold hnot'

theorem resolve_ne (h : Alone x s) {future : ℕ} (hne : future ≠ x) :
    Alone x (s.resolve future) := by
  refine h.frame (s.clock_resolve _) (s.get?_resolve_ne hne) ?_ ?_
  · intro key _
    rw [Loop.channels_resolve]
  · intro key c hc hnot
    rw [Loop.channels_resolve] at hc
    exact h.foreign key c hc hnot

/-- **`x`'s transfer is over**: its channel is free, and `x` is ready, on time. -/
theorem resolve_self (h : Alone x s) {key : χ} {started : ℚ} {charges left : List (Charge χ)}
    (htask : s.tasks.get? x = some ⟨started, charges, left, .awaiting key⟩) {c' : Channel}
    (hfree : c'.futures = [])
    (hend : Task.WellRated ⟨started, charges, left, .awaiting key⟩ →
      s.clock + total left = started + total charges) :
    Alone x ((s.setChannel key c').resolve x) := by
  have hget := (s.setChannel key c').get?_resolve_self htask
  refine ⟨?_, ?_, ?_⟩
  · intro key' c hc _
    rw [Loop.channels_resolve] at hc
    obtain ⟨rfl, rfl⟩ | ⟨hkey, hold⟩ := Loop.get?_setChannel_cases hc
    · rw [hfree]
      exact List.not_mem_nil
    · refine h.foreign key' c hold ?_
      rw [Loop.awaits_iff htask]
      intro hphase
      cases hphase
      exact hkey rfl
  · intro task ht
    rw [hget] at ht
    cases ht
    have hsuffix := h.suffix _ htask
    exact hsuffix
  · intro task ht
    rw [hget] at ht
    cases ht
    intro hrated
    rw [Loop.clock_resolve]
    exact hend hrated

/-- What `x` awaits on a channel, and when. -/
theorem lone (h : Alone x s) {key : χ} (haw : s.Awaits x key) {c : Channel}
    (hc : s.channels.get? key = some c) :
    ∃ started charges left w due,
      s.tasks.get? x = some ⟨started, charges, left, .awaiting key⟩ ∧ c.Lone x w due ∧
      (Task.WellRated ⟨started, charges, left, .awaiting key⟩ →
        s.clock ≤ w ∧ w ≤ due ∧ due + total left = started + total charges) := by
  obtain ⟨started, charges, left, htask⟩ := haw.task
  obtain ⟨c', w, due, hc', hlone, htime⟩ := h.onTime _ htask
  rw [hc] at hc'
  cases hc'
  exact ⟨started, charges, left, w, due, htask, hlone, htime⟩

/-- `finish`. -/
theorem finished (h : Alone x s) {key : χ} {queue : List Transfer} {t : Transfer} {w : ℚ}
    (hc : s.channels.get? key = some (.serialize ⟨queue, some (t, w)⟩)) (hdue : w ≤ s.clock) :
    Alone x ((s.setChannel key (.serialize
      (SerializeChannel.startNext ⟨queue, some (t, w)⟩ s.clock))).resolve t.future) := by
  by_cases haw : s.Awaits x key
  · obtain ⟨started, charges, left, w', due, htask, hlone, htime⟩ := h.lone haw hc
    cases hlone with
    | serving hx =>
        subst hx
        refine h.resolve_self htask rfl ?_
        intro hrated
        obtain ⟨hnow, _, hend⟩ := htime hrated
        rw [le_antisymm hnow hdue]
        exact hend
  · have hout := h.foreign key _ hc haw
    have hne : t.future ≠ x := by
      intro heq
      exact hout (by simp [Channel.futures, heq])
    refine (h.setChannel_ne hc haw ?_).resolve_ne hne
    intro z hz
    exact List.mem_append_left _ (Channel.mem_futures_startNext hz)

/-- `enter`. -/
theorem entered (h : Alone x s) {key : χ} {c : ProgressiveChannel} {seq : ℕ} {t : Transfer}
    {w : ℚ} (hc : s.channels.get? key = some (.progressive c))
    (ht : c.warming.get? seq = some (t, w)) (hdue : w ≤ s.clock) :
    Alone x (s.setChannel key (.progressive (c.enter seq t s.clock))) := by
  by_cases haw : s.Awaits x key
  · obtain ⟨started, charges, left, w', due, htask, hlone, htime⟩ := h.lone haw hc
    cases hlone with
    | @warming _ t' _ hx hw ha =>
        have hin := (Dict.get?_eq_some_iff _ _ _).mp ht
        rw [hw, List.mem_singleton, Prod.mk.injEq, Prod.mk.injEq] at hin
        obtain ⟨rfl, rfl, rfl⟩ := hin
        subst hx
        obtain ⟨hwarm, hact⟩ := Channel.enter_moving s.clock hw ha
        have hafter := Channel.Lone.moving rfl hwarm hact
        refine ⟨?_, h.suffix, ?_⟩
        · intro key' d hd hnot
          have hkey : key ≠ key' := fun heq => hnot (heq ▸ haw)
          exact h.foreign key' d ((Dict.get?_set_ne s.channels _ hkey).symm.trans hd) hnot
        · intro task ht'
          rw [Loop.tasks_setChannel, htask] at ht'
          cases ht'
          refine ⟨_, _, _, Dict.get?_set_self _ _ _, hafter, ?_⟩
          intro hrated
          obtain ⟨hnow, hle, hend⟩ := htime hrated
          -- its warm-up ends now, so what is left of it starts now
          have hclock : s.clock = w := le_antisymm hnow hdue
          rw [← hclock] at hle hend
          exact ⟨hle, le_rfl, hend⟩
    | moving hx hw ha =>
        have hin := (Dict.get?_eq_some_iff _ _ _).mp ht
        rw [hw] at hin
        cases hin
  · refine h.setChannel_ne hc haw ?_
    intro z hz
    exact Channel.mem_futures_enter ht hz

/-- `complete`. -/
theorem completed (h : Alone x s) {key : χ} {c : ProgressiveChannel} {seq : ℕ} {t : Transfer}
    {w : ℚ} (hc : s.channels.get? key = some (.progressive c))
    (ht : c.active.get? seq = some (t, w)) (hdue : w ≤ s.clock) :
    Alone x ((s.setChannel key (.progressive (c.complete seq s.clock))).resolve t.future) := by
  have hin := (Dict.get?_eq_some_iff _ _ _).mp ht
  by_cases haw : s.Awaits x key
  · obtain ⟨started, charges, left, w', due, htask, hlone, htime⟩ := h.lone haw hc
    cases hlone with
    | warming hx hw ha =>
        rw [ha] at hin
        cases hin
    | @moving _ t' _ hx hw ha =>
        rw [ha, List.mem_singleton, Prod.mk.injEq, Prod.mk.injEq] at hin
        obtain ⟨rfl, rfl, rfl⟩ := hin
        subst hx
        refine h.resolve_self htask (Channel.complete_idle s.clock hw ha) ?_
        intro hrated
        obtain ⟨hnow, _, hend⟩ := htime hrated
        rw [le_antisymm hnow hdue]
        exact hend
  · have hne : t.future ≠ x := by
      intro heq
      refine h.foreign key _ hc haw ?_
      have hvalue : (t, w) ∈ c.active.values := (Dict.mem_values_iff _ _).mpr ⟨seq, ht⟩
      exact List.mem_append_right _ (List.mem_map.mpr ⟨(t, w), hvalue, heq⟩)
    refine (h.setChannel_ne hc haw ?_).resolve_ne hne
    intro z hz
    exact Channel.mem_futures_complete hz

/-- `tick`: the clock stops at what `x` waits for. -/
theorem ticked (h : Alone x s) {now : ℚ} (hnow : s.Allows now) :
    Alone x { s with clock := now } := by
  refine ⟨h.foreign, h.suffix, ?_⟩
  intro task htask
  have hallows := hnow.1 task ((Dict.mem_values_iff _ _).mpr ⟨x, htask⟩)
  have hold := h.onTime task htask
  obtain ⟨started, charges, left, phase⟩ := task
  cases phase with
  | ready => exact absurd hallows id
  | sleeping w =>
      intro hrated
      exact ⟨hallows, (hold hrated).2⟩
  | awaiting key =>
      obtain ⟨c, w, due, hc, hlone, htime⟩ := hold
      refine ⟨c, w, due, hc, hlone, ?_⟩
      intro hrated
      have hvalue : c ∈ s.channels.values := (Dict.mem_values_iff _ _).mpr ⟨key, hc⟩
      exact ⟨hnow.2 c hvalue w hlone.timer, (htime hrated).2⟩
  | finished τ => exact hold

/-- **One step keeps `x` on time**, whatever it is. -/
theorem step (h : Alone x s) (mode : Contention) (e : LoopEvent χ)
    (hok : Loop.Undisturbed x s e) (hst : s.next mode e = some t) : Alone x t := by
  cases Loop.moves_of_next hst with
  | call hid => exact h.called _ hid
  | @run id task htask hready =>
      have hclear := hok task htask
      by_cases hx : id = x
      · subst hx
        exact h.run_self mode htask hready hclear
      · exact h.run_ne mode hx task hclear
  | wake htask hdue => exact h.woken htask hdue
  | finish hget hdue => exact h.finished hget hdue
  | enter hget hwarm hdue => exact h.entered hget hwarm hdue
  | complete hget hactive hdue => exact h.completed hget hactive hdue
  | tick _ hallows => exact h.ticked hallows

theorem initial (x : ℕ) : Alone x (Loop.initial : Loop χ) where
  foreign := by
    intro key c hc
    cases hc
  suffix := by
    intro task htask
    cases htask
  onTime := by
    intro task htask
    cases htask

end Alone

/-- **A whole run keeps `x` on time** when nothing disturbs it. -/
theorem alone_of_run {mode : Contention} {x : ℕ} {s : Loop χ}
    (hs : ((Loop.machine χ mode).guarded (Loop.Undisturbed x)).Reachable s) : Alone x s := by
  refine Machine.Reachable.guarded_invariant ?_ ?_ hs
  · intro s hinit
    cases hinit
    exact Alone.initial x
  · intro s e t h hok hst
    exact h.step mode e hok hst

omit [DecidableEq χ] in
/-- Well-rated charges take no negative time. -/
theorem total_nonneg {charges : List (Charge χ)}
    (h : ∀ charge ∈ charges, charge.WellRated) : 0 ≤ total charges := by
  induction charges with
  | nil => exact le_rfl
  | cons charge rest ih =>
      have hrest := ih fun c hc => h c (List.mem_cons_of_mem _ hc)
      have hhead : 0 ≤ charge.solo := by
        cases charge with
        | sleep dt => exact le_max_left 0 dt
        | transfer key capacity latency nbytes =>
            obtain ⟨hlat, hcap⟩ := h _ List.mem_cons_self
            exact add_nonneg hlat (div_nonneg (Nat.cast_nonneg nbytes) hcap.le)
      rw [total_cons]
      exact add_nonneg hhead hrest

/-- A task that is not done is not late. -/
theorem Alone.clock_le {x : ℕ} {s : Loop χ} (h : Alone x s) {task : Task χ}
    (htask : s.tasks.get? x = some task) (hrated : task.WellRated)
    (hgoing : ∀ τ, task.phase ≠ .finished τ) : s.clock ≤ task.deadline := by
  have hleft : 0 ≤ total task.left :=
    total_nonneg fun charge hc => hrated charge ((h.suffix task htask).subset hc)
  have htime := h.onTime task htask
  obtain ⟨started, charges, left, phase⟩ := task
  cases phase with
  | ready =>
      have hend := htime hrated
      simp only at hend hleft
      linarith
  | sleeping w =>
      obtain ⟨hnow, hend⟩ := htime hrated
      simp only at hend hleft
      linarith
  | awaiting key =>
      obtain ⟨c, w, due, _, _, hlone⟩ := htime
      obtain ⟨hnow, hle, hend⟩ := hlone hrated
      simp only at hend hleft
      linarith
  | finished τ => exact absurd rfl (hgoing τ)

/-! ## §6. With the rest of the loop still, it gets done. -/

/-- Its transfer is of the capacity its channel's transfers carry. -/
def Charge.Carries (capacities : χ → ℚ) : Charge χ → Prop
  | .sleep _ => True
  | .transfer key capacity _ _ => capacity = capacities key

/-- The rest of the loop is still: the other tasks are done, only `x` has a transfer in
flight, and the transfers of a channel all carry one capacity. -/
structure Unrivalled (capacities : χ → ℚ) (x : ℕ) (s : Loop χ) : Prop where
  others : ∀ id task, id ≠ x → s.tasks.get? id = some task → ∃ τ, task.phase = .finished τ
  idle : ∀ key c, s.channels.get? key = some c → ¬ s.Awaits x key → c.futures = []
  fits : ∀ key c, s.channels.get? key = some c → c.Fits (capacities key)
  carried : ∀ task, s.tasks.get? x = some task → ∀ charge ∈ task.left, charge.Carries capacities

/-- `t` can follow `s` with nothing disturbing `x`. -/
def Follows (mode : Contention) (x : ℕ) (s t : Loop χ) : Prop :=
  ((Loop.machine χ mode).guarded (Loop.Undisturbed x)).Steps s t

theorem Follows.step {mode : Contention} {x : ℕ} {s t : Loop χ} (e : LoopEvent χ)
    (hok : Loop.Undisturbed x s e) (hst : s.next mode e = some t) : Follows mode x s t :=
  Machine.Steps.single (e := e) ⟨hok, hst⟩

theorem Follows.alone {mode : Contention} {x : ℕ} {s t : Loop χ} (h : Follows mode x s t)
    (hs : Alone x s) : Alone x t := by
  refine Machine.Steps.invariant ?_ h hs
  intro s e t halone hst
  exact halone.step mode e hst.1 hst.2

/-- A channel with nothing in flight has no timer. -/
theorem Channel.timers_eq_nil {c : Channel} (h : c.futures = []) : c.timers = [] := by
  cases c with
  | serialize c =>
      unfold futures at h
      rw [List.append_eq_nil_iff] at h
      cases hs : c.serving with
      | none => simp [timers, hs]
      | some served =>
          rw [hs] at h
          cases h.2
  | progressive c =>
      obtain ⟨hw, ha⟩ := progressive_idle h
      simp [timers, Dict.values, hw, ha]

namespace Unrivalled

variable {capacities : χ → ℚ} {x : ℕ} {s : Loop χ}

theorem ticked (h : Unrivalled capacities x s) (now : ℚ) :
    Unrivalled capacities x { s with clock := now } :=
  ⟨h.others, h.idle, h.fits, h.carried⟩

/-- The clock moves to what `x` waits for. -/
theorem tick (h : Unrivalled capacities x s) (mode : Contention) {task : Task χ} {w : ℚ}
    (htask : s.tasks.get? x = some task) (hallows : task.Allows w) (hnow : s.clock ≤ w)
    (htimer : ∀ key, task.phase = .awaiting key →
      ∃ c due, s.channels.get? key = some c ∧ c.Lone x w due) :
    Follows mode x s { s with clock := w } := by
  have hall : s.Allows w := by
    refine ⟨?_, ?_⟩
    · intro other hother
      obtain ⟨id, hid⟩ := (Dict.mem_values_iff _ _).mp hother
      by_cases hx : id = x
      · subst hx
        rw [htask] at hid
        cases hid
        exact hallows
      · obtain ⟨τ, hdone⟩ := h.others id other hx hid
        unfold Task.Allows
        rw [hdone]
        trivial
    · intro c hc w' hw'
      obtain ⟨key, hkey⟩ := (Dict.mem_values_iff _ _).mp hc
      by_cases haw : s.Awaits x key
      · obtain ⟨c', due, hc', hlone⟩ := htimer key ((Loop.awaits_iff htask key).mp haw)
        rw [hkey] at hc'
        cases hc'
        rw [hlone.timers_eq, List.mem_singleton] at hw'
        exact hw'.ge
      · rw [Channel.timers_eq_nil (h.idle key c hkey haw)] at hw'
        cases hw'
  refine Follows.step (.tick w) trivial ?_
  unfold Loop.next
  exact if_pos ⟨hnow, hall⟩

/-- `x`'s own task moves on, with no transfer in flight. -/
theorem setTask (h : Unrivalled capacities x s) {task : Task χ} (task' : Task χ)
    (htask : s.tasks.get? x = some task) (hout : ∀ key, ¬ s.Awaits x key)
    (hleft : task'.left ⊆ task.left) : Unrivalled capacities x (s.setTask x task') where
  others := by
    intro id other hx hid
    rw [Loop.get?_setTask_ne _ _ (Ne.symm hx)] at hid
    exact h.others id other hx hid
  idle := by
    intro key c hc _
    exact h.idle key c hc (hout key)
  fits := h.fits
  carried := by
    intro task'' ht
    rw [Loop.get?_setTask_self] at ht
    cases ht
    exact fun charge hc => h.carried task htask charge (hleft hc)

/-- `x`'s transfer ends: it is ready again, and its channel free. -/
theorem resolve (h : Unrivalled capacities x s) {key : χ} {started : ℚ}
    {charges left : List (Charge χ)}
    (htask : s.tasks.get? x = some ⟨started, charges, left, .awaiting key⟩) {c : Channel}
    (hfree : c.futures = []) (hfits : c.Fits (capacities key)) :
    Unrivalled capacities x ((s.setChannel key c).resolve x) where
  others := by
    intro id other hx hid
    rw [Loop.get?_resolve_ne _ (Ne.symm hx)] at hid
    exact h.others id other hx hid
  idle := by
    intro key' c' hc' _
    rw [Loop.channels_resolve] at hc'
    obtain ⟨rfl, rfl⟩ | ⟨hkey, hold⟩ := Loop.get?_setChannel_cases hc'
    · exact hfree
    · refine h.idle key' c' hold ?_
      rw [Loop.awaits_iff htask]
      intro hphase
      cases hphase
      exact hkey rfl
  fits := by
    intro key' c' hc'
    rw [Loop.channels_resolve] at hc'
    obtain ⟨rfl, rfl⟩ | ⟨_, hold⟩ := Loop.get?_setChannel_cases hc'
    · exact hfits
    · exact h.fits key' c' hold
  carried := by
    intro task ht
    rw [(s.setChannel key c).get?_resolve_self htask] at ht
    cases ht
    have hcarried := h.carried _ htask
    exact hcarried

/-- `x` begins a transfer. -/
theorem transfer (h : Unrivalled capacities x s) (mode : Contention) {started : ℚ}
    {charges rest : List (Charge χ)}
    {key : χ} {capacity latency : ℚ} {nbytes : ℕ}
    (htask : s.tasks.get? x =
      some ⟨started, charges, .transfer key capacity latency nbytes :: rest, .ready⟩)
    (hout : ∀ key, ¬ s.Awaits x key) :
    Unrivalled capacities x ((s.transfer mode x key capacity latency nbytes).setTask x
      ⟨started, charges, rest, .awaiting key⟩) where
  others := by
    intro id other hx hid
    rw [Loop.get?_setTask_ne _ _ (Ne.symm hx)] at hid
    exact h.others id other hx hid
  idle := by
    intro key' c hc hnot
    have hkey : key ≠ key' := by
      intro heq
      refine hnot ((Loop.awaits_iff (Loop.get?_setTask_self _ _ _) key').mpr ?_)
      rw [heq]
    exact h.idle key' c ((Dict.get?_set_ne s.channels _ hkey).symm.trans hc) (hout key')
  fits := by
    intro key' c hc
    obtain ⟨rfl, rfl⟩ | ⟨_, hold⟩ := Loop.get?_setChannel_cases hc
    · have hcap : capacity = capacities key := h.carried _ htask _ List.mem_cons_self
      subst hcap
      refine Channel.fits_register ?_ _ _
      cases hget : s.channels.get? key with
      | none => exact Channel.fits_create _ _ _
      | some c => exact h.fits key c hget
    · exact h.fits key' c hold
  carried := by
    intro task ht
    rw [Loop.get?_setTask_self] at ht
    cases ht
    intro charge hc
    exact h.carried _ htask charge (List.mem_cons_of_mem _ hc)

/-- A channel `x` awaits a transfer on changes stage. -/
theorem setChannel (h : Unrivalled capacities x s) {key : χ} (haw : s.Awaits x key)
    {c : Channel} (hfits : c.Fits (capacities key)) :
    Unrivalled capacities x (s.setChannel key c) where
  others := h.others
  idle := by
    intro key' c' hc' hnot
    have hkey : key ≠ key' := fun heq => hnot (heq ▸ haw)
    exact h.idle key' c' ((Dict.get?_set_ne s.channels c hkey).symm.trans hc') hnot
  fits := by
    intro key' c' hc'
    obtain ⟨rfl, rfl⟩ | ⟨_, hold⟩ := Loop.get?_setChannel_cases hc'
    · exact hfits
    · exact h.fits key' c' hold
  carried := h.carried

end Unrivalled

section Done

variable {capacities : χ → ℚ} (mode : Contention) {x : ℕ} {s : Loop χ}

/-- **A sleep ends.** -/
theorem sleep_ends (ha : Alone x s) (h : Unrivalled capacities x s) {started w : ℚ}
    {charges left : List (Charge χ)}
    (htask : s.tasks.get? x = some ⟨started, charges, left, .sleeping w⟩)
    (hrated : ∀ charge ∈ charges, charge.WellRated) :
    ∃ t, Follows mode x s t ∧ Unrivalled capacities x t ∧
      t.tasks.get? x = some ⟨started, charges, left, .ready⟩ := by
  obtain ⟨hnow, _⟩ := ha.onTime _ htask hrated
  have htick := h.tick mode htask le_rfl hnow fun _ hphase => nomatch hphase
  have hout : ∀ key, ¬ Loop.Awaits { s with clock := w } x key := by
    intro key haw
    have hphase := (Loop.awaits_iff (s := { s with clock := w }) htask key).mp haw
    cases hphase
  refine ⟨Loop.setTask { s with clock := w } x ⟨started, charges, left, .ready⟩,
    htick.trans (Follows.step (.wake x) trivial ?_),
    (h.ticked w).setTask ⟨started, charges, left, .ready⟩ htask hout (List.Subset.refl _),
    Loop.get?_setTask_self _ _ _⟩
  simp only [Loop.next, htask, le_refl, if_true]

/-- A transfer in its byte phase ends. -/
theorem moving_ends (ha : Alone x s) (h : Unrivalled capacities x s) {started : ℚ}
    {charges left : List (Charge χ)} {key : χ}
    (htask : s.tasks.get? x = some ⟨started, charges, left, .awaiting key⟩)
    (hrated : ∀ charge ∈ charges, charge.WellRated) {c : ProgressiveChannel} {t : Transfer}
    {w : ℚ} (hc : s.channels.get? key = some (.progressive c)) (hx : t.future = x)
    (hwarm : c.warming.entries = []) (hact : c.active.entries = [(t.seq, t, w)]) :
    ∃ t, Follows mode x s t ∧ Unrivalled capacities x t ∧
      t.tasks.get? x = some ⟨started, charges, left, .ready⟩ := by
  have hlone : (Channel.progressive c).Lone x w w := .moving hx hwarm hact
  have hnow : s.clock ≤ w := by
    obtain ⟨c', w', due, hc', hlone', htime⟩ := ha.onTime _ htask
    rw [hc] at hc'
    cases hc'
    have hw : [w'] = [w] := hlone'.timers_eq.symm.trans hlone.timers_eq
    cases hw
    exact (htime hrated).1
  have htick := h.tick mode htask trivial hnow (by
    intro key' hphase
    cases hphase
    exact ⟨_, w, hc, hlone⟩)
  have hget : c.active.get? t.seq = some (t, w) := by
    rw [Dict.get?_eq_some_iff, hact]
    exact List.mem_singleton_self _
  have hfits : (Channel.progressive c).Fits (capacities key) := h.fits key _ hc
  subst hx
  refine ⟨Loop.resolve (Loop.setChannel { s with clock := w } key
      (.progressive (c.complete t.seq w))) t.future,
    htick.trans (Follows.step (.complete key t.seq) trivial ?_),
    (h.ticked w).resolve htask (Channel.complete_idle w hwarm hact) hfits,
    Loop.get?_resolve_self _ htask⟩
  simp only [Loop.next, hc, hget, le_refl, if_true]

/-- **A transfer ends.** -/
theorem transfer_ends (ha : Alone x s) (h : Unrivalled capacities x s) {started : ℚ}
    {charges left : List (Charge χ)} {key : χ}
    (htask : s.tasks.get? x = some ⟨started, charges, left, .awaiting key⟩)
    (hrated : ∀ charge ∈ charges, charge.WellRated) :
    ∃ t, Follows mode x s t ∧ Unrivalled capacities x t ∧
      t.tasks.get? x = some ⟨started, charges, left, .ready⟩ := by
  obtain ⟨c, w, due, hc, hlone, htime⟩ := ha.onTime _ htask
  obtain ⟨hnow, _, _⟩ := htime hrated
  -- the clock moves to the transfer's timer
  have htick := h.tick mode htask trivial hnow (by
    intro key' hphase
    cases hphase
    exact ⟨c, due, hc, hlone⟩)
  cases hlone with
  | @serving t _ hx =>
      subst hx
      refine ⟨Loop.resolve (Loop.setChannel { s with clock := w } key
          (.serialize ⟨[], none⟩)) t.future,
        htick.trans (Follows.step (.finish key) trivial ?_),
        (h.ticked w).resolve htask rfl trivial, Loop.get?_resolve_self _ htask⟩
      simp only [Loop.next, hc, le_refl, if_true]
      rfl
  | @warming c t _ hx hwarm hact =>
      -- the warm-up ends, and what is left of it has the channel to itself
      have hget : c.warming.get? t.seq = some (t, w) := by
        rw [Dict.get?_eq_some_iff, hwarm]
        exact List.mem_singleton_self _
      have haw : Loop.Awaits { s with clock := w } x key := (Loop.awaits_iff htask key).mpr rfl
      have hmoved : Follows mode x s (Loop.setChannel { s with clock := w } key
          (.progressive (c.enter t.seq t w))) := by
        refine htick.trans (Follows.step (.enter key t.seq) trivial ?_)
        simp only [Loop.next, hc, hget, le_refl, if_true]
      have hfits : (Channel.progressive c).Fits (capacities key) := h.fits key _ hc
      have hthen := (h.ticked w).setChannel haw (c := .progressive (c.enter t.seq t w)) hfits
      obtain ⟨hwarm', hact'⟩ := Channel.enter_moving w hwarm hact
      obtain ⟨u, hsteps, hrest⟩ := moving_ends mode (hmoved.alone ha) hthen htask
        hrated (Dict.get?_set_self _ _ _) hx hwarm' hact'
      exact ⟨u, hmoved.trans hsteps, hrest⟩
  | moving hx hwarm hact => exact moving_ends mode ha h htask hrated hc hx hwarm hact

/-- **A ready task gets done**: by induction on the charges it has not begun. -/
theorem ready_ends {started : ℚ} {charges : List (Charge χ)}
    (hrated : ∀ charge ∈ charges, charge.WellRated) :
    ∀ (left : List (Charge χ)) {s : Loop χ}, Alone x s → Unrivalled capacities x s →
      s.tasks.get? x = some ⟨started, charges, left, .ready⟩ →
      ∃ t task τ, Follows mode x s t ∧ t.tasks.get? x = some task ∧ task.charges = charges ∧
        task.started = started ∧ task.phase = .finished τ := by
  intro left
  induction left with
  | nil =>
      intro s ha h htask
      refine ⟨_, _, s.clock, Follows.step (.run x) ?_ ?_, Loop.get?_setTask_self s x
        ⟨started, charges, [], .finished s.clock⟩, rfl, rfl, rfl⟩
      · intro task ht charge hc
        rw [htask] at ht
        cases ht
        cases hc
      · simp only [Loop.next, htask, if_true]
        rfl
  | cons charge rest ih =>
      intro s ha h htask
      have hout : ∀ key, ¬ s.Awaits x key := by
        intro key haw
        rw [Loop.awaits_iff htask] at haw
        cases haw
      have hrun : s.next mode (.run x) =
          some (s.runTask mode x ⟨started, charges, charge :: rest, .ready⟩) := by
        simp only [Loop.next, htask, if_true]
      -- once it is ready again, the rest follows
      have hback : ∀ {u v : Loop χ}, Follows mode x s u → Follows mode x u v →
          Unrivalled capacities x v →
          v.tasks.get? x = some ⟨started, charges, rest, .ready⟩ →
          ∃ t task τ, Follows mode x s t ∧ t.tasks.get? x = some task ∧
            task.charges = charges ∧ task.started = started ∧ task.phase = .finished τ := by
        intro u v hsu huv hv hready
        have hsv := hsu.trans huv
        obtain ⟨t, task, τ, hvt, hdone⟩ := ih (Follows.alone hsv ha) hv hready
        exact ⟨t, task, τ, hsv.trans hvt, hdone⟩
      cases charge with
      | sleep dt =>
          have hu : Follows mode x s (s.setTask x ⟨started, charges, rest,
              if dt ≤ 0 then .ready else .sleeping (s.clock + dt)⟩) := by
            refine Follows.step (.run x) ?_ hrun
            intro task ht charge hc
            rw [htask] at ht
            cases ht
            cases hc
            trivial
          have hrest := h.setTask ⟨started, charges, rest,
            if dt ≤ 0 then .ready else .sleeping (s.clock + dt)⟩ htask hout
            (List.subset_cons_self _ _)
          by_cases hdt : dt ≤ 0
          · simp only [if_pos hdt] at hu hrest
            exact hback hu Relation.ReflTransGen.refl hrest (Loop.get?_setTask_self _ _ _)
          · simp only [if_neg hdt] at hu hrest
            obtain ⟨v, huv, hv, hready⟩ := sleep_ends mode (hu.alone ha) hrest
              (Loop.get?_setTask_self _ _ _) hrated
            exact hback hu huv hv hready
      | transfer key capacity latency nbytes =>
          have hcap : capacity = capacities key := h.carried _ htask _ List.mem_cons_self
          have hu : Follows mode x s ((s.transfer mode x key capacity latency nbytes).setTask x
              ⟨started, charges, rest, .awaiting key⟩) := by
            refine Follows.step (.run x) ?_ hrun
            intro task ht charge hc
            rw [htask] at ht
            cases ht
            cases hc
            show if x = x then _ else _
            rw [if_pos rfl]
            intro c hc
            rw [hcap]
            exact ⟨h.idle key c hc (hout key), h.fits key c hc⟩
          have hrest := h.transfer mode htask hout
          obtain ⟨v, huv, hv, hready⟩ := transfer_ends mode (hu.alone ha) hrest
            (Loop.get?_setTask_self _ _ _) hrated
          exact hback hu huv hv hready

/-- **With the rest of the loop still, `x` gets done.** -/
theorem gets_done (ha : Alone x s) (h : Unrivalled capacities x s) {task : Task χ}
    (htask : s.tasks.get? x = some task) (hrated : task.WellRated) :
    ∃ t task' τ, Follows mode x s t ∧ t.tasks.get? x = some task' ∧
      task'.charges = task.charges ∧ task'.started = task.started ∧
      task'.phase = .finished τ := by
  obtain ⟨started, charges, left, phase⟩ := task
  cases phase with
  | ready => exact ready_ends mode hrated left ha h htask
  | sleeping w =>
      obtain ⟨u, hsu, hu, hready⟩ := sleep_ends mode ha h htask hrated
      obtain ⟨t, task', τ, hut, hdone⟩ := ready_ends mode hrated left (hsu.alone ha) hu hready
      exact ⟨t, task', τ, hsu.trans hut, hdone⟩
  | awaiting key =>
      obtain ⟨u, hsu, hu, hready⟩ := transfer_ends mode ha h htask hrated
      obtain ⟨t, task', τ, hut, hdone⟩ := ready_ends mode hrated left (hsu.alone ha) hu hready
      exact ⟨t, task', τ, hsu.trans hut, hdone⟩
  | finished τ => exact ⟨s, _, τ, Relation.ReflTransGen.refl, htask, rfl, rfl, rfl⟩

end Done

/-! ## §7. What a list of charges costs. -/

/-- **These charges advance the clock by exactly `cost`**, in every run in which no other
transfer overlaps with theirs on a channel: a task that is done took `cost`; one that is
not is not late; and with the rest of the loop still it gets done. -/
def Costs (mode : Contention) (charges : List (Charge χ)) (cost : ℚ) : Prop :=
  ∀ (x : ℕ) (s : Loop χ), ((Loop.machine χ mode).guarded (Loop.Undisturbed x)).Reachable s →
    ∀ task, s.tasks.get? x = some task → task.charges = charges →
      (∀ τ, task.phase = .finished τ → τ = task.started + cost) ∧
      ((∀ τ, task.phase ≠ .finished τ) → s.clock ≤ task.started + cost) ∧
      ∀ capacities, Unrivalled capacities x s → ∃ t task', Follows mode x s t ∧
        t.tasks.get? x = some task' ∧ task'.charges = charges ∧
        task'.started = task.started ∧ task'.phase = .finished (task.started + cost)

/-- **Charges cost the sum of their solo costs**, under every contention model. -/
theorem costs_total (mode : Contention) {charges : List (Charge χ)}
    (hrated : ∀ charge ∈ charges, charge.WellRated) : Costs mode charges (total charges) := by
  intro x s hs task htask hcharges
  have halone := alone_of_run hs
  have htrated : task.WellRated := by
    unfold Task.WellRated
    rw [hcharges]
    exact hrated
  have hdeadline : task.deadline = task.started + total charges := by
    unfold Task.deadline
    rw [hcharges]
  refine ⟨?_, ?_, ?_⟩
  · intro τ hdone
    have htime := halone.onTime task htask
    unfold Task.OnTime at htime
    rw [hdone] at htime
    rw [← hdeadline]
    exact htime htrated
  · intro hgoing
    rw [← hdeadline]
    exact halone.clock_le htask htrated hgoing
  · intro capacities hrest
    obtain ⟨t, task', τ, hst, htask', hcharges', hstarted, hdone⟩ :=
      gets_done mode halone hrest htask htrated
    refine ⟨t, task', hst, htask', hcharges'.trans hcharges, hstarted, ?_⟩
    -- it gets done on time
    have htime := (hst.alone halone).onTime task' htask'
    unfold Task.OnTime at htime
    rw [hdone] at htime
    have hend : τ = task'.deadline := by
      refine htime ?_
      unfold Task.WellRated
      rw [hcharges', hcharges]
      exact hrated
    rw [hdone, hend]
    unfold Task.deadline
    rw [hcharges', hcharges, hstarted]

/-- **There is a run in which they are done**: called on a fresh loop, they finish. -/
theorem Costs.finishes {mode : Contention} {charges : List (Charge χ)} {cost : ℚ}
    (h : Costs mode charges cost) (capacities : χ → ℚ)
    (hcarried : ∀ charge ∈ charges, charge.Carries capacities) :
    ∃ s task, ((Loop.machine χ mode).guarded (Loop.Undisturbed 0)).Reachable s ∧
      s.tasks.get? 0 = some task ∧ task.charges = charges ∧
      task.phase = .finished (task.started + cost) := by
  have hcalled : ((Loop.machine χ mode).guarded (Loop.Undisturbed 0)).Reachable
      (Loop.initial.setTask 0 ⟨0, charges, charges, .ready⟩) := by
    refine .step (e := .call 0 charges) (.init rfl) ⟨trivial, ?_⟩
    rfl
  have htask : (Loop.initial.setTask 0 (⟨0, charges, charges, .ready⟩ : Task χ)).tasks.get? 0
      = some ⟨0, charges, charges, .ready⟩ := Loop.get?_setTask_self _ _ _
  have hrest : Unrivalled capacities 0
      (Loop.initial.setTask 0 (⟨0, charges, charges, .ready⟩ : Task χ)) := by
    refine ⟨?_, ?_, ?_, ?_⟩
    · intro id task hid hget
      rw [Loop.get?_setTask_ne _ _ (Ne.symm hid)] at hget
      cases hget
    · intro key c hc
      cases hc
    · intro key c hc
      cases hc
    · intro task hget
      rw [htask] at hget
      cases hget
      exact hcarried
  obtain ⟨t, task, hsteps, hget, hcharges, hstarted, hdone⟩ :=
    (h 0 _ hcalled _ htask rfl).2.2 capacities hrest
  refine ⟨t, task, hcalled.of_steps hsteps, hget, hcharges, ?_⟩
  rw [hstarted]
  exact hdone

end Undisturbed

end Toso.SimCommon
