/-
  Toso.SimCommon.AsyncEngine — the event loop on a virtual clock.

  `_run_once` with the queues it drives: timers on a heap ordered by
  `(when, seq)` with cancelled ones deleted lazily, a ready queue drained in
  batches, an optional shuffle of a batch.  A program is what the callbacks do
  when they run: make handles, cancel them, complete the awaited future.  The
  log is what an observer sees, newest first.

  Main results:
    * `Sound.runEntry` — what one callback keeps, whatever it does.
    * `Sound.runOnce` — what one tick keeps, and what it ran.
    * `engine_orderly` — over every run: when the clock moves, when a handle
      runs and that it does, and when the run ends in a deadlock.
-/
import Toso.Lib.Heap
import Mathlib.Order.Lattice
import Mathlib.Order.Defs.LinearOrder
import Mathlib.Data.List.Perm.Basic
import Mathlib.Data.List.Nodup
import Mathlib.Data.List.TakeWhile

namespace Toso.SimCommon

open Lib

/-! ## §1. Handles and programs. -/

/-- The virtual clock's readings and what a delay adds to one; no delay is
negative. -/
structure Timeline (T D : Type*) [LE T] where
  zero : T
  plus : T → D → T
  le_plus : ∀ t d, t ≤ plus t d

/-- A handle: which callback it runs, its `_when` if it is a timer, and when it
was made. -/
structure Handle (T κ : Type*) where
  id : ℕ
  callback : κ
  deadline : Option T
  made : T
  deriving DecidableEq

/-- The larger of its deadline and the time it was scheduled. -/
def Handle.due {T κ : Type*} [LinearOrder T] (h : Handle T κ) : T :=
  match h.deadline with
  | some w => max w h.made
  | none => h.made

/-- What a callback asks of the loop. -/
inductive Action (T D κ : Type*)
  | callSoon (callback : κ)
  | callAt (when_ : T) (callback : κ)
  | callLater (delay : D) (callback : κ)
  | cancel (id : ℕ)
  /-- Complete the future `run_until_complete` awaits. -/
  | finish

/-- What the callbacks do: from the program's own state, the time and the id the
next handle will have, the actions of a callback in order. -/
structure Program (T D κ σ : Type*) where
  run : σ → T → ℕ → κ → σ × List (Action T D κ)

/-- A `_SeqTimerHandle`. -/
structure Timer (T κ : Type*) where
  when_ : T
  seq : ℕ
  handle : Handle T κ

/-- `_SeqTimerHandle.__lt__`. -/
def Timer.Before {T κ : Type*} [LinearOrder T] (a b : Timer T κ) : Prop :=
  a.when_ < b.when_ ∨ a.when_ = b.when_ ∧ a.seq < b.seq

instance {T κ : Type*} [LinearOrder T] (a b : Timer T κ) : Decidable (a.Before b) :=
  inferInstanceAs (Decidable (a.when_ < b.when_ ∨ a.when_ = b.when_ ∧ a.seq < b.seq))

/-- An entry of the ready queue; `stop` is `_run_until_complete_cb`, which no
program holds a handle to. -/
inductive Entry (T κ : Type*)
  | handle (h : Handle T κ)
  | stop

/-- What an observer sees. -/
inductive Event (T κ : Type*)
  | made (h : Handle T κ)
  | cancelled (id : ℕ)
  | advanced (timer : Handle T κ) (reading : T)
  | ran (h : Handle T κ) (time : T)

/-! ## §2. The loop. -/

/-- `AsyncEngine`.  `cancelled` are the ids of the handles whose `_cancelled`
flag is up, `done` whether the awaited future is. -/
structure AsyncEngine (T κ σ : Type*) where
  clock : T
  ready : List (Entry T κ)
  scheduled : List (Timer T κ)
  cancelled : List ℕ
  timerSeq : ℕ
  nextId : ℕ
  done : Bool
  stopping : Bool
  program : σ
  log : List (Event T κ)

/-- `_rng.shuffle(order)` applied to the batch of a tick; any seed, any state of
the generator. -/
structure Shuffle (T κ : Type*) where
  batch : ℕ → List (Entry T κ) → List (Entry T κ)
  perm : ∀ n l, (batch n l).Perm l

/-- The default order. -/
def fifo (T κ : Type*) : Shuffle T κ := ⟨fun _ l => l, fun _ l => List.Perm.refl l⟩

variable {T D κ σ : Type*} [LinearOrder T]

namespace AsyncEngine

/-- `call_soon`. -/
def callSoon (callback : κ) (s : AsyncEngine T κ σ) : AsyncEngine T κ σ :=
  let h : Handle T κ := ⟨s.nextId, callback, none, s.clock⟩
  { s with ready := s.ready ++ [.handle h], nextId := s.nextId + 1, log := .made h :: s.log }

/-- `call_at`. -/
def callAt (when_ : T) (callback : κ) (s : AsyncEngine T κ σ) : AsyncEngine T κ σ :=
  let h : Handle T κ := ⟨s.nextId, callback, some when_, s.clock⟩
  { s with
    scheduled := heappush Timer.Before ⟨when_, s.timerSeq, h⟩ s.scheduled
    timerSeq := s.timerSeq + 1
    nextId := s.nextId + 1
    log := .made h :: s.log }

/-- `Handle.cancel`, of a handle that exists. -/
def cancel (id : ℕ) (s : AsyncEngine T κ σ) : AsyncEngine T κ σ :=
  if id < s.nextId then
    { s with cancelled := id :: s.cancelled, log := .cancelled id :: s.log }
  else s

/-- Completing the awaited future schedules its done-callback. -/
def finish (s : AsyncEngine T κ σ) : AsyncEngine T κ σ :=
  if s.done then s else { s with done := true, ready := s.ready ++ [.stop] }

/-- One action of a callback. -/
def perform (τ : Timeline T D) (s : AsyncEngine T κ σ) : Action T D κ → AsyncEngine T κ σ
  | .callSoon callback => s.callSoon callback
  | .callAt when_ callback => s.callAt when_ callback
  | .callLater delay callback => s.callAt (τ.plus s.clock delay) callback
  | .cancel id => s.cancel id
  | .finish => s.finish

/-- One entry of the batch: a cancelled handle is skipped, another one runs. -/
def runEntry (τ : Timeline T D) (prog : Program T D κ σ) (s : AsyncEngine T κ σ) :
    Entry T κ → AsyncEngine T κ σ
  | .stop => { s with stopping := true }
  | .handle h =>
      if h.id ∈ s.cancelled then s
      else
        let r := prog.run s.program s.clock s.nextId h.callback
        r.2.foldl (perform τ) { s with program := r.1, log := .ran h s.clock :: s.log }

/-- Step 1 of `_run_once`: drop cancelled timers at the head of the schedule. -/
def dropCancelled (s : AsyncEngine T κ σ) : AsyncEngine T κ σ :=
  { s with scheduled := s.scheduled.dropWhile fun t => t.handle.id ∈ s.cancelled }

/-- Step 2: with nothing ready, jump to the earliest timer; with no timer either,
the deadlock error. -/
def advance (s : AsyncEngine T κ σ) : Option (AsyncEngine T κ σ) :=
  if s.ready.isEmpty && !s.stopping then
    match s.scheduled with
    | t :: _ =>
        if t.when_ > s.clock then
          some { s with clock := t.when_, log := .advanced t.handle t.when_ :: s.log }
        else some s
    | [] => none
  else some s

/-- Step 3: every timer now due goes to the ready queue. -/
def moveDue (s : AsyncEngine T κ σ) : AsyncEngine T κ σ :=
  { s with
    ready := s.ready
      ++ (s.scheduled.takeWhile fun t => t.when_ ≤ s.clock).map fun t => .handle t.handle
    scheduled := s.scheduled.dropWhile fun t => t.when_ ≤ s.clock }

/-- Step 4: run the callbacks ready at the start, in the order of the tick. -/
def drain (τ : Timeline T D) (prog : Program T D κ σ)
    (order : List (Entry T κ) → List (Entry T κ)) (s : AsyncEngine T κ σ) :
    AsyncEngine T κ σ :=
  (order s.ready).foldl (runEntry τ prog) { s with ready := [] }

/-- `_run_once`; `none` is the deadlock error. -/
def runOnce (τ : Timeline T D) (prog : Program T D κ σ)
    (order : List (Entry T κ) → List (Entry T κ)) (s : AsyncEngine T κ σ) :
    Option (AsyncEngine T κ σ) :=
  (s.dropCancelled.advance).map fun s => s.moveDue.drain τ prog order

end AsyncEngine

/-- Where `run_until_complete` stands. -/
inductive Status (T κ σ : Type*)
  | running (s : AsyncEngine T κ σ)
  /-- The awaited future's done-callback stopped the loop. -/
  | stopped (s : AsyncEngine T κ σ)
  /-- The deadlock error was raised. -/
  | deadlocked (s : AsyncEngine T κ σ)

/-- The loop as it stands. -/
def Status.engine : Status T κ σ → AsyncEngine T κ σ
  | .running s => s
  | .stopped s => s
  | .deadlocked s => s

/-- One run of a program: what is scheduled before it starts, and what its
callbacks do. -/
structure EngineRun (T D κ σ : Type*) [LE T] where
  timeline : Timeline T D
  program : Program T D κ σ
  state : σ
  start : List (Action T D κ)
  shuffle : Shuffle T κ

namespace EngineRun

/-- The loop when `run_until_complete` is called. -/
def initial (r : EngineRun T D κ σ) : AsyncEngine T κ σ :=
  r.start.foldl (AsyncEngine.perform r.timeline)
    ⟨r.timeline.zero, [], [], [], 0, 0, false, false, r.state, []⟩

/-- One iteration of `run_forever`: a tick, then the check of `_stopping`. -/
def tick (r : EngineRun T D κ σ) (n : ℕ) : Status T κ σ → Status T κ σ
  | .running s =>
      match s.runOnce r.timeline r.program (r.shuffle.batch n) with
      | none => .deadlocked s
      | some s' => if s'.stopping then .stopped s' else .running s'
  | .stopped s => .stopped s
  | .deadlocked s => .deadlocked s

/-- The status after so many ticks. -/
def status (r : EngineRun T D κ σ) : ℕ → Status T κ σ
  | 0 => .running r.initial
  | n + 1 => r.tick n (r.status n)

/-- The loop after so many ticks. -/
def after (r : EngineRun T D κ σ) (n : ℕ) : AsyncEngine T κ σ := (r.status n).engine

end EngineRun

/-! ## §3. What a log must look like. -/

/-- A lawful log: a handle runs on time, at most once, and neither after its
cancellation nor before it was made; the clock is moved to the deadline of a
timer that was made, not cancelled and not run. -/
def Lawful : List (Event T κ) → Prop
  | [] => True
  | .made _ :: rest => Lawful rest
  | .cancelled _ :: rest => Lawful rest
  | .advanced h reading :: rest =>
      h.deadline = some reading ∧ .made h ∈ rest ∧ .cancelled h.id ∉ rest ∧
        (∀ t, .ran h t ∉ rest) ∧ Lawful rest
  | .ran h time :: rest =>
      time = h.due ∧ .made h ∈ rest ∧ .cancelled h.id ∉ rest ∧
        (∀ t, .ran h t ∉ rest) ∧ Lawful rest

/-- Only a handle that was made ran. -/
theorem ran_made {log : List (Event T κ)} {h : Handle T κ} {t : T} (hlog : Lawful log)
    (hran : Event.ran h t ∈ log) : Event.made h ∈ log := by
  induction log with
  | nil => cases hran
  | cons e rest ih =>
      rcases List.mem_cons.mp hran with heq | hin
      · subst heq
        exact List.mem_cons_of_mem _ hlog.2.1
      · apply List.mem_cons_of_mem
        cases e with
        | made => exact ih hlog hin
        | cancelled => exact ih hlog hin
        | advanced => exact ih hlog.2.2.2.2 hin
        | ran => exact ih hlog.2.2.2.2 hin

/-- The handles among some entries. -/
def handles (es : List (Entry T κ)) : List (Handle T κ) :=
  es.filterMap fun
    | .handle h => some h
    | .stop => none

omit [LinearOrder T] in
@[simp] theorem mem_handles {es : List (Entry T κ)} {h : Handle T κ} :
    h ∈ handles es ↔ Entry.handle h ∈ es := by
  unfold handles
  rw [List.mem_filterMap]
  constructor
  · rintro ⟨e, he, hh⟩
    cases e with
    | handle h' =>
        injection hh with hh
        exact hh ▸ he
    | stop => cases hh
  · intro h
    exact ⟨_, h, rfl⟩

omit [LinearOrder T] in
@[simp] theorem handles_append (es fs : List (Entry T κ)) :
    handles (es ++ fs) = handles es ++ handles fs := List.filterMap_append

namespace AsyncEngine

/-- The handles that still wait: in the rest of the batch, in the ready queue,
on the heap. -/
def waiting (s : AsyncEngine T κ σ) (batch : List (Entry T κ)) : List (Handle T κ) :=
  handles (batch ++ s.ready) ++ s.scheduled.map Timer.handle

end AsyncEngine

/-- The books of a loop: its log against its clock, its next id, the flags that
are up and the handles that wait. -/
structure Booked (log : List (Event T κ)) (clock : T) (nextId : ℕ) (cancelled : List ℕ)
    (waiting : List (Handle T κ)) : Prop where
  lawful : Lawful log
  made : ∀ h, .made h ∈ log → h.id < nextId ∧ h.made ≤ clock
  unique : ∀ h, .made h ∈ log → ∀ h', .made h' ∈ log → h.id = h'.id → h = h'
  flagged : ∀ id, id ∈ cancelled ↔ .cancelled id ∈ log
  waits : ∀ h ∈ waiting, .made h ∈ log ∧ ∀ t, .ran h t ∉ log
  once : waiting.Nodup
  complete : ∀ h, .made h ∈ log →
    h ∈ waiting ∨ (∃ t, .ran h t ∈ log) ∨ h.id ∈ cancelled

/-- What holds between two callbacks, with `batch` still to drain. -/
structure AsyncEngine.Sound (s : AsyncEngine T κ σ) (batch : List (Entry T κ)) : Prop where
  booked : Booked s.log s.clock s.nextId s.cancelled (s.waiting batch)
  prompt : ∀ h, Entry.handle h ∈ batch ++ s.ready → h.due = s.clock
  timers : ∀ t ∈ s.scheduled, t.handle.deadline = some t.when_ ∧ s.clock ≤ t.handle.due
  sorted : s.scheduled.Pairwise Timer.Before
  numbered : ∀ t ∈ s.scheduled, t.seq < s.timerSeq
  stops : s.done = true → Entry.stop ∈ batch ++ s.ready ∨ s.stopping = true

/-! ## §4. The order of timers. -/

instance : IsTrans (Timer T κ) Timer.Before where
  trans a b c hab hbc := by
    rcases hab with h | ⟨h, h'⟩ <;> rcases hbc with g | ⟨g, g'⟩
    · exact .inl (h.trans g)
    · exact .inl (g ▸ h)
    · exact .inl (h ▸ g)
    · exact .inr ⟨h.trans g, h'.trans g'⟩

/-- A timer not before one of a smaller number is after it. -/
theorem Timer.before_of_not {t u : Timer T κ} (hseq : u.seq < t.seq) (h : ¬ t.Before u) :
    u.Before t := by
  rcases lt_trichotomy u.when_ t.when_ with hw | hw | hw
  · exact .inl hw
  · exact .inr ⟨hw, hseq⟩
  · exact absurd (.inl hw) h

/-! ## §5. The books, entry by entry. -/

namespace Booked

variable {log : List (Event T κ)} {clock : T} {nextId : ℕ} {cancelled : List ℕ}
  {w : List (Handle T κ)}

theorem perm (B : Booked log clock nextId cancelled w) {w' : List (Handle T κ)}
    (hw : w.Perm w') : Booked log clock nextId cancelled w' where
  lawful := B.lawful
  made := B.made
  unique := B.unique
  flagged := B.flagged
  waits h hh := B.waits h (hw.mem_iff.mpr hh)
  once := hw.nodup_iff.mp B.once
  complete h hh := (B.complete h hh).imp_left hw.mem_iff.mp

/-- A new handle waits. -/
theorem make (B : Booked log clock nextId cancelled w) {h : Handle T κ} (hid : h.id = nextId)
    (hmade : h.made = clock) :
    Booked (.made h :: log) clock (nextId + 1) cancelled (h :: w) where
  lawful := B.lawful
  made h' hh' := by
    rcases List.mem_cons.mp hh' with heq | hin
    · injection heq with heq
      subst heq
      exact ⟨by omega, le_of_eq hmade⟩
    · obtain ⟨hlt, hle⟩ := B.made h' hin
      exact ⟨by omega, hle⟩
  unique a ha b hb hab := by
    have hold : ∀ c, Event.made c ∈ log → c.id ≠ nextId := fun c hc => by
      have := (B.made c hc).1
      omega
    rcases List.mem_cons.mp ha with heq | hain <;> rcases List.mem_cons.mp hb with heq' | hbin
    · injection heq with heq
      injection heq' with heq'
      rw [heq, heq']
    · injection heq with heq
      exact absurd (hab.symm.trans (heq ▸ hid)) (hold b hbin)
    · injection heq' with heq'
      exact absurd (hab.trans (heq' ▸ hid)) (hold a hain)
    · exact B.unique a hain b hbin hab
  flagged id := by rw [B.flagged id]; simp
  waits a ha := by
    rcases List.mem_cons.mp ha with rfl | hain
    · refine ⟨List.mem_cons_self, fun t ht => ?_⟩
      -- only a made handle runs, and this one was not made before
      have hran : Event.ran a t ∈ log := by simpa using ht
      have hlog := B.lawful
      exact absurd (ran_made hlog hran) fun hm => by
        have := (B.made a hm).1
        omega
    · obtain ⟨hm, hnot⟩ := B.waits a hain
      exact ⟨List.mem_cons_of_mem _ hm, fun t ht => hnot t (by simpa using ht)⟩
  once := by
    refine List.nodup_cons.mpr ⟨fun hin => ?_, B.once⟩
    have := (B.made h (B.waits h hin).1).1
    omega
  complete a ha := by
    rcases List.mem_cons.mp ha with heq | hain
    · injection heq with heq
      exact .inl (heq ▸ List.mem_cons_self)
    · rcases B.complete a hain with hw | ⟨t, ht⟩ | hc
      · exact .inl (List.mem_cons_of_mem _ hw)
      · exact .inr (.inl ⟨t, List.mem_cons_of_mem _ ht⟩)
      · exact .inr (.inr hc)

/-- A flag goes up. -/
theorem cancel (B : Booked log clock nextId cancelled w) (id : ℕ) :
    Booked (.cancelled id :: log) clock nextId (id :: cancelled) w where
  lawful := B.lawful
  made h hh := B.made h (by simpa using hh)
  unique a ha b hb := B.unique a (by simpa using ha) b (by simpa using hb)
  flagged i := by simp [B.flagged i]
  waits h hh := by simpa using B.waits h hh
  once := B.once
  complete h hh := by
    rcases B.complete h (by simpa using hh) with hw | ⟨t, ht⟩ | hc
    · exact .inl hw
    · exact .inr (.inl ⟨t, List.mem_cons_of_mem _ ht⟩)
    · exact .inr (.inr (List.mem_cons_of_mem _ hc))

/-- A cancelled handle stops waiting. -/
theorem skip {h : Handle T κ} (B : Booked log clock nextId cancelled (h :: w))
    (hc : h.id ∈ cancelled) : Booked log clock nextId cancelled w where
  lawful := B.lawful
  made := B.made
  unique := B.unique
  flagged := B.flagged
  waits a ha := B.waits a (List.mem_cons_of_mem _ ha)
  once := (List.nodup_cons.mp B.once).2
  complete a ha := by
    rcases B.complete a ha with hw | hrest
    · rcases List.mem_cons.mp hw with rfl | hw
      · exact .inr (.inr hc)
      · exact .inl hw
    · exact .inr hrest

/-- A handle whose flag is down runs, on time. -/
theorem run {h : Handle T κ} (B : Booked log clock nextId cancelled (h :: w))
    (hdue : h.due = clock) (hc : h.id ∉ cancelled) :
    Booked (.ran h clock :: log) clock nextId cancelled w where
  lawful := by
    obtain ⟨hm, hnot⟩ := B.waits h List.mem_cons_self
    exact ⟨hdue.symm, hm, fun hin => hc ((B.flagged _).mpr hin), hnot, B.lawful⟩
  made a ha := B.made a (by simpa using ha)
  unique a ha b hb := B.unique a (by simpa using ha) b (by simpa using hb)
  flagged i := by simp [B.flagged i]
  waits a ha := by
    obtain ⟨hm, hnot⟩ := B.waits a (List.mem_cons_of_mem _ ha)
    refine ⟨List.mem_cons_of_mem _ hm, fun t ht => ?_⟩
    rcases List.mem_cons.mp ht with heq | hin
    · injection heq with heq
      exact (List.nodup_cons.mp B.once).1 (heq ▸ ha)
    · exact hnot t hin
  once := (List.nodup_cons.mp B.once).2
  complete a ha := by
    rcases B.complete a (by simpa using ha) with hw | ⟨t, ht⟩ | hc'
    · rcases List.mem_cons.mp hw with rfl | hw
      · exact .inr (.inl ⟨clock, List.mem_cons_self⟩)
      · exact .inl hw
    · exact .inr (.inl ⟨t, List.mem_cons_of_mem _ ht⟩)
    · exact .inr (.inr hc')

/-- The clock is moved to a timer that waits, its flag down. -/
theorem advance (B : Booked log clock nextId cancelled w) {h : Handle T κ} {reading : T}
    (hw : h ∈ w) (hdeadline : h.deadline = some reading) (hc : h.id ∉ cancelled)
    (hle : clock ≤ reading) :
    Booked (.advanced h reading :: log) reading nextId cancelled w where
  lawful := by
    obtain ⟨hm, hnot⟩ := B.waits h hw
    exact ⟨hdeadline, hm, fun hin => hc ((B.flagged _).mpr hin), hnot, B.lawful⟩
  made a ha := by
    obtain ⟨hlt, hmade⟩ := B.made a (by simpa using ha)
    exact ⟨hlt, hmade.trans hle⟩
  unique a ha b hb := B.unique a (by simpa using ha) b (by simpa using hb)
  flagged i := by simp [B.flagged i]
  waits a ha := by simpa using B.waits a ha
  once := B.once
  complete a ha := by simpa using B.complete a (by simpa using ha)

end Booked

/-! ## §6. One callback. -/

namespace AsyncEngine

variable (τ : Timeline T D) (prog : Program T D κ σ)

/-- What no callback takes back. -/
structure Follows (s s' : AsyncEngine T κ σ) : Prop where
  clock : s'.clock = s.clock
  log : s.log <:+ s'.log
  cancelled : s.cancelled <:+ s'.cancelled

omit [LinearOrder T] in
theorem Follows.refl (s : AsyncEngine T κ σ) : Follows s s :=
  ⟨rfl, List.suffix_refl _, List.suffix_refl _⟩

omit [LinearOrder T] in
theorem Follows.trans {a b c : AsyncEngine T κ σ} (hab : Follows a b) (hbc : Follows b c) :
    Follows a c :=
  ⟨hbc.clock.trans hab.clock, hab.log.trans hbc.log, hab.cancelled.trans hbc.cancelled⟩

theorem perform_follows (s : AsyncEngine T κ σ) (a : Action T D κ) :
    Follows s (s.perform τ a) := by
  have hat : ∀ w k, Follows s (s.callAt w k) := fun _ _ =>
    ⟨rfl, List.suffix_cons _ _, List.suffix_refl _⟩
  cases a with
  | callSoon k => exact ⟨rfl, List.suffix_cons _ _, List.suffix_refl _⟩
  | callAt w k => exact hat w k
  | callLater d k => exact hat _ k
  | cancel id =>
      show Follows s (s.cancel id)
      unfold cancel
      split
      · exact ⟨rfl, List.suffix_cons _ _, List.suffix_cons _ _⟩
      · exact Follows.refl s
  | finish =>
      show Follows s s.finish
      unfold finish
      split
      · exact Follows.refl s
      · exact ⟨rfl, List.suffix_refl _, List.suffix_refl _⟩

theorem performs_follows (acts : List (Action T D κ)) :
    ∀ s : AsyncEngine T κ σ, Follows s (acts.foldl (perform τ) s) := by
  induction acts with
  | nil => intro s; exact Follows.refl s
  | cons a acts ih => intro s; exact (perform_follows τ s a).trans (ih _)

theorem performs_stopping (acts : List (Action T D κ)) :
    ∀ s : AsyncEngine T κ σ, (acts.foldl (perform τ) s).stopping = s.stopping := by
  induction acts with
  | nil => intro s; rfl
  | cons a acts ih =>
      intro s
      rw [List.foldl_cons, ih]
      cases a with
      | cancel id =>
          show (s.cancel id).stopping = s.stopping
          unfold cancel
          split <;> rfl
      | finish =>
          show s.finish.stopping = s.stopping
          unfold finish
          split <;> rfl
      | _ => rfl

/-- The loop as a callback finds it: the program moved on, the run is logged. -/
def started (s : AsyncEngine T κ σ) (h : Handle T κ) : AsyncEngine T κ σ :=
  { s with
    program := (prog.run s.program s.clock s.nextId h.callback).1
    log := .ran h s.clock :: s.log }

theorem runEntry_skip {s : AsyncEngine T κ σ} {h : Handle T κ} (hc : h.id ∈ s.cancelled) :
    s.runEntry τ prog (.handle h) = s := if_pos hc

theorem runEntry_run {s : AsyncEngine T κ σ} {h : Handle T κ} (hc : h.id ∉ s.cancelled) :
    s.runEntry τ prog (.handle h)
      = (prog.run s.program s.clock s.nextId h.callback).2.foldl (perform τ) (s.started prog h) :=
  if_neg hc

omit [LinearOrder T] in
theorem started_follows (s : AsyncEngine T κ σ) (h : Handle T κ) :
    Follows s (s.started prog h) :=
  ⟨rfl, List.suffix_cons _ _, List.suffix_refl _⟩

theorem runEntry_follows (s : AsyncEngine T κ σ) (e : Entry T κ) :
    Follows s (s.runEntry τ prog e) := by
  cases e with
  | stop => exact ⟨rfl, List.suffix_refl _, List.suffix_refl _⟩
  | handle h =>
      by_cases hc : h.id ∈ s.cancelled
      · rw [runEntry_skip τ prog hc]
        exact Follows.refl s
      · rw [runEntry_run τ prog hc]
        exact (started_follows prog s h).trans (performs_follows τ _ _)

theorem drain_follows (batch : List (Entry T κ)) :
    ∀ s : AsyncEngine T κ σ, Follows s (batch.foldl (runEntry τ prog) s) := by
  induction batch with
  | nil => intro s; exact Follows.refl s
  | cons e batch ih => intro s; exact (runEntry_follows τ prog s e).trans (ih _)

/-- A handle that ran, or never will. -/
def Settled (s : AsyncEngine T κ σ) (h : Handle T κ) : Prop :=
  (∃ t, .ran h t ∈ s.log) ∨ h.id ∈ s.cancelled

omit [LinearOrder T] in
theorem Follows.settled {s s' : AsyncEngine T κ σ} (F : Follows s s') {h : Handle T κ}
    (hs : s.Settled h) : s'.Settled h :=
  hs.imp (fun ⟨t, ht⟩ => ⟨t, F.log.subset ht⟩) fun hc => F.cancelled.subset hc

/-- An entry of the batch is settled by its own turn. -/
theorem runEntry_settles (s : AsyncEngine T κ σ) (h : Handle T κ) :
    (s.runEntry τ prog (.handle h)).Settled h := by
  by_cases hc : h.id ∈ s.cancelled
  · rw [runEntry_skip τ prog hc]
    exact .inr hc
  · rw [runEntry_run τ prog hc]
    exact (performs_follows τ _ _).settled (.inl ⟨s.clock, List.mem_cons_self⟩)

theorem drain_settles (batch : List (Entry T κ)) : ∀ (s : AsyncEngine T κ σ) {h : Handle T κ},
    Entry.handle h ∈ batch → (batch.foldl (runEntry τ prog) s).Settled h := by
  induction batch with
  | nil => intro s h hh; cases hh
  | cons e batch ih =>
      intro s h hh
      rcases List.mem_cons.mp hh with rfl | hrest
      · exact (drain_follows τ prog batch _).settled (runEntry_settles τ prog s h)
      · exact ih _ hrest

namespace Sound

variable {s : AsyncEngine T κ σ} {batch : List (Entry T κ)}

theorem callSoon (S : Sound s batch) (k : κ) : Sound (s.callSoon k) batch where
  booked := by
    refine (S.booked.make (h := ⟨s.nextId, k, none, s.clock⟩) rfl rfl).perm ?_
    unfold waiting AsyncEngine.callSoon
    simp only [handles_append, List.append_assoc]
    rw [← List.append_assoc, ← List.append_assoc (handles batch)]
    exact List.perm_middle.symm
  prompt h hh := by
    rcases List.mem_append.mp hh with hin | hin
    · exact S.prompt h (List.mem_append_left _ hin)
    · rcases List.mem_append.mp hin with hin | hin
      · exact S.prompt h (List.mem_append_right _ hin)
      · simp only [List.mem_singleton, Entry.handle.injEq] at hin
        rw [hin]
        rfl
  timers := S.timers
  sorted := S.sorted
  numbered := S.numbered
  stops hd := by
    refine (S.stops hd).imp_left fun hin => ?_
    show Entry.stop ∈ batch ++ (s.ready ++ _)
    rw [← List.append_assoc]
    exact List.mem_append_left _ hin

theorem callAt (S : Sound s batch) (w : T) (k : κ) : Sound (s.callAt w k) batch where
  booked := by
    refine (S.booked.make (h := ⟨s.nextId, k, some w, s.clock⟩) rfl rfl).perm ?_
    unfold waiting AsyncEngine.callAt
    have hpush := (heappush_perm Timer.Before
      ⟨w, s.timerSeq, ⟨s.nextId, k, some w, s.clock⟩⟩ s.scheduled).map Timer.handle
    exact (List.perm_middle.symm.trans (hpush.symm.append_left _))
  prompt := S.prompt
  timers t ht := by
    rcases (mem_heappush Timer.Before).mp ht with rfl | hin
    · exact ⟨rfl, le_max_right _ _⟩
    · exact S.timers t hin
  sorted := heappush_sorted Timer.Before S.sorted fun u hu =>
    Timer.before_of_not (S.numbered u hu)
  numbered t ht := by
    rcases (mem_heappush Timer.Before).mp ht with rfl | hin
    · exact Nat.lt_succ_self _
    · exact Nat.lt_succ_of_lt (S.numbered t hin)
  stops := S.stops

theorem cancel (S : Sound s batch) (id : ℕ) : Sound (s.cancel id) batch := by
  unfold AsyncEngine.cancel
  split
  · exact ⟨S.booked.cancel id, S.prompt, S.timers, S.sorted, S.numbered, S.stops⟩
  · exact S

theorem finish (S : Sound s batch) : Sound s.finish batch := by
  unfold AsyncEngine.finish
  split
  · exact S
  · refine ⟨?_, ?_, S.timers, S.sorted, S.numbered, ?_⟩
    · have hsame : s.waiting batch
          = AsyncEngine.waiting { s with done := true, ready := s.ready ++ [.stop] } batch := by
        unfold waiting
        simp [handles]
      rw [← hsame]
      exact S.booked
    · intro h hh
      refine S.prompt h ?_
      simpa using hh
    · intro _
      exact .inl (by simp)

/-- **One action keeps the loop sound.** -/
theorem perform (S : Sound s batch) (a : Action T D κ) : Sound (s.perform τ a) batch := by
  cases a with
  | callSoon k => exact S.callSoon k
  | callAt w k => exact S.callAt w k
  | callLater d k => exact S.callAt _ k
  | cancel id => exact S.cancel id
  | finish => exact S.finish

theorem performs (acts : List (Action T D κ)) :
    ∀ {s : AsyncEngine T κ σ}, Sound s batch → Sound (acts.foldl (AsyncEngine.perform τ) s) batch := by
  induction acts with
  | nil => intro s S; exact S
  | cons a acts ih => intro s S; exact ih (S.perform τ a)

/-- **One entry of the batch keeps the loop sound**, whatever its callback does. -/
theorem runEntry {e : Entry T κ} (S : Sound s (e :: batch)) :
    Sound (s.runEntry τ prog e) batch := by
  cases e with
  | stop =>
      exact ⟨S.booked, fun h hh => S.prompt h (List.mem_cons_of_mem _ hh), S.timers, S.sorted,
        S.numbered, fun _ => .inr rfl⟩
  | handle h =>
      have hprompt : ∀ h', Entry.handle h' ∈ batch ++ s.ready → h'.due = s.clock :=
        fun h' hh => S.prompt h' (List.mem_cons_of_mem _ hh)
      have hstops : s.done = true → Entry.stop ∈ batch ++ s.ready ∨ s.stopping = true := by
        intro hd
        refine (S.stops hd).imp_left fun hin => ?_
        simpa using hin
      have hbooked : Booked s.log s.clock s.nextId s.cancelled (h :: s.waiting batch) := S.booked
      by_cases hc : h.id ∈ s.cancelled
      · rw [runEntry_skip τ prog hc]
        exact ⟨hbooked.skip hc, hprompt, S.timers, S.sorted, S.numbered, hstops⟩
      · rw [runEntry_run τ prog hc]
        have hdue : h.due = s.clock := S.prompt h List.mem_cons_self
        apply performs τ
        exact ⟨hbooked.run hdue hc, hprompt, S.timers, S.sorted, S.numbered, hstops⟩

theorem drain (batch : List (Entry T κ)) : ∀ {s : AsyncEngine T κ σ}, Sound s batch →
    Sound (batch.foldl (AsyncEngine.runEntry τ prog) s) [] := by
  induction batch with
  | nil => intro s S; exact S
  | cons e batch ih => intro s S; exact ih (S.runEntry τ prog)

end Sound

/-! ## §7. One tick. -/

/-- Dropping cancelled heads only drops handles that are cancelled. -/
theorem booked_dropWhile {log : List (Event T κ)} {clock : T} {nextId : ℕ} {cancelled : List ℕ}
    (pre : List (Handle T κ)) (l : List (Timer T κ)) :
    Booked log clock nextId cancelled (pre ++ l.map Timer.handle) →
      Booked log clock nextId cancelled
        (pre ++ (l.dropWhile fun t => t.handle.id ∈ cancelled).map Timer.handle) := by
  induction l with
  | nil => exact id
  | cons t l ih =>
      intro B
      by_cases hc : t.handle.id ∈ cancelled
      · rw [List.dropWhile_cons_of_pos (by simpa using hc)]
        exact ih ((B.perm List.perm_middle).skip hc)
      · rw [List.dropWhile_cons_of_neg (by simpa using hc)]
        exact B

theorem Sound.dropCancelled {s : AsyncEngine T κ σ} (S : Sound s []) :
    Sound s.dropCancelled [] where
  booked := booked_dropWhile _ _ S.booked
  prompt := S.prompt
  timers t ht := S.timers t ((List.dropWhile_suffix _).subset ht)
  sorted := S.sorted.sublist (List.dropWhile_sublist _)
  numbered t ht := S.numbered t ((List.dropWhile_suffix _).subset ht)
  stops := S.stops

/-- **Everything step 2 can do.** -/
theorem advance_cases (s : AsyncEngine T κ σ) :
    (s.ready = [] ∧ s.stopping = false ∧ s.scheduled = [] ∧ s.advance = none) ∨
    (s.advance = some s ∧ (s.ready ≠ [] ∨ s.stopping = true ∨
      ∃ t ∈ s.scheduled, t.when_ ≤ s.clock)) ∨
    (s.ready = [] ∧ ∃ t rest, s.scheduled = t :: rest ∧ s.clock < t.when_ ∧
      s.advance = some { s with clock := t.when_, log := .advanced t.handle t.when_ :: s.log }) := by
  unfold advance
  by_cases hidle : s.ready = [] ∧ s.stopping = false
  · rw [if_pos (by simp [hidle.1, hidle.2])]
    cases hs : s.scheduled with
    | nil => exact .inl ⟨hidle.1, hidle.2, rfl, rfl⟩
    | cons t rest =>
        by_cases hlate : t.when_ > s.clock
        · refine .inr (.inr ⟨hidle.1, t, rest, rfl, hlate, ?_⟩)
          show (if t.when_ > s.clock then _ else _) = _
          rw [if_pos hlate]
        · refine .inr (.inl ⟨?_, .inr (.inr ⟨t, List.mem_cons_self, not_lt.mp hlate⟩)⟩)
          show (if t.when_ > s.clock then _ else _) = _
          rw [if_neg hlate]
  · have hbusy : (s.ready.isEmpty && !s.stopping) = false := by
      by_contra h
      rw [Bool.not_eq_false, Bool.and_eq_true, List.isEmpty_iff, Bool.not_eq_true'] at h
      exact hidle h
    rw [if_neg (by simp [hbusy])]
    refine .inr (.inl ⟨rfl, ?_⟩)
    by_cases hr : s.ready = []
    · exact .inr (.inl (by simpa using fun h => hidle ⟨hr, h⟩))
    · exact .inl hr

/-- The clock is moved to the head of the heap: no timer is due before. -/
theorem Sound.jump {s : AsyncEngine T κ σ} (S : Sound s []) {t : Timer T κ}
    {rest : List (Timer T κ)} (hready : s.ready = []) (hs : s.scheduled = t :: rest)
    (hlate : s.clock < t.when_) (hlive : t.handle.id ∉ s.cancelled) :
    Sound { s with clock := t.when_, log := .advanced t.handle t.when_ :: s.log } [] where
  booked := by
    have hin : t ∈ s.scheduled := hs ▸ List.mem_cons_self
    exact S.booked.advance (List.mem_append_right _ (List.mem_map_of_mem hin))
      (S.timers t hin).1 hlive (le_of_lt hlate)
  prompt h hh := by
    have hin : Entry.handle h ∈ [] ++ s.ready := hh
    rw [hready] at hin
    cases hin
  timers u hu := by
    obtain ⟨hdeadline, _⟩ := S.timers u hu
    refine ⟨hdeadline, ?_⟩
    have hle : t.when_ ≤ u.when_ := by
      have hu' : u ∈ t :: rest := hs ▸ hu
      rcases List.mem_cons.mp hu' with rfl | hin
      · exact le_refl _
      · have hpair := S.sorted
        rw [hs, List.pairwise_cons] at hpair
        rcases hpair.1 u hin with h | h
        · exact le_of_lt h
        · exact le_of_eq h.1
    unfold Handle.due
    rw [hdeadline]
    exact hle.trans (le_max_left _ _)
  sorted := S.sorted
  numbered := S.numbered
  stops := S.stops

/-- Every timer due is at the front of the heap. -/
theorem mem_takeWhile_due {l : List (Timer T κ)} {c : T} (hl : l.Pairwise Timer.Before)
    {t : Timer T κ} (ht : t ∈ l) (hdue : t.when_ ≤ c) :
    t ∈ l.takeWhile fun t => t.when_ ≤ c := by
  induction l with
  | nil => cases ht
  | cons u l ih =>
      rw [List.pairwise_cons] at hl
      have hu : u.when_ ≤ c := by
        rcases List.mem_cons.mp ht with rfl | hin
        · exact hdue
        · rcases hl.1 t hin with h | h
          · exact (le_of_lt h).trans hdue
          · exact (le_of_eq h.1).trans hdue
      rw [List.takeWhile_cons_of_pos (by simpa using hu)]
      rcases List.mem_cons.mp ht with rfl | hin
      · exact List.mem_cons_self
      · exact List.mem_cons_of_mem _ (ih hl.2 hin)

theorem Sound.moveDue {s : AsyncEngine T κ σ} (S : Sound s []) : Sound s.moveDue [] where
  booked := by
    refine S.booked.perm (List.Perm.of_eq ?_)
    have hsplit := List.takeWhile_append_dropWhile (p := fun t => decide (t.when_ ≤ s.clock))
      (l := s.scheduled)
    have hhandles : ∀ l : List (Timer T κ),
        handles (l.map fun t => Entry.handle t.handle) = l.map Timer.handle := by
      intro l
      unfold handles
      rw [List.filterMap_map]
      show l.filterMap (some ∘ Timer.handle) = _
      rw [List.filterMap_eq_map]
    unfold waiting AsyncEngine.moveDue
    simp only [List.nil_append, handles_append, hhandles, List.append_assoc]
    rw [← List.map_append, hsplit]
  prompt h hh := by
    rcases List.mem_append.mp (show Entry.handle h ∈ s.ready ++ _ from hh) with hin | hin
    · exact S.prompt h hin
    · obtain ⟨t, ht, heq⟩ := List.mem_map.mp hin
      injection heq with heq
      subst heq
      have hin' := (List.takeWhile_subset _) ht
      obtain ⟨hdeadline, hle⟩ := S.timers t hin'
      have hwhen : t.when_ ≤ s.clock := by simpa using List.mem_takeWhile_imp ht
      have hmade := (S.booked.made t.handle (S.booked.waits t.handle
        (List.mem_append_right _ (List.mem_map_of_mem hin'))).1).2
      refine le_antisymm ?_ hle
      unfold Handle.due
      rw [hdeadline]
      exact max_le hwhen hmade
  timers t ht := S.timers t ((List.dropWhile_suffix _).subset ht)
  sorted := S.sorted.sublist (List.dropWhile_sublist _)
  numbered t ht := S.numbered t ((List.dropWhile_suffix _).subset ht)
  stops hd := by
    refine (S.stops hd).imp_left fun hin => ?_
    show Entry.stop ∈ s.ready ++ _
    exact List.mem_append_left _ hin

/-- A batch in any order is a batch. -/
theorem Sound.reorder {s : AsyncEngine T κ σ} (S : Sound s [])
    {batch : List (Entry T κ)} (hperm : batch.Perm s.ready) :
    Sound { s with ready := [] } batch where
  booked := by
    refine S.booked.perm ?_
    unfold waiting handles
    simp only [List.nil_append, List.append_nil]
    exact (hperm.symm.filterMap _).append_right _
  prompt h hh := by
    refine S.prompt h ?_
    simpa [hperm.mem_iff] using hh
  timers := S.timers
  sorted := S.sorted
  numbered := S.numbered
  stops hd := by
    refine (S.stops hd).imp_left fun hin => ?_
    simpa [hperm.mem_iff] using hin

/-- What a tick that runs does. -/
structure Ticked (s s' : AsyncEngine T κ σ) : Prop where
  sound : Sound s' []
  forward : s.clock ≤ s'.clock
  idle : s.clock < s'.clock → s.ready = [] ∧
    ∃ t ∈ s.scheduled, t.handle.id ∉ s.cancelled ∧ s'.clock = t.when_
  settles : ∀ h, .made h ∈ s.log → h.due ≤ s'.clock → s'.Settled h

/-- Steps 3 and 4, from wherever the clock is. -/
theorem ticked_of_clock {order : List (Entry T κ) → List (Entry T κ)}
    (horder : ∀ l, (order l).Perm l) {s : AsyncEngine T κ σ} (S : Sound s []) :
    Sound (s.moveDue.drain τ prog order) [] ∧ Follows s (s.moveDue.drain τ prog order) ∧
      ∀ h ∈ s.waiting [], h.due ≤ s.clock → (s.moveDue.drain τ prog order).Settled h := by
  have hmove : Follows s { s.moveDue with ready := [] } :=
    ⟨rfl, List.suffix_refl _, List.suffix_refl _⟩
  refine ⟨(S.moveDue.reorder (horder _)).drain τ prog _,
    hmove.trans (drain_follows τ prog _ _), ?_⟩
  intro h hh hdue
  apply drain_settles
  rw [(horder _).mem_iff]
  rcases List.mem_append.mp hh with hin | hin
  · exact List.mem_append_left _ (mem_handles.mp hin)
  · -- a timer that is due is moved to the ready queue
    obtain ⟨t, ht, rfl⟩ := List.mem_map.mp hin
    have hwhen : t.when_ ≤ s.clock := by
      unfold Handle.due at hdue
      rw [(S.timers t ht).1] at hdue
      exact (le_max_left _ _).trans hdue
    refine List.mem_append_right _ (List.mem_map.mpr ⟨t, ?_, rfl⟩)
    exact mem_takeWhile_due S.sorted ht hwhen

/-- What was made and is not settled still waits once the cancelled heads are
dropped. -/
theorem Sound.waits_dropped {s : AsyncEngine T κ σ} (S : Sound s []) {h : Handle T κ}
    (hm : .made h ∈ s.log) : h ∈ s.dropCancelled.waiting [] ∨ s.Settled h :=
  S.dropCancelled.booked.complete h hm

/-- **One tick that runs.** -/
theorem Sound.runOnce {order : List (Entry T κ) → List (Entry T κ)}
    (horder : ∀ l, (order l).Perm l) {s s' : AsyncEngine T κ σ} (S : Sound s [])
    (hrun : s.runOnce τ prog order = some s') : Ticked s s' := by
  have hfollows : Follows s s.dropCancelled :=
    ⟨rfl, List.suffix_refl _, List.suffix_refl _⟩
  unfold AsyncEngine.runOnce at hrun
  rcases advance_cases s.dropCancelled with
    ⟨_, _, _, hadv⟩ | ⟨hadv, _⟩ | ⟨hready, t, rest, hs, hlate, hadv⟩
  · rw [hadv] at hrun
    cases hrun
  · rw [hadv] at hrun
    injection hrun with hrun
    subst hrun
    obtain ⟨hsound, hf, hsettles⟩ := ticked_of_clock τ prog horder S.dropCancelled
    have hclock : (s.dropCancelled.moveDue.drain τ prog order).clock = s.clock := hf.clock
    refine ⟨hsound, le_of_eq hclock.symm, fun hlt => ?_, ?_⟩
    · rw [hclock] at hlt
      exact absurd hlt (lt_irrefl _)
    · intro h hm hdue
      rcases S.waits_dropped hm with hw | hdone
      · exact hsettles h hw (hdue.trans (le_of_eq hclock))
      · exact (hfollows.trans hf).settled hdone
  · rw [hadv] at hrun
    injection hrun with hrun
    subst hrun
    have hlive : t.handle.id ∉ s.cancelled := by
      have hhead := List.head_dropWhile_not (l := s.scheduled)
        (fun t : Timer T κ => decide (t.handle.id ∈ s.cancelled))
        (by rw [show s.scheduled.dropWhile _ = t :: rest from hs]; simp)
      simp only [show s.scheduled.dropWhile _ = t :: rest from hs, List.head_cons] at hhead
      exact of_decide_eq_false hhead
    have hjump := S.dropCancelled.jump hready hs hlate hlive
    obtain ⟨hsound, hf, hsettles⟩ := ticked_of_clock τ prog horder hjump
    have hclock := hf.clock
    refine ⟨hsound, ?_, fun _ => ?_, ?_⟩
    · rw [hclock]
      exact le_of_lt hlate
    · have hin : t ∈ s.scheduled :=
        (List.dropWhile_suffix _).subset (show t ∈ s.scheduled.dropWhile _ from hs ▸
          List.mem_cons_self)
      exact ⟨hready, t, hin, hlive, hclock⟩
    · intro h hm hdue
      rcases S.waits_dropped hm with hw | hdone
      · exact hsettles h hw (hdue.trans (le_of_eq hclock))
      · refine hf.settled ?_
        exact hdone.imp_left fun ⟨u, hu⟩ => ⟨u, List.mem_cons_of_mem _ hu⟩

/-- **Exactly when a tick raises**: nothing is ready and every timer left is
cancelled. -/
theorem runOnce_eq_none {order : List (Entry T κ) → List (Entry T κ)} {s : AsyncEngine T κ σ} :
    s.runOnce τ prog order = none ↔
      s.ready = [] ∧ s.stopping = false ∧ ∀ t ∈ s.scheduled, t.handle.id ∈ s.cancelled := by
  have hempty : s.dropCancelled.scheduled = [] ↔
      ∀ t ∈ s.scheduled, t.handle.id ∈ s.cancelled := by
    show s.scheduled.dropWhile _ = [] ↔ _
    rw [List.dropWhile_eq_nil_iff]
    simp only [decide_eq_true_eq]
  unfold AsyncEngine.runOnce
  rw [Option.map_eq_none_iff, ← hempty]
  rcases advance_cases s.dropCancelled with
    ⟨hready, hstop, hs, hadv⟩ | ⟨hadv, hbusy⟩ | ⟨hready, t, rest, hs, hlate, hadv⟩
  · exact ⟨fun _ => ⟨hready, hstop, hs⟩, fun _ => hadv⟩
  · rw [hadv]
    constructor
    · intro h
      cases h
    · rintro ⟨hready, hstop, hs⟩
      rcases hbusy with h | h | ⟨t, ht, _⟩
      · exact absurd hready h
      · exact absurd (hstop.symm.trans h) (by simp)
      · rw [hs] at ht
        cases ht
  · rw [hadv]
    constructor
    · intro h
      cases h
    · rintro ⟨_, _, hs'⟩
      rw [hs] at hs'
      cases hs'

end AsyncEngine

/-! ## §8. Every run. -/

namespace EngineRun

open AsyncEngine

variable (r : EngineRun T D κ σ)

theorem initial_sound : Sound r.initial [] ∧ r.initial.stopping = false := by
  refine ⟨Sound.performs r.timeline r.start ?_, performs_stopping _ _ _⟩
  refine ⟨⟨trivial, ?_, ?_, ?_, ?_, List.nodup_nil, ?_⟩, ?_, ?_, List.Pairwise.nil, ?_, ?_⟩
  · intro h hh
    cases hh
  · intro h hh
    cases hh
  · intro id
    simp
  · intro h hh
    cases hh
  · intro h hh
    cases hh
  · intro h hh
    cases hh
  · intro t ht
    cases ht
  · intro t ht
    cases ht
  · intro hd
    cases hd

/-- **Everything an iteration can do** to a loop that runs. -/
theorem tick_cases (n : ℕ) (s : AsyncEngine T κ σ) :
    (s.runOnce r.timeline r.program (r.shuffle.batch n) = none ∧
      r.tick n (.running s) = .deadlocked s) ∨
    ∃ s', s.runOnce r.timeline r.program (r.shuffle.batch n) = some s' ∧
      (s'.stopping = true ∧ r.tick n (.running s) = .stopped s' ∨
        s'.stopping = false ∧ r.tick n (.running s) = .running s') := by
  simp only [tick]
  cases hrun : s.runOnce r.timeline r.program (r.shuffle.batch n) with
  | none => exact .inl ⟨rfl, rfl⟩
  | some s' =>
      refine .inr ⟨s', rfl, ?_⟩
      cases hstop : s'.stopping with
      | true => exact .inl ⟨rfl, by simp [hstop]⟩
      | false => exact .inr ⟨rfl, by simp [hstop]⟩

/-- **The run lemma**: the loop is sound after every tick, and still running
only if nothing stopped it. -/
theorem sound (n : ℕ) : Sound (r.after n) [] ∧
    ∀ s, r.status n = .running s → s.stopping = false := by
  induction n with
  | zero =>
      refine ⟨r.initial_sound.1, fun s hs => ?_⟩
      injection hs with hs
      exact hs ▸ r.initial_sound.2
  | succ n ih =>
      unfold after at ih ⊢
      show Sound (r.tick n (r.status n)).engine [] ∧
        ∀ s, r.tick n (r.status n) = .running s → s.stopping = false
      cases hst : r.status n with
      | running s =>
          rw [hst] at ih
          rcases r.tick_cases n s with ⟨_, htick⟩ | ⟨s', hrun, hend⟩
          · rw [htick]
            exact ⟨ih.1, fun s' hs' => by cases hs'⟩
          · have hticked := ih.1.runOnce r.timeline r.program (r.shuffle.perm n) hrun
            rcases hend with ⟨_, htick⟩ | ⟨hstop, htick⟩
            · rw [htick]
              exact ⟨hticked.sound, fun s' hs' => by cases hs'⟩
            · rw [htick]
              refine ⟨hticked.sound, fun u hu => ?_⟩
              injection hu with hu
              exact hu ▸ hstop
      | stopped s =>
          rw [hst] at ih
          exact ⟨ih.1, fun s' hs' => by cases hs'⟩
      | deadlocked s =>
          rw [hst] at ih
          exact ⟨ih.1, fun s' hs' => by cases hs'⟩

/-- With nothing ready and no timer live, every handle is settled. -/
theorem settled_of_idle {s : AsyncEngine T κ σ} (S : Sound s []) (hready : s.ready = [])
    (hgone : ∀ t ∈ s.scheduled, t.handle.id ∈ s.cancelled) {h : Handle T κ}
    (hm : .made h ∈ s.log) : s.Settled h := by
  rcases S.booked.complete h hm with hw | hdone
  · rcases List.mem_append.mp hw with hin | hin
    · rw [mem_handles, hready] at hin
      cases hin
    · obtain ⟨t, ht, rfl⟩ := List.mem_map.mp hin
      exact .inr (hgone t ht)
  · exact hdone

/-- The deadlock error was raised with nothing ready and no timer live. -/
theorem deadlocked_idle (n : ℕ) : ∀ s, r.status n = .deadlocked s →
    s.ready = [] ∧ ∀ t ∈ s.scheduled, t.handle.id ∈ s.cancelled := by
  induction n with
  | zero =>
      intro s hs
      cases hs
  | succ n ih =>
      intro s hs
      have htick : r.tick n (r.status n) = .deadlocked s := hs
      cases hst : r.status n with
      | running u =>
          rw [hst] at htick
          rcases r.tick_cases n u with ⟨hnone, heq⟩ | ⟨u', _, ⟨_, heq⟩ | ⟨_, heq⟩⟩
          · rw [heq] at htick
            injection htick with htick
            subst htick
            obtain ⟨hready, _, hgone⟩ := (runOnce_eq_none r.timeline r.program).mp hnone
            exact ⟨hready, hgone⟩
          · rw [heq] at htick
            cases htick
          · rw [heq] at htick
            cases htick
      | stopped u =>
          rw [hst] at htick
          cases htick
      | deadlocked u =>
          rw [hst] at htick
          exact ih s (hst.trans htick)

/-- The clock over one iteration. -/
theorem forward (n : ℕ) : (r.after n).clock ≤ (r.after (n + 1)).clock ∧
    ((r.after n).clock < (r.after (n + 1)).clock → (r.after n).ready = [] ∧
      ∃ t ∈ (r.after n).scheduled, t.handle.id ∉ (r.after n).cancelled ∧
        (r.after (n + 1)).clock = t.when_) := by
  have hS := (r.sound n).1
  unfold after at hS ⊢
  show (r.status n).engine.clock ≤ (r.tick n (r.status n)).engine.clock ∧
    ((r.status n).engine.clock < (r.tick n (r.status n)).engine.clock → _ ∧
      ∃ t ∈ (r.status n).engine.scheduled, _ ∧ (r.tick n (r.status n)).engine.clock = t.when_)
  cases hst : r.status n with
  | running s =>
      rw [hst] at hS
      rcases r.tick_cases n s with ⟨_, htick⟩ | ⟨s', hrun, hend⟩
      · rw [htick]
        exact ⟨le_refl _, fun h => absurd h (lt_irrefl _)⟩
      · have hticked := hS.runOnce r.timeline r.program (r.shuffle.perm n) hrun
        have hengine : (r.tick n (.running s)).engine = s' := by
          rcases hend with ⟨_, htick⟩ | ⟨_, htick⟩ <;> rw [htick] <;> rfl
        rw [hengine]
        exact ⟨hticked.forward, hticked.idle⟩
  | stopped s => exact ⟨le_refl _, fun h => absurd h (lt_irrefl _)⟩
  | deadlocked s => exact ⟨le_refl _, fun h => absurd h (lt_irrefl _)⟩

/-- What was made is settled by the first tick that reaches its time. -/
theorem tick_settles (n : ℕ) {s : AsyncEngine T κ σ} (S : Sound s []) (h : Handle T κ)
    (hm : .made h ∈ s.log) (hdue : h.due ≤ (r.tick n (.running s)).engine.clock) :
    (r.tick n (.running s)).engine.Settled h := by
  rcases r.tick_cases n s with ⟨hnone, htick⟩ | ⟨s', hrun, hend⟩
  · rw [htick]
    obtain ⟨hready, _, hgone⟩ := (runOnce_eq_none r.timeline r.program).mp hnone
    exact settled_of_idle S hready hgone hm
  · have hticked := S.runOnce r.timeline r.program (r.shuffle.perm n) hrun
    have hengine : (r.tick n (.running s)).engine = s' := by
      rcases hend with ⟨_, htick⟩ | ⟨_, htick⟩ <;> rw [htick] <;> rfl
    rw [hengine] at hdue ⊢
    exact hticked.settles h hm hdue

/-- The deadlock error and the awaited future: once it is done, its done-callback
is ready until the loop stops. -/
theorem runOnce_eq_none_iff (n : ℕ) {s : AsyncEngine T κ σ} (S : Sound s [])
    (hstop : s.stopping = false) :
    s.runOnce r.timeline r.program (r.shuffle.batch n) = none ↔
      s.done = false ∧ s.ready = [] ∧ ∀ t ∈ s.scheduled, t.handle.id ∈ s.cancelled := by
  rw [runOnce_eq_none]
  constructor
  · rintro ⟨hready, _, hgone⟩
    refine ⟨?_, hready, hgone⟩
    by_contra hdone
    rw [Bool.not_eq_false] at hdone
    rcases S.stops hdone with hin | hin
    · rw [hready] at hin
      cases hin
    · exact absurd (hstop.symm.trans hin) (by simp)
  · rintro ⟨_, hready, hgone⟩
    exact ⟨hready, hstop, hgone⟩

/-- **An orderly loop.**  Over every run of every program, with every shuffle:
the log is lawful, so that each handle runs at most once, at the larger of its
deadline and the time it was made, and never after its cancellation; the clock
moves forward only, with nothing ready, and to a timer that is not cancelled;
in the first tick that leaves the clock at or after that time every handle made
before runs unless it is cancelled; and a tick raises the deadlock error exactly
when the awaited future is unfinished with nothing ready and no timer live,
which leaves no handle behind. -/
theorem engine_orderly (n : ℕ) :
    Lawful (r.after n).log ∧
    (r.after n).clock ≤ (r.after (n + 1)).clock ∧
    ((r.after n).clock < (r.after (n + 1)).clock → (r.after n).ready = [] ∧
      ∃ t ∈ (r.after n).scheduled, t.handle.id ∉ (r.after n).cancelled ∧
        (r.after (n + 1)).clock = t.when_) ∧
    (∀ s, r.status n = .running s →
      (∀ h, .made h ∈ s.log → h.due ≤ (r.after (n + 1)).clock →
        h.id ∉ (r.after (n + 1)).cancelled → ∃ t, .ran h t ∈ (r.after (n + 1)).log) ∧
      ((∃ s', r.status (n + 1) = .deadlocked s') ↔
        s.done = false ∧ s.ready = [] ∧ ∀ t ∈ s.scheduled, t.handle.id ∈ s.cancelled)) ∧
    (∀ s, r.status n = .deadlocked s →
      ∀ h, .made h ∈ s.log → h.id ∉ s.cancelled → ∃ t, .ran h t ∈ s.log) := by
  obtain ⟨hsound, hstopping⟩ := r.sound n
  obtain ⟨hforward, hidle⟩ := r.forward n
  refine ⟨hsound.booked.lawful, hforward, hidle, ?_, ?_⟩
  · intro s hs
    have hS : Sound s [] := by
      have := hsound
      unfold after at this
      rwa [hs] at this
    have hnext : r.status (n + 1) = r.tick n (.running s) := by
      rw [← hs]
      rfl
    unfold after
    rw [hnext]
    refine ⟨fun h hm hdue hlive => ?_, ?_⟩
    · exact (r.tick_settles n hS h hm hdue).resolve_right hlive
    · rw [← r.runOnce_eq_none_iff n hS (hstopping s hs)]
      rcases r.tick_cases n s with ⟨hnone, htick⟩ | ⟨s', hsome, ⟨_, htick⟩ | ⟨_, htick⟩⟩
      · rw [htick]
        exact ⟨fun _ => hnone, fun _ => ⟨s, rfl⟩⟩
      · rw [htick, hsome]
        simp
      · rw [htick, hsome]
        simp
  · intro s hs h hm hlive
    have hS : Sound s [] := by
      have := hsound
      unfold after at this
      rwa [hs] at this
    obtain ⟨hready, hgone⟩ := r.deadlocked_idle n s hs
    exact (settled_of_idle hS hready hgone hm).resolve_right hlive

/-- The awaited future completes at once, with a timer still ten away. -/
def leftBehind : EngineRun ℕ ℕ Bool Unit where
  timeline := ⟨0, (· + ·), Nat.le_add_right⟩
  program := ⟨fun _ _ _ last => ((), if last then [] else [.finish])⟩
  state := ()
  start := [.callSoon false, .callLater 10 true]
  shuffle := fifo ℕ Bool

/-- **A run ends with its awaited future**: a handle nobody cancelled may never
run. -/
theorem leftBehind_not_run : ¬ ∀ (r : EngineRun ℕ ℕ Bool Unit) (n : ℕ)
    (s : AsyncEngine ℕ Bool Unit), r.status n = .stopped s →
    ∀ h, .made h ∈ s.log → h.id ∉ s.cancelled → ∃ t, .ran h t ∈ s.log := by
  intro hall
  have hlog : (leftBehind.after 2).log
      = [.ran ⟨0, false, none, 0⟩ 0, .made ⟨1, true, some 10, 0⟩, .made ⟨0, false, none, 0⟩] := rfl
  have hran := hall leftBehind 2 (leftBehind.after 2) rfl ⟨1, true, some 10, 0⟩
  rw [hlog] at hran
  obtain ⟨t, ht⟩ := hran (by simp) (by simp [show (leftBehind.after 2).cancelled = [] from rfl])
  simp at ht

end EngineRun

end Toso.SimCommon
