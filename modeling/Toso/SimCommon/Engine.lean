/-
  Toso.SimCommon.Engine — the plain engine, and the two engines side by side.

  `Sim` pops one `(time, seq)` event at a time; `AsyncEngine` moves all due
  timers to its ready queue and drains them as a batch.  On a program of timers
  alone the batch is exactly what `Sim` pops next, and what the batch schedules
  comes after all of it.

  Main results:
    * `Mirrors.runEntry` — one entry of a batch is one event of `Sim`.
    * `Mirrors.runOnce` — one tick is as many events as its batch.
    * `engines_agree` — over every run the two execute the same callbacks in the
      same order at the same times, and end together.
-/
import Toso.SimCommon.AsyncEngine

namespace Toso.SimCommon

open Lib

/-! ## §1. The plain engine. -/

/-- A program of timers alone: what a callback schedules, with which delays. -/
structure TimerProgram (T D κ σ : Type*) where
  run : σ → T → κ → σ × List (D × κ)

/-- An entry of `Sim`'s heap. -/
structure SimEvent (T κ : Type*) where
  time : T
  seq : ℕ
  callback : κ

/-- The order of `(time, seq)` tuples. -/
def SimEvent.Before {T κ : Type*} [LinearOrder T] (a b : SimEvent T κ) : Prop :=
  a.time < b.time ∨ a.time = b.time ∧ a.seq < b.seq

instance {T κ : Type*} [LinearOrder T] (a b : SimEvent T κ) : Decidable (a.Before b) :=
  inferInstanceAs (Decidable (a.time < b.time ∨ a.time = b.time ∧ a.seq < b.seq))

/-- `Sim`, with the program's own state and what it executed, newest first. -/
structure Sim (T κ σ : Type*) where
  now : T
  heap : List (SimEvent T κ)
  seq : ℕ
  program : σ
  ran : List (κ × T)

variable {T D κ σ : Type*} [LinearOrder T]

namespace Sim

/-- `schedule`. -/
def schedule (τ : Timeline T D) (m : Sim T κ σ) (a : D × κ) : Sim T κ σ :=
  { m with
    heap := heappush SimEvent.Before ⟨τ.plus m.now a.1, m.seq, a.2⟩ m.heap
    seq := m.seq + 1 }

/-- One turn of the loop of `run`: pop, advance, run the callback. -/
def step (τ : Timeline T D) (prog : TimerProgram T D κ σ) (m : Sim T κ σ) : Sim T κ σ :=
  match m.heap with
  | [] => m
  | e :: rest =>
      let r := prog.run m.program e.time e.callback
      r.2.foldl (schedule τ)
        { m with now := e.time, heap := rest, program := r.1, ran := (e.callback, e.time) :: m.ran }

end Sim

/-- A timer-only program with what it schedules before it runs. -/
structure TimerRun (T D κ σ : Type*) [LE T] where
  timeline : Timeline T D
  program : TimerProgram T D κ σ
  state : σ
  start : List (D × κ)

namespace TimerRun

/-- `Sim` after so many events. -/
def sim (r : TimerRun T D κ σ) : ℕ → Sim T κ σ
  | 0 => r.start.foldl (Sim.schedule r.timeline) ⟨r.timeline.zero, [], 0, r.state, []⟩
  | n + 1 => (r.sim n).step r.timeline r.program

/-- The same program on `AsyncEngine`: each delay is a `call_later`. -/
def later (a : D × κ) : Action T D κ := .callLater a.1 a.2

/-- The run of it on `AsyncEngine` in its default order. -/
def async (r : TimerRun T D κ σ) : EngineRun T D κ σ where
  timeline := r.timeline
  program := ⟨fun state time _ callback =>
    ((r.program.run state time callback).1,
      (r.program.run state time callback).2.map later)⟩
  state := r.state
  start := r.start.map later
  shuffle := fifo T κ

end TimerRun

/-- What a log says was executed, newest first. -/
def executed (log : List (Event T κ)) : List (κ × T) :=
  log.filterMap fun
    | .ran h time => some (h.callback, time)
    | _ => none

/-! ## §2. Side by side. -/

/-- The timer as an entry of `Sim`'s heap. -/
def Timer.event (t : Timer T κ) : SimEvent T κ := ⟨t.when_, t.seq, t.handle.callback⟩

/-- The two engines agree, with `batch` still to drain: what `Sim` holds is the
batch, then the timers. -/
structure Mirrors (s : AsyncEngine T κ σ) (m : Sim T κ σ) (batch : List (Timer T κ)) : Prop where
  ready : s.ready = []
  cancelled : s.cancelled = []
  stopping : s.stopping = false
  heap : m.heap = (batch ++ s.scheduled).map Timer.event
  seq : m.seq = s.timerSeq
  program : m.program = s.program
  ran : m.ran = executed s.log
  due : ∀ t ∈ batch, t.when_ = s.clock
  later : ∀ t ∈ s.scheduled, s.clock ≤ t.when_
  sorted : s.scheduled.Pairwise Timer.Before
  numbered : ∀ t ∈ batch ++ s.scheduled, t.seq < s.timerSeq

namespace Mirrors

variable {τ : Timeline T D} {s : AsyncEngine T κ σ} {m : Sim T κ σ} {batch : List (Timer T κ)}

/-- **One schedule.**  The new timer comes after the whole batch. -/
theorem schedule (M : Mirrors s m batch) (hnow : m.now = s.clock) (a : D × κ) :
    Mirrors (s.perform τ (TimerRun.later a)) (m.schedule τ a) batch := by
  obtain ⟨d, k⟩ := a
  have hle := τ.le_plus s.clock d
  refine ⟨M.ready, M.cancelled, M.stopping, ?_, ?_, M.program, M.ran, M.due, ?_, ?_, ?_⟩
  · show heappush SimEvent.Before ⟨τ.plus m.now d, m.seq, k⟩ m.heap
      = (batch ++ heappush Timer.Before ⟨τ.plus s.clock d, s.timerSeq,
          ⟨s.nextId, k, some (τ.plus s.clock d), s.clock⟩⟩ s.scheduled).map Timer.event
    have hafter : ∀ t ∈ batch, ¬ Timer.Before ⟨τ.plus s.clock d, s.timerSeq,
        ⟨s.nextId, k, some (τ.plus s.clock d), s.clock⟩⟩ t := by
      rintro t ht (hlt | ⟨_, hlt⟩)
      · have hlt' : τ.plus s.clock d < t.when_ := hlt
        rw [M.due t ht] at hlt'
        exact absurd hle (not_le.mpr hlt')
      · have hnum := M.numbered t (List.mem_append_left _ ht)
        exact absurd hnum (Nat.lt_asymm hlt)
    have hevents : ∀ (x : Timer T κ) l, (heappush Timer.Before x l).map Timer.event
        = heappush SimEvent.Before (Timer.event x) (l.map Timer.event) :=
      heappush_map Timer.Before fun _ _ => Iff.rfl
    rw [← heappush_append Timer.Before hafter, hevents, ← M.heap, hnow, M.seq]
    rfl
  · show m.seq + 1 = s.timerSeq + 1
    rw [M.seq]
  · intro t ht
    rcases (mem_heappush Timer.Before).mp ht with rfl | hin
    · exact hle
    · exact M.later t hin
  · exact heappush_sorted Timer.Before M.sorted fun u hu =>
      Timer.before_of_not (M.numbered u (List.mem_append_right _ hu))
  · intro t ht
    show t.seq < s.timerSeq + 1
    rcases List.mem_append.mp ht with hin | hin
    · exact Nat.lt_succ_of_lt (M.numbered t (List.mem_append_left _ hin))
    · rcases (mem_heappush Timer.Before).mp hin with rfl | hin
      · exact Nat.lt_succ_self _
      · exact Nat.lt_succ_of_lt (M.numbered t (List.mem_append_right _ hin))

/-- What a callback schedules. -/
theorem schedules (acts : List (D × κ)) : ∀ {s : AsyncEngine T κ σ} {m : Sim T κ σ},
    Mirrors s m batch → m.now = s.clock →
      Mirrors ((acts.map TimerRun.later).foldl (AsyncEngine.perform τ) s)
        (acts.foldl (Sim.schedule τ) m) batch := by
  induction acts with
  | nil => intro s m M _; exact M
  | cons a acts ih => intro s m M hnow; exact ih (M.schedule hnow a) hnow

variable (r : TimerRun T D κ σ)

/-- **One entry of a batch is one event of `Sim`.** -/
theorem runEntry {t : Timer T κ} (M : Mirrors s m (t :: batch)) :
    Mirrors (s.runEntry r.timeline r.async.program (.handle t.handle))
      (m.step r.timeline r.program) batch := by
  have hlive : t.handle.id ∉ s.cancelled := by
    rw [M.cancelled]
    exact List.not_mem_nil
  have hwhen : t.when_ = s.clock := M.due t List.mem_cons_self
  have hstep : m.step r.timeline r.program
      = (r.program.run s.program s.clock t.handle.callback).2.foldl (Sim.schedule r.timeline)
          { m with
            now := s.clock
            heap := (batch ++ s.scheduled).map Timer.event
            program := (r.program.run s.program s.clock t.handle.callback).1
            ran := (t.handle.callback, s.clock) :: m.ran } := by
    unfold Sim.step
    rw [M.heap, M.program, ← hwhen]
    rfl
  rw [AsyncEngine.runEntry_run _ _ hlive, hstep]
  refine schedules (s := s.started r.async.program t.handle) _ ?_ rfl
  refine ⟨M.ready, M.cancelled, M.stopping, rfl, M.seq, rfl, ?_, ?_, M.later, M.sorted, ?_⟩
  · show _ :: m.ran = executed (.ran t.handle s.clock :: s.log)
    rw [M.ran]
    rfl
  · exact fun u hu => M.due u (List.mem_cons_of_mem _ hu)
  · exact fun u hu => M.numbered u (List.mem_cons_of_mem _ hu)

/-- **A batch is as many events.** -/
theorem drain (batch : List (Timer T κ)) : ∀ {s : AsyncEngine T κ σ} {n : ℕ},
    Mirrors s (r.sim n) batch →
      Mirrors ((batch.map fun t => Entry.handle t.handle).foldl
          (AsyncEngine.runEntry r.timeline r.async.program) s) (r.sim (n + batch.length)) [] := by
  induction batch with
  | nil => intro s n M; exact M
  | cons t batch ih =>
      intro s n M
      have hone : Mirrors _ (r.sim (n + 1)) batch := M.runEntry r
      have hrest := ih hone
      rw [List.length_cons, Nat.add_comm batch.length 1, ← Nat.add_assoc]
      exact hrest

/-- Steps 3 and 4 with a timer due: what is due is the batch. -/
theorem moveDue {n : ℕ} (M : Mirrors s (r.sim n) [])
    (hdue : ∃ t ∈ s.scheduled, t.when_ ≤ s.clock) :
    ∃ k, 0 < k ∧ Mirrors (s.moveDue.drain r.timeline r.async.program id) (r.sim (n + k)) [] := by
  have hsplit := List.takeWhile_append_dropWhile (p := fun t => decide (t.when_ ≤ s.clock))
    (l := s.scheduled)
  have hbatch : Mirrors { s.moveDue with ready := [] } (r.sim n)
      (s.scheduled.takeWhile fun t => t.when_ ≤ s.clock) := by
    refine ⟨rfl, M.cancelled, M.stopping, ?_, M.seq, M.program, M.ran, ?_, ?_, ?_, ?_⟩
    · show (r.sim n).heap = (_ ++ s.scheduled.dropWhile _).map Timer.event
      rw [hsplit]
      exact M.heap
    · intro t ht
      have hle : t.when_ ≤ s.clock := by simpa using List.mem_takeWhile_imp ht
      exact le_antisymm hle (M.later t (List.takeWhile_subset _ ht))
    · exact fun t ht => M.later t ((List.dropWhile_suffix _).subset ht)
    · exact M.sorted.sublist (List.dropWhile_sublist _)
    · intro t ht
      refine M.numbered t ?_
      rw [List.nil_append, ← hsplit]
      exact ht
  have hready : s.moveDue.ready
      = (s.scheduled.takeWhile fun t => t.when_ ≤ s.clock).map fun t => .handle t.handle := by
    show s.ready ++ _ = _
    rw [M.ready, List.nil_append]
  refine ⟨(s.scheduled.takeWhile fun t => t.when_ ≤ s.clock).length, ?_, ?_⟩
  · obtain ⟨t, ht, hwhen⟩ := hdue
    exact List.length_pos_of_mem (AsyncEngine.mem_takeWhile_due M.sorted ht hwhen)
  · unfold AsyncEngine.drain
    rw [hready]
    exact hbatch.drain r _

/-- The jump of the clock is not an event: `Sim` advances when it pops. -/
theorem jump {t : Timer T κ} {rest : List (Timer T κ)} (M : Mirrors s m [])
    (hs : s.scheduled = t :: rest) :
    Mirrors { s with clock := t.when_, log := .advanced t.handle t.when_ :: s.log } m [] := by
  refine ⟨M.ready, M.cancelled, M.stopping, M.heap, M.seq, M.program, M.ran, ?_, ?_, M.sorted,
    M.numbered⟩
  · intro u hu
    cases hu
  · intro u hu
    have hu' : u ∈ t :: rest := hs ▸ hu
    have hsorted := M.sorted
    rw [hs, List.pairwise_cons] at hsorted
    rcases List.mem_cons.mp hu' with rfl | hin
    · exact le_refl _
    · rcases hsorted.1 u hin with h | h
      · exact le_of_lt h
      · exact le_of_eq h.1

/-- **One tick is as many events as its batch**, at least one; with nothing left
it is the deadlock error. -/
theorem runOnce {n : ℕ} (M : Mirrors s (r.sim n) []) :
    (s.scheduled = [] ∧ s.runOnce r.timeline r.async.program id = none) ∨
    s.scheduled ≠ [] ∧ ∃ s' k, s.runOnce r.timeline r.async.program id = some s' ∧ 0 < k ∧
      Mirrors s' (r.sim (n + k)) [] := by
  have hdrop : s.dropCancelled = s := by
    have hall : s.scheduled.dropWhile (fun t => t.handle.id ∈ s.cancelled) = s.scheduled := by
      rw [M.cancelled]
      cases s.scheduled <;> simp
    unfold AsyncEngine.dropCancelled
    rw [hall]
  unfold AsyncEngine.runOnce
  rw [hdrop]
  rcases s.advance_cases with
    ⟨_, _, hs, hadv⟩ | ⟨hadv, hbusy⟩ | ⟨_, t, rest, hs, hlate, hadv⟩
  · rw [hadv]
    exact .inl ⟨hs, rfl⟩
  · rw [hadv]
    have hdue : ∃ t ∈ s.scheduled, t.when_ ≤ s.clock := by
      rcases hbusy with h | h | h
      · exact absurd M.ready h
      · exact absurd (M.stopping.symm.trans h) (by simp)
      · exact h
    obtain ⟨k, hk, hM⟩ := M.moveDue r hdue
    obtain ⟨t, ht, _⟩ := hdue
    exact .inr ⟨List.ne_nil_of_mem ht, _, k, rfl, hk, hM⟩
  · rw [hadv]
    obtain ⟨k, hk, hM⟩ := (M.jump hs).moveDue r ⟨t, hs ▸ List.mem_cons_self, le_refl _⟩
    exact .inr ⟨by simp [hs], _, k, rfl, hk, hM⟩

end Mirrors

/-! ## §3. Over a whole run. -/

namespace TimerRun

variable (r : TimerRun T D κ σ)

/-- Before the first tick. -/
theorem mirrors_initial : Mirrors r.async.initial (r.sim 0) [] := by
  refine Mirrors.schedules (s := ⟨r.timeline.zero, [], [], [], 0, 0, false, false, r.state, []⟩)
    (m := ⟨r.timeline.zero, [], 0, r.state, []⟩) r.start ?_ rfl
  refine ⟨rfl, rfl, rfl, rfl, rfl, rfl, rfl, ?_, ?_, List.Pairwise.nil, ?_⟩
  · intro t ht
    cases ht
  · intro t ht
    cases ht
  · intro t ht
    cases ht

/-- Nothing is left in `Sim` once its heap is empty. -/
theorem sim_stays {n : ℕ} (h : (r.sim n).heap = []) (k : ℕ) : r.sim (n + k) = r.sim n := by
  induction k with
  | zero => rfl
  | succ k ih =>
      show (r.sim (n + k)).step r.timeline r.program = r.sim n
      rw [ih]
      unfold Sim.step
      rw [h]

/-- Every event adds to what `Sim` executed. -/
theorem sim_suffix (n k : ℕ) : (r.sim n).ran <:+ (r.sim (n + k)).ran := by
  have hkeep : ∀ (acts : List (D × κ)) (m : Sim T κ σ),
      (acts.foldl (Sim.schedule r.timeline) m).ran = m.ran := by
    intro acts
    induction acts with
    | nil => intro m; rfl
    | cons a acts ih => intro m; exact ih _
  induction k with
  | zero => exact List.suffix_refl _
  | succ k ih =>
      refine ih.trans ?_
      show (r.sim (n + k)).ran <:+ ((r.sim (n + k)).step r.timeline r.program).ran
      unfold Sim.step
      split
      · exact List.suffix_refl _
      · rw [hkeep]
        exact List.suffix_cons _ _

/-- **The run lemma**: after every tick the loop still mirrors `Sim`, at least as
many events on, or both are at their end. -/
theorem mirrors (k : ℕ) : ∃ s n, Mirrors s (r.sim n) [] ∧
    ((r.async.status k = .running s ∧ k ≤ n) ∨
      (r.async.status k = .deadlocked s ∧ s.scheduled = [])) := by
  induction k with
  | zero => exact ⟨_, 0, r.mirrors_initial, .inl ⟨rfl, le_refl _⟩⟩
  | succ k ih =>
      obtain ⟨s, n, M, ⟨hst, hkn⟩ | ⟨hst, hs⟩⟩ := ih
      · have hnext : r.async.status (k + 1) = r.async.tick k (.running s) := by
          rw [← hst]
          rfl
        rw [hnext]
        rcases M.runOnce r with ⟨hs, hnone⟩ | ⟨_, s', j, hsome, hj, M'⟩
        · refine ⟨s, n, M, .inr ⟨?_, hs⟩⟩
          rcases r.async.tick_cases k s with ⟨_, htick⟩ | ⟨u, hu, _⟩
          · exact htick
          · exact absurd (hnone.symm.trans hu) (by simp)
        · refine ⟨s', n + j, M', .inl ⟨?_, by omega⟩⟩
          rcases r.async.tick_cases k s with ⟨hnone, _⟩ | ⟨u, hu, hend⟩
          · exact absurd (hsome.symm.trans hnone) (by simp)
          · have hsame : u = s' := by
              have hboth := hu.symm.trans hsome
              injection hboth
            subst hsame
            rcases hend with ⟨hstop, _⟩ | ⟨_, htick⟩
            · exact absurd (M'.stopping.symm.trans hstop) (by simp)
            · exact htick
      · refine ⟨s, n, M, .inr ⟨?_, hs⟩⟩
        show r.async.tick k (r.async.status k) = _
        rw [hst]
        rfl

/-- **The two engines agree.**  Whatever `AsyncEngine` has executed after any
number of ticks is what `Sim` has executed after some number of events, each
callback at the same time; whatever `Sim` has executed, `AsyncEngine` comes to
execute; and one comes to its end exactly when the other does. -/
theorem engines_agree :
    (∀ k, ∃ n, executed (r.async.after k).log = (r.sim n).ran) ∧
    (∀ n, ∃ k, (r.sim n).ran <:+ executed (r.async.after k).log) ∧
    ((∃ k s, r.async.status k = .deadlocked s) ↔ ∃ n, (r.sim n).heap = []) := by
  have hafter : ∀ {k s}, (r.async.status k = .running s ∨ r.async.status k = .deadlocked s) →
      r.async.after k = s := by
    intro k s h
    unfold EngineRun.after
    rcases h with h | h <;> rw [h] <;> rfl
  refine ⟨fun k => ?_, fun n => ?_, ?_⟩
  · obtain ⟨s, n, M, h⟩ := r.mirrors k
    rw [hafter (h.imp And.left And.left)]
    exact ⟨n, M.ran.symm⟩
  · obtain ⟨s, j, M, ⟨hst, hle⟩ | ⟨hst, hs⟩⟩ := r.mirrors n
    · refine ⟨n, ?_⟩
      rw [hafter (.inl hst), ← M.ran]
      obtain ⟨d, rfl⟩ := Nat.exists_eq_add_of_le hle
      exact r.sim_suffix n d
    · refine ⟨n, ?_⟩
      rw [hafter (.inr hst), ← M.ran]
      have hend : (r.sim j).heap = [] := by rw [M.heap, hs]; rfl
      rcases Nat.le_total n j with hle | hle
      · obtain ⟨d, rfl⟩ := Nat.exists_eq_add_of_le hle
        exact r.sim_suffix n d
      · obtain ⟨d, rfl⟩ := Nat.exists_eq_add_of_le hle
        simp only [r.sim_stays hend d, List.suffix_refl]
  · constructor
    · rintro ⟨k, s, hst⟩
      obtain ⟨s', n, M, ⟨hst', _⟩ | ⟨_, hs⟩⟩ := r.mirrors k
      · exact absurd (hst.symm.trans hst') (by simp)
      · exact ⟨n, by rw [M.heap, hs]; rfl⟩
    · rintro ⟨n, hend⟩
      -- once `Sim` is at its end, more ticks than events cannot all have run
      obtain ⟨s, j, M, ⟨hst, hle⟩ | ⟨hst, _⟩⟩ := r.mirrors n
      · have hs : s.scheduled = [] := by
          obtain ⟨d, rfl⟩ := Nat.exists_eq_add_of_le hle
          have hheap := M.heap
          rw [r.sim_stays hend d, hend] at hheap
          exact List.map_eq_nil_iff.mp hheap.symm
        refine ⟨n + 1, s, ?_⟩
        have hnext : r.async.status (n + 1) = r.async.tick n (.running s) := by
          rw [← hst]
          rfl
        rw [hnext]
        rcases r.async.tick_cases n s with ⟨_, htick⟩ | ⟨u, hu, _⟩
        · exact htick
        · rcases M.runOnce r with ⟨_, hnone⟩ | ⟨hleft, _⟩
          · exact absurd (hnone.symm.trans hu) (by simp)
          · exact absurd hs hleft
      · exact ⟨n, s, hst⟩

end TimerRun

end Toso.SimCommon
