/-
  Toso.Realsim.Runner — releasing work items on the virtual clock.

  `Runner.run` sorts the items by `(release_time, id)`, makes one task of each and
  gathers them.  A task sleeps until its item's release time, executes the item
  and adds its row.  What the items' own code does is whatever `ItemDispatch` says:
  it makes handles of its own, cancels those, and lets an execution return or raise.

  All of it runs on the loop of `AsyncEngine`; a task's step, its sleep's timer,
  the gather's callbacks and the caller's step are callbacks like any other.  The clock
  is an exact rational: a sleep ends at exactly its start and length.
-/
import Toso.Lib.Dict
import Toso.SimCommon.AsyncEngine
import Toso.SimCommon.Ledger
import Mathlib.Data.List.Sort
import Mathlib.Data.Prod.Lex
import Mathlib.Data.List.FinRange
import Mathlib.Data.NNRat.Defs
import Mathlib.Data.String.Basic

namespace Toso.Realsim

open Lib SimCommon SimCommon.Report

/-! ## §1. Work items and what runs for them. -/

/-- `WorkItem`; what it runs and its payload stand in `ItemDispatch`. -/
structure WorkItem where
  id : String
  releaseTime : ℚ
  deriving DecidableEq

/-- `order`. -/
def WorkItem.order (w : WorkItem) : ℚ ×ₗ String := toLex (w.releaseTime, w.id)

/-- Not after it in `order`. -/
def WorkItem.Before (a b : WorkItem) : Prop := a.order ≤ b.order

instance : DecidableRel WorkItem.Before := fun a b =>
  inferInstanceAs (Decidable (a.order ≤ b.order))

instance : IsTrans WorkItem WorkItem.Before := ⟨fun _ _ _ h h' => le_trans (α := ℚ ×ₗ String) h h'⟩

instance : Std.Total WorkItem.Before := ⟨fun a b => le_total a.order b.order⟩

/-- An item that is before another one is not released after it. -/
theorem WorkItem.Before.release_le {a b : WorkItem} (h : a.Before b) :
    a.releaseTime ≤ b.releaseTime := by
  rcases Prod.Lex.le_iff.mp h with hlt | ⟨heq, _⟩
  · exact hlt.le
  · exact heq.le

/-- The items sorted by `order`. -/
def ordered (items : List WorkItem) : List WorkItem := items.insertionSort WorkItem.Before

theorem ordered_sorted (items : List WorkItem) : (ordered items).Pairwise WorkItem.Before :=
  List.pairwise_insertionSort _ _

/-- What the loop runs while `run` does, for `m` items. -/
inductive Callback (m : ℕ) (κ : Type*)
  /-- The first step of an item's task. -/
  | begin (k : Fin m)
  /-- The timer of its sleep. -/
  | alarm (k : Fin m)
  /-- Its task goes on after the sleep. -/
  | wake (k : Fin m)
  /-- The gather hears that its task is done. -/
  | gathered (k : Fin m)
  /-- The task that called `run` goes on after the gather. -/
  | resume
  | other (callback : κ)

/-- What the items' code asks for. -/
inductive Ask (m : ℕ) (κ ε ρ : Type*)
  | callSoon (callback : κ)
  | callAt (when_ : ℚ) (callback : κ)
  | callLater (delay : ℚ≥0) (callback : κ)
  | cancel (id : ℕ)
  /-- The workload's `prepare` is through, and `run` is called. -/
  | run
  /-- The execution of an item returns, or raises. -/
  | answer (k : Fin m) (answer : Except ε ρ)

/-- `ItemDispatch`, with all that its coroutines call: from the code's own state, the
time and the id the next handle will have, what executing an item asks for, and what
any other callback does. -/
structure ItemDispatch (m : ℕ) (κ σ ε ρ : Type*) where
  execute : σ → ℚ → ℕ → Fin m → σ × List (Ask m κ ε ρ)
  other : σ → ℚ → ℕ → κ → σ × List (Ask m κ ε ρ)

/-! ## §2. The run. -/

/-- Where a run of `m` items stands. -/
structure RunState (m : ℕ) (σ ε ρ : Type*) where
  /-- The state of the items' code. -/
  code : σ
  /-- The handles that code made; it holds no other. -/
  own : List ℕ
  /-- When `run` was called. -/
  began : Option ℚ
  /-- The items executed, each with the time its execution started. -/
  started : List (Fin m × ℚ)
  /-- How the executions ended, and when. -/
  answers : List (Fin m × Except ε ρ × ℚ)
  ledger : Option (Ledger Outcome)
  /-- The tasks the gather counted. -/
  finished : List (Fin m)
  /-- The gather's future. -/
  outer : Option (Except ε (List ρ))
  returned : Option (Except ε (Dict String ρ))

/-- A dict comprehension over pairs: a later pair writes over an earlier one of its key. -/
def dictOf {ρ : Type*} (pairs : List (String × ρ)) : Dict String ρ :=
  pairs.foldl (fun d p => d.set p.1 p.2) Dict.empty

/-- An action that makes a handle. -/
def makes {T D κ : Type*} : Action T D κ → Bool
  | .callSoon _ | .callAt _ _ | .callLater _ _ => true
  | .cancel _ | .finish => false

/-- `Runner`, with the items it is to run; the ledger is `none` where the dispatch writes
its own outcomes. -/
structure Runner (κ σ ε ρ : Type*) where
  items : List WorkItem
  ledger : Option (Ledger Outcome)
  dispatch : ItemDispatch (ordered items).length κ σ ε ρ

namespace Runner

variable {κ σ ε ρ : Type*} (r : Runner κ σ ε ρ)

/-- How many items there are. -/
abbrev size : ℕ := (ordered r.items).length

/-- The item of a task. -/
def item (k : Fin r.size) : WorkItem := (ordered r.items).get k

/-- The release time of a task's item. -/
def release (k : Fin r.size) : ℚ := (r.item k).releaseTime

theorem release_mono {i j : Fin r.size} (h : i < j) : r.release i ≤ r.release j :=
  (List.pairwise_iff_get.mp (ordered_sorted r.items) i j h).release_le

/-- What a step does to the run, and what it asks of the loop. -/
abbrev Step := RunState r.size σ ε ρ × List (Action ℚ ℚ≥0 (Callback r.size κ))

/-- The end of `run`: the wallclock is stamped and the results are returned by id. -/
def give (now : ℚ) (results : List ρ) (s : RunState r.size σ ε ρ) : r.Step :=
  ({ s with
      ledger := s.ledger.map fun l => { l with wallclock := now }
      returned := some (.ok (dictOf (((ordered r.items).map WorkItem.id).zip results))) },
    [.finish])

/-- `run`, up to the gather; a gather of nothing is done at once. -/
def call (now : ℚ) (s : RunState r.size σ ε ρ) : r.Step :=
  if s.began.isSome then (s, [])
  else
    let s := { s with
      began := some now
      ledger := s.ledger.map fun l => { l with itemsTotal := l.itemsTotal + r.size } }
    if r.size = 0 then r.give now [] { s with outer := some (.ok []) }
    else (s, (List.finRange r.size).map fun k => .callSoon (.begin k))

/-- `_run_one` after the execution: the row is added, unless it raised, and the task is
done.  Only an execution that is on its way ends. -/
def answered (now : ℚ) (k : Fin r.size) (answer : Except ε ρ) (s : RunState r.size σ ε ρ) :
    r.Step :=
  if k ∈ s.started.map Prod.fst ∧ k ∉ s.answers.map Prod.fst then
    ({ s with
        answers := s.answers ++ [(k, answer, now)]
        ledger := match answer with
          | .ok _ => s.ledger.map (Ledger.add ⟨(r.item k).id, (r.item k).releaseTime, now⟩)
          | .error _ => s.ledger },
      [.callSoon (.gathered k)])
  else (s, [])

/-- One request of the items' code, `id` the id of the next handle. -/
def ask (now : ℚ) (id : ℕ) (s : RunState r.size σ ε ρ) : Ask r.size κ ε ρ → r.Step
  | .callSoon callback => ({ s with own := id :: s.own }, [.callSoon (.other callback)])
  | .callAt when_ callback => ({ s with own := id :: s.own }, [.callAt when_ (.other callback)])
  | .callLater delay callback =>
      ({ s with own := id :: s.own }, [.callLater delay (.other callback)])
  | .cancel i => (s, if i ∈ s.own then [.cancel i] else [])
  | .run => r.call now s
  | .answer k answer => r.answered now k answer s

/-- All that a step of the items' code asks for, in order. -/
def asks (now : ℚ) : ℕ → RunState r.size σ ε ρ → List (Ask r.size κ ε ρ) → r.Step
  | _, s, [] => (s, [])
  | id, s, a :: rest =>
      let first := r.ask now id s a
      let more := asks now (id + first.2.countP makes) first.1 rest
      (more.1, first.2 ++ more.2)

/-- `execute` of an item. -/
def execute (now : ℚ) (id : ℕ) (k : Fin r.size) (s : RunState r.size σ ε ρ) : r.Step :=
  let e := r.dispatch.execute s.code now id k
  r.asks now id { s with code := e.1, started := s.started ++ [(k, now)] } e.2

/-- The first step of `_run_one`: sleep until the release time, if it is still to come. -/
def begin (now : ℚ) (id : ℕ) (k : Fin r.size) (s : RunState r.size σ ε ρ) : r.Step :=
  if 0 < r.release k - now then (s, [.callLater (r.release k - now).toNNRat (.alarm k)])
  else r.execute now id k s

/-- What the task of an item returned or raised. -/
def result {m : ℕ} (answers : List (Fin m × Except ε ρ × ℚ)) (k : Fin m) : Option (Except ε ρ) :=
  (answers.find? fun a => a.1 = k).map fun a => a.2.1

/-- The gather's callback: the first exception it hears of is the gather's, and when all
tasks are counted the gather has their results, in order. -/
def gathered (k : Fin r.size) (s : RunState r.size σ ε ρ) : r.Step :=
  let finished := s.finished ++ [k]
  match s.outer, result s.answers k with
  | none, some (.error e) =>
      ({ s with finished := finished, outer := some (.error e) }, [.callSoon .resume])
  | none, some (.ok _) =>
      if finished.length = r.size then
        let results := (List.finRange r.size).filterMap fun j =>
          (result s.answers j).bind Except.toOption
        ({ s with finished := finished, outer := some (.ok results) }, [.callSoon .resume])
      else ({ s with finished := finished }, [])
  | _, _ => ({ s with finished := finished }, [])

/-- `run`, after the gather. -/
def resume (now : ℚ) (s : RunState r.size σ ε ρ) : r.Step :=
  match s.outer with
  | some (.ok results) => r.give now results s
  | some (.error e) => ({ s with returned := some (.error e) }, [.finish])
  | none => (s, [])

/-- What each callback does. -/
def step (s : RunState r.size σ ε ρ) (now : ℚ) (id : ℕ) : Callback r.size κ → r.Step
  | .begin k => r.begin now id k s
  | .alarm k => (s, [.callSoon (.wake k)])
  | .wake k => r.execute now id k s
  | .gathered k => r.gathered k s
  | .resume => r.resume now s
  | .other callback =>
      let e := r.dispatch.other s.code now id callback
      r.asks now id { s with code := e.1 } e.2

/-- The virtual clock: `0.0` at the start, and `when = time() + delay`. -/
def clock : Timeline ℚ ℚ≥0 := ⟨0, fun t d => t + d, fun _ d => le_add_of_nonneg_right d.2⟩

/-- The run on the loop; the first step of the task `run_until_complete` makes is the
caller's code. -/
def drive (code : σ) (main : κ) (shuffle : Shuffle ℚ (Callback r.size κ)) :
    EngineRun ℚ ℚ≥0 (Callback r.size κ) (RunState r.size σ ε ρ) where
  timeline := clock
  program := ⟨r.step⟩
  state := ⟨code, [], none, [], [], r.ledger, [], none, none⟩
  start := [.callSoon (.other main)]
  shuffle := shuffle

end Runner

/-! ## §3. What the loop makes of it. -/

section Loop

variable {T D κ σ : Type*} [LinearOrder T] (τ : Timeline T D)

/-- The loop, its program in another state. -/
def withProgram (p : σ) (e : AsyncEngine T κ σ) : AsyncEngine T κ σ := { e with program := p }

/-- What the loop does with an action does not depend on the program's state. -/
theorem perform_program (p : σ) (e : AsyncEngine T κ σ) (a : Action T D κ) :
    (withProgram p e).perform τ a = withProgram p (e.perform τ a) := by
  cases a with
  | callSoon c => rfl
  | callAt w c => rfl
  | callLater d c => rfl
  | cancel id =>
      show AsyncEngine.cancel id _ = withProgram p (AsyncEngine.cancel id e)
      unfold AsyncEngine.cancel withProgram
      split <;> rfl
  | finish =>
      obtain ⟨_, _, _, _, _, _, done, _, _, _⟩ := e
      cases done <;> rfl

theorem performs_program (p : σ) (acts : List (Action T D κ)) : ∀ e : AsyncEngine T κ σ,
    acts.foldl (AsyncEngine.perform τ) (withProgram p e)
      = withProgram p (acts.foldl (AsyncEngine.perform τ) e) := by
  induction acts with
  | nil => exact fun e => rfl
  | cons a acts ih =>
      intro e
      rw [List.foldl_cons, perform_program, ih, List.foldl_cons]

theorem performs_nextId (acts : List (Action T D κ)) : ∀ e : AsyncEngine T κ σ,
    (acts.foldl (AsyncEngine.perform τ) e).nextId = e.nextId + acts.countP makes := by
  induction acts with
  | nil => exact fun e => rfl
  | cons a acts ih =>
      intro e
      rw [List.foldl_cons, ih, List.countP_cons]
      have hone : (e.perform τ a).nextId = e.nextId + if makes a then 1 else 0 := by
        cases a with
        | cancel id =>
            show (AsyncEngine.cancel id e).nextId = _
            unfold AsyncEngine.cancel
            split <;> rfl
        | finish =>
            show (AsyncEngine.finish e).nextId = _
            unfold AsyncEngine.finish
            split <;> rfl
        | _ => rfl
      omega

end Loop

namespace Runner

variable {κ σ ε ρ : Type*} (r : Runner κ σ ε ρ)

/-- The loop of a run. -/
abbrev Loop := AsyncEngine ℚ (Callback r.size κ) (RunState r.size σ ε ρ)

/-- One request of the items' code, done on the loop. -/
def asked (e : r.Loop) (a : Ask r.size κ ε ρ) : r.Loop :=
  (r.ask e.clock e.nextId e.program a).2.foldl (AsyncEngine.perform clock)
    (withProgram (r.ask e.clock e.nextId e.program a).1 e)

/-- **All requests of a step are done one by one.** -/
theorem asks_eq (as : List (Ask r.size κ ε ρ)) : ∀ e : r.Loop,
    (r.asks e.clock e.nextId e.program as).2.foldl (AsyncEngine.perform clock)
        (withProgram (r.asks e.clock e.nextId e.program as).1 e)
      = as.foldl r.asked e := by
  induction as with
  | nil => exact fun e => rfl
  | cons a as ih =>
      intro e
      have hclock : (r.asked e a).clock = e.clock :=
        (AsyncEngine.performs_follows clock _ _).clock
      have hid : (r.asked e a).nextId
          = e.nextId + (r.ask e.clock e.nextId e.program a).2.countP makes :=
        performs_nextId clock _ _
      have hprogram : (r.asked e a).program = (r.ask e.clock e.nextId e.program a).1 := by
        unfold asked
        rw [performs_program]
        rfl
      rw [List.foldl_cons, ← ih (r.asked e a), hclock, hid, hprogram]
      simp only [asks, List.foldl_append]
      unfold asked
      simp only [performs_program]
      rfl

end Runner

end Toso.Realsim
