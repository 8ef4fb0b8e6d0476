/-
  Toso.Proposed.Gates — every interleaving of compose, dispatch, gates and the
  tasks that await them.

  A `Dispatcher` and its callers as a machine.  A call of `gate` is two steps,
  parking and the answer of its probe, with whatever the probe does between
  them; a task awaiting a gate is created, started, and ends resumed or
  cancelled.  The history keeps each commit with the folds it ran, so that what
  a gate heard (the commits made after it was registered, until an await of it
  ended) can be compared with what it named.

  Main results:
    * `Sound.next` — the waiters and the action map are what the history says.
    * `awaits_released` — a task is released by exactly the commits its gate
      heard.
    * `parked_exactly` — the action map holds exactly the parked waiters, in
      runs where no probe raises past a missing action and no task is cancelled
      before it starts.
-/
import Toso.Proposed.Dispatcher
import Toso.Lib.Machine
import Mathlib.Data.String.Basic

namespace Toso.Proposed

open Lib

/-! ## §1. Gates, tasks and the history. -/

/-- What a call of `gate` came to. -/
inductive Fate
  | probing   -- `holds` has not come back yet
  | held      -- `holds` was true: there is nothing to await
  | returned  -- an awaitable was returned
  | raised    -- the probe raised, or a false gate named nothing
  deriving DecidableEq

/-- One call of `gate`: the actions it named, how many commits were made before
it parked, and how many when it was taken off what it still missed. -/
structure Gate (α : Type*) where
  named : List α
  birth : ℕ
  fate : Fate
  closed : Option ℕ
  deriving DecidableEq

/-- A committed action and the folds that ran for it. -/
structure Commit (α ρ : Type*) where
  action : α
  folds : List (α → ρ → ρ)

/-- Where a task that awaits a gate stands.  `dropped` is a task cancelled before
its first step: its coroutine never ran. -/
inductive TaskState
  | created
  | parked
  | resumed
  | cancelled
  | dropped
  deriving DecidableEq

/-- The await is over, one way or the other, after it began. -/
def TaskState.Left (stage : TaskState) : Prop :=
  stage = .resumed ∨ stage = .cancelled

/-- The task ended, begun or not. -/
def TaskState.Ended (stage : TaskState) : Prop :=
  stage.Left ∨ stage = .dropped

/-- A task awaiting the gate of that number. -/
structure Task where
  gate : ℕ
  stage : TaskState
  deriving DecidableEq

/-- A dispatcher, the reducers composed onto it, and its callers.  Gates are
numbered as its waiters are; `stack` holds the calls of `gate` under way, the
innermost probe first. -/
structure Gates (τ α ρ : Type*) where
  folds : Dict τ (List (α → ρ → ρ))
  reducers : ρ
  dispatcher : Dispatcher α
  history : List (Commit α ρ)
  gates : List (Gate α)
  tasks : List Task
  stack : List ℕ

/-- What a probe comes back with. -/
inductive Probed
  | holds
  | fails
  | raises
  deriving DecidableEq

/-- One step of a run. -/
inductive GateEvent (τ α ρ : Type*)
  | compose (reducer : List (τ × (α → ρ → ρ)))
  | dispatch (action : α)
  | gate (actions : List α)
  | answer (probed : Probed)
  | await (gate : ℕ)
  | start (task : ℕ)
  | resume (task : ℕ)
  | cancel (task : ℕ)

/-- `TypeError`: nothing composed folds the action's type. -/
inductive DispatchError
  | nothingFolds (text : String)
  deriving DecidableEq

/-- All folds of one commit, in composition order. -/
def Commit.apply {α ρ : Type*} (reducers : ρ) (c : Commit α ρ) : ρ :=
  c.folds.foldl (fun r fold => fold c.action r) reducers

/-- The actions committed after the gate was registered and before it was closed. -/
def Gate.heard {α ρ : Type*} (history : List (Commit α ρ)) (g : Gate α) : List α :=
  ((history.take (g.closed.getD history.length)).drop g.birth).map Commit.action

/-- Every action committed after the gate was registered. -/
def Gate.committed {α ρ : Type*} (history : List (Commit α ρ)) (g : Gate α) : List α :=
  (history.drop g.birth).map Commit.action

namespace Gates

variable {τ α ρ : Type*} [DecidableEq τ] [DecidableEq α]

/-- Nothing composed, nothing committed, nobody waiting. -/
def new (init : ρ) : Gates τ α ρ :=
  ⟨Dict.empty, init, Dispatcher.new, [], [], [], []⟩

/-! ## §2. The steps. -/

/-- `compose`: each fold goes after the ones its action type has. -/
def compose (reducer : List (τ × (α → ρ → ρ))) (s : Gates τ α ρ) : Gates τ α ρ :=
  { s with folds := reducer.foldl (fun folds item =>
      folds.set item.1 (folds.getD item.1 [] ++ [item.2])) s.folds }

/-- The text of the `TypeError`. -/
def unfolded (name : τ → String) (type : τ) (folds : Dict τ (List (α → ρ → ρ))) : String :=
  let actions := ", ".intercalate ((folds.keys.map name).mergeSort fun x y => decide (x ≤ y))
  "nothing here folds " ++ name type ++ ": this run's actions are " ++
    (if actions = "" then "none" else actions)

variable (typeOf : α → τ) (name : τ → String)

/-- `dispatch_sync`: every fold of the action's type, then the commit. -/
def dispatchSync (action : α) (s : Gates τ α ρ) : Except DispatchError Unit × Gates τ α ρ :=
  match s.folds.get? (typeOf action) with
  | none => (.error (.nothingFolds (unfolded name (typeOf action) s.folds)), s)
  | some folds =>
      (.ok (), { s with
        reducers := Commit.apply s.reducers ⟨action, folds⟩
        dispatcher := s.dispatcher.commit action
        history := s.history ++ [⟨action, folds⟩] })

/-- `gate` up to its probe: parked under every action it names. -/
def register (actions : List α) (s : Gates τ α ρ) : Gates τ α ρ :=
  { s with
    dispatcher := s.dispatcher.park actions
    gates := s.gates ++ [⟨actions.dedup, s.history.length, .probing, none⟩]
    stack := s.dispatcher.waiters.length :: s.stack }

/-- Take a gate off what it still misses: after a true probe, and when an await of
it ends. -/
def close (n : ℕ) (s : Gates τ α ρ) : Gates τ α ρ :=
  { s with
    dispatcher := s.dispatcher.unpark n
    gates := s.gates.modify n fun g =>
      { g with closed := some (g.closed.getD s.history.length) } }

def settle (n : ℕ) (fate : Fate) (s : Gates τ α ρ) : Gates τ α ρ :=
  { s with gates := s.gates.modify n fun g => { g with fate := fate } }

/-- What gate `n` named. -/
def named (s : Gates τ α ρ) (n : ℕ) : List α :=
  (s.gates[n]?.map Gate.named).getD []

/-- What gate `n` heard. -/
def heard (s : Gates τ α ρ) (n : ℕ) : List α :=
  (s.gates[n]?.map (Gate.heard s.history)).getD []

/-- Every action committed since gate `n` was registered. -/
def committed (s : Gates τ α ρ) (n : ℕ) : List α :=
  (s.gates[n]?.map (Gate.committed s.history)).getD []

/-- The rest of `gate`, once the innermost probe comes back. -/
def answer (probed : Probed) (s : Gates τ α ρ) : Option (Gates τ α ρ) :=
  match s.stack with
  | [] => none
  | n :: stack =>
      let popped := { s with stack := stack }
      match probed with
      | .holds => some ((popped.close n).settle n .held)
      | .fails => some (popped.settle n (if s.named n = [] then .raised else .returned))
      | .raises => some (popped.settle n .raised)  -- nothing undoes the parking

/-- A task is made of the awaitable of a returned gate. -/
def await (n : ℕ) (s : Gates τ α ρ) : Option (Gates τ α ρ) :=
  match s.gates[n]? with
  | some g => if g.fate = .returned then some { s with tasks := s.tasks ++ [⟨n, .created⟩] }
      else none
  | none => none

def mark (t : ℕ) (stage : TaskState) (s : Gates τ α ρ) : Gates τ α ρ :=
  { s with tasks := s.tasks.modify t fun task => { task with stage := stage } }

/-- The `finally` of `ready`. -/
def finish (t n : ℕ) (stage : TaskState) (s : Gates τ α ρ) : Gates τ α ρ :=
  (s.close n).mark t stage

/-- The first step of a task: it waits unless its event is set. -/
def start (t : ℕ) (s : Gates τ α ρ) : Option (Gates τ α ρ) :=
  match s.tasks[t]? with
  | some ⟨n, .created⟩ =>
      if s.dispatcher.Released n then some (s.finish t n .resumed)
      else some (s.mark t .parked)
  | _ => none

/-- A parked task runs on, once its event is set. -/
def resume (t : ℕ) (s : Gates τ α ρ) : Option (Gates τ α ρ) :=
  match s.tasks[t]? with
  | some ⟨n, .parked⟩ => if s.dispatcher.Released n then some (s.finish t n .resumed) else none
  | _ => none

/-- A cancellation is delivered. -/
def cancel (t : ℕ) (s : Gates τ α ρ) : Option (Gates τ α ρ) :=
  match s.tasks[t]? with
  | some ⟨_, .created⟩ => some (s.mark t .dropped)
  | some ⟨n, .parked⟩ => some (s.finish t n .cancelled)
  | _ => none

/-- One step.  No task runs while a probe does: `gate` does not suspend. -/
def next (s : Gates τ α ρ) : GateEvent τ α ρ → Option (Gates τ α ρ)
  | .compose reducer => some (s.compose reducer)
  | .dispatch action => some (s.dispatchSync typeOf name action).2
  | .gate actions => some (s.register actions)
  | .answer probed => s.answer probed
  | .await n => s.await n
  | .start t => if s.stack = [] then s.start t else none
  | .resume t => if s.stack = [] then s.resume t else none
  | .cancel t => if s.stack = [] then s.cancel t else none

/-- The runs of a dispatcher over reducers that start as `init`. -/
def machine (init : ρ) : Machine (Gates τ α ρ) (GateEvent τ α ρ) :=
  Machine.ofPartial (fun s => s = new init) (next typeOf name)

/-! ## §3. What a gate heard. -/

end Gates

section Heard

variable {α ρ : Type*}

/-- An open gate hears every commit. -/
theorem Gate.heard_concat {history : List (Commit α ρ)} {g : Gate α}
    (hborn : g.birth ≤ history.length) (hopen : g.closed = none) (c : Commit α ρ) :
    g.heard (history ++ [c]) = g.heard history ++ [c.action] := by
  unfold Gate.heard
  simp only [hopen, Option.getD_none, List.take_length]
  rw [List.drop_append_of_le_length hborn, List.map_append]
  rfl

/-- A closed gate hears none. -/
theorem Gate.heard_concat_closed {history : List (Commit α ρ)} {g : Gate α} {k : ℕ}
    (hk : g.closed = some k) (hle : k ≤ history.length) (c : Commit α ρ) :
    g.heard (history ++ [c]) = g.heard history := by
  unfold Gate.heard
  simp only [hk, Option.getD_some]
  rw [List.take_append_of_le_length hle]

/-- Closing a gate does not change what it heard so far. -/
theorem Gate.heard_close (history : List (Commit α ρ)) (g : Gate α) :
    Gate.heard history { g with closed := some (g.closed.getD history.length) }
      = g.heard history := rfl

variable [DecidableEq α]

/-- The waiter of a gate that heard those commits. -/
def Gate.waiter (heard : List α) (g : Gate α) : Waiter α where
  missing := g.named.filter (· ∉ heard)
  ready := !g.named.isEmpty && g.named.all (· ∈ heard)

omit [DecidableEq α] in
theorem Gate.mem_heard_concat {heard : List α} {a b : α} :
    b ∈ heard ++ [a] ↔ b ∈ heard ∨ b = a := by
  rw [List.mem_append, List.mem_singleton]

/-- The commit of an action the gate still misses. -/
theorem Gate.discard_waiter {g : Gate α} {heard : List α} {a : α} (hnamed : a ∈ g.named) :
    Dispatcher.Waiter.discard a (g.waiter heard) = g.waiter (heard ++ [a]) := by
  have hmissing : (g.waiter heard).missing.filter (· ≠ a)
      = (g.waiter (heard ++ [a])).missing := by
    unfold Gate.waiter
    rw [List.filter_filter]
    apply List.filter_congr
    intro b _
    by_cases hb : b ∈ heard <;> by_cases hba : b = a <;> simp [hb, hba]
  have hne : g.named.isEmpty = false := by
    rw [List.isEmpty_eq_false_iff]
    exact List.ne_nil_of_mem hnamed
  unfold Dispatcher.Waiter.discard
  rw [hmissing]
  -- released now, or released before: either way everything named was heard
  have hready : ((g.waiter heard).ready || (g.waiter (heard ++ [a])).missing.isEmpty)
      = (g.waiter (heard ++ [a])).ready := by
    rw [Bool.eq_iff_iff]
    simp only [Gate.waiter, hne, Bool.not_false, Bool.true_and, Bool.or_eq_true,
      List.all_eq_true, decide_eq_true_eq, List.isEmpty_iff, List.filter_eq_nil_iff,
      Decidable.not_not]
    constructor
    · rintro (h | h) b hb
      · exact Gate.mem_heard_concat.mpr (.inl (h b hb))
      · exact h b hb
    · intro h
      exact .inr h
  rw [hready]

/-- The commit of an action the gate does not miss. -/
theorem Gate.waiter_concat {g : Gate α} {heard : List α} {a : α}
    (h : a ∈ g.named → a ∈ heard) : g.waiter (heard ++ [a]) = g.waiter heard := by
  have hmem : ∀ b ∈ g.named, (b ∈ heard ++ [a] ↔ b ∈ heard) := by
    intro b hb
    rw [Gate.mem_heard_concat]
    constructor
    · rintro (hb' | rfl)
      · exact hb'
      · exact h hb
    · exact .inl
  unfold Gate.waiter
  congr 1
  · apply List.filter_congr
    intro b hb
    simp only [hmem b hb]
  · congr 1
    rw [Bool.eq_iff_iff]
    simp only [List.all_eq_true, decide_eq_true_eq]
    exact forall₂_congr hmem

theorem Gate.mem_missing {g : Gate α} {heard : List α} {a : α} :
    a ∈ (g.waiter heard).missing ↔ a ∈ g.named ∧ a ∉ heard := by
  simp [Gate.waiter]

theorem Gate.ready_iff {g : Gate α} {heard : List α} :
    (g.waiter heard).ready = true ↔ g.named ≠ [] ∧ ∀ a ∈ g.named, a ∈ heard := by
  simp [Gate.waiter]

end Heard

/-! ## §4. The waiters and the action map, from the history. -/

namespace Gates

variable {τ α ρ : Type*} [DecidableEq τ] [DecidableEq α]

/-- **The dispatcher is what the history says.**  Each gate's waiter misses what it
named and did not hear, and the action map holds the open gates, each under what it
misses; the reducers have folded every commit, in order. -/
structure Sound (init : ρ) (s : Gates τ α ρ) : Prop where
  length : s.dispatcher.waiters.length = s.gates.length
  tidy : Dispatcher.Tidy s.dispatcher.waiting
  nodup : ∀ g ∈ s.gates, g.named.Nodup
  born : ∀ g ∈ s.gates, g.birth ≤ s.history.length
  shut : ∀ g ∈ s.gates, ∀ k, g.closed = some k → k ≤ s.history.length
  waiter : ∀ (n : ℕ) (g : Gate α), s.gates[n]? = some g →
    s.dispatcher.waiters[n]? = some (g.waiter (g.heard s.history))
  registered : ∀ n a, n ∈ s.dispatcher.waiting.getD a [] ↔
    ∃ g : Gate α, s.gates[n]? = some g ∧ g.closed = none ∧ a ∈ g.named ∧
      a ∉ g.heard s.history
  replayed : s.reducers = s.history.foldl Commit.apply init

/-- A gate after `modify`, in terms of the one before. -/
theorem getElem?_modify_some {β : Type*} {l : List β} {n m : ℕ} {f : β → β} {x : β}
    (h : (l.modify n f)[m]? = some x) :
    ∃ y, l[m]? = some y ∧ x = if n = m then f y else y := by
  rw [List.getElem?_modify] at h
  cases hy : l[m]? with
  | none =>
      rw [hy] at h
      cases h
  | some y =>
      rw [hy] at h
      exact ⟨y, rfl, (Option.some.inj h).symm⟩

theorem forall_modify {β : Type*} {l : List β} {n : ℕ} {f : β → β} {P : β → Prop}
    (h : ∀ x ∈ l, P x) (hf : ∀ x, P x → P (f x)) : ∀ x ∈ l.modify n f, P x := by
  intro x hx
  obtain ⟨m, hm⟩ := List.mem_iff_getElem?.mp hx
  obtain ⟨y, hy, rfl⟩ := getElem?_modify_some hm
  have hP := h y (List.mem_of_getElem? hy)
  by_cases hnm : n = m
  · rw [if_pos hnm]
    exact hf y hP
  · rw [if_neg hnm]
    exact hP

theorem getElem?_modify_of_some {β : Type*} {l : List β} {n m : ℕ} {f : β → β} {y : β}
    (h : l[m]? = some y) : (l.modify n f)[m]? = some (if n = m then f y else y) := by
  rw [List.getElem?_modify, h]
  rfl

omit [DecidableEq τ] in
theorem Sound.missing {init : ρ} {s : Gates τ α ρ} (h : s.Sound init) {n : ℕ} {g : Gate α}
    (hg : s.gates[n]? = some g) (a : α) :
    a ∈ s.dispatcher.missing n ↔ a ∈ g.named ∧ a ∉ g.heard s.history := by
  unfold Dispatcher.missing
  rw [h.waiter n g hg]
  exact Gate.mem_missing

omit [DecidableEq τ] in
theorem Sound.released {init : ρ} {s : Gates τ α ρ} (h : s.Sound init) {n : ℕ} {g : Gate α}
    (hg : s.gates[n]? = some g) :
    s.dispatcher.Released n ↔ g.named ≠ [] ∧ ∀ a ∈ g.named, a ∈ g.heard s.history := by
  unfold Dispatcher.Released
  rw [h.waiter n g hg]
  exact Gate.ready_iff

omit [DecidableEq τ] in
theorem sound_new (init : ρ) : (new init : Gates τ α ρ).Sound init where
  length := rfl
  tidy := Dispatcher.tidy_empty
  nodup := nofun
  born := nofun
  shut := nofun
  waiter n g hg := by cases hg
  registered n a := by
    constructor
    · intro h
      cases h
    · rintro ⟨g, hg, _⟩
      cases hg
  replayed := rfl

omit [DecidableEq τ] in
/-- What a step leaves alone stays sound. -/
theorem Sound.same {init : ρ} {s s' : Gates τ α ρ} (h : s.Sound init)
    (hd : s'.dispatcher = s.dispatcher) (hg : s'.gates = s.gates)
    (hh : s'.history = s.history) (hr : s'.reducers = s.reducers) : s'.Sound init where
  length := by rw [hd, hg]; exact h.length
  tidy := by rw [hd]; exact h.tidy
  nodup := by rw [hg]; exact h.nodup
  born := by rw [hg, hh]; exact h.born
  shut := by rw [hg, hh]; exact h.shut
  waiter := by rw [hd, hg, hh]; exact h.waiter
  registered := by rw [hd, hg, hh]; exact h.registered
  replayed := by rw [hr, hh]; exact h.replayed

/-! ## §5. One step keeps it. -/

section Steps

variable (typeOf : α → τ) (name : τ → String) {init : ρ} {s : Gates τ α ρ}

omit [DecidableEq τ] in
/-- A commit reaches exactly the open gates that still miss its action. -/
theorem Sound.committed (h : s.Sound init) (c : Commit α ρ) :
    Sound init { s with
      reducers := Commit.apply s.reducers c
      dispatcher := s.dispatcher.commit c.action
      history := s.history ++ [c] } where
  length := (Dispatcher.length_commit c.action s.dispatcher).trans h.length
  tidy := h.tidy.erase c.action
  nodup := h.nodup
  born g hg := by
    show g.birth ≤ (s.history ++ [c]).length
    have hle := h.born g hg
    rw [List.length_append]
    omega
  shut g hg k hk := by
    show k ≤ (s.history ++ [c]).length
    have hle := h.shut g hg k hk
    rw [List.length_append]
    omega
  waiter n g hg := by
    have hborn := h.born g (List.mem_of_getElem? hg)
    have hw := h.waiter n g hg
    have hreg := h.registered n c.action
    show (s.dispatcher.commit c.action).waiters[n]?
      = some (g.waiter (g.heard (s.history ++ [c])))
    unfold Dispatcher.commit
    simp only [Dispatcher.getElem?_foldl_discard, hw, Option.map_some]
    by_cases hn : n ∈ s.dispatcher.waiting.getD c.action []
    · obtain ⟨g', hg', hopen, hnamed, _⟩ := hreg.mp hn
      obtain rfl := Option.some.inj (hg.symm.trans hg')
      rw [if_pos hn, Gate.heard_concat hborn hopen, Gate.discard_waiter hnamed]
    · rw [if_neg hn]
      cases hclosed : g.closed with
      | some k =>
          have hle := h.shut g (List.mem_of_getElem? hg) k hclosed
          rw [Gate.heard_concat_closed hclosed hle]
      | none =>
          -- open and not registered under it: not named, or heard before
          have hmiss : c.action ∈ g.named → c.action ∈ g.heard s.history := by
            intro hnamed
            by_contra hnot
            exact hn (hreg.mpr ⟨g, hg, hclosed, hnamed, hnot⟩)
          rw [Gate.heard_concat hborn hclosed, Gate.waiter_concat hmiss]
  registered n b := by
    show n ∈ (s.dispatcher.waiting.erase c.action).getD b [] ↔
      ∃ g : Gate α, s.gates[n]? = some g ∧ g.closed = none ∧ b ∈ g.named ∧
        b ∉ g.heard (s.history ++ [c])
    have hopen : ∀ g : Gate α, s.gates[n]? = some g → g.closed = none →
        g.heard (s.history ++ [c]) = g.heard s.history ++ [c.action] := by
      intro g hg hclosed
      exact Gate.heard_concat (h.born g (List.mem_of_getElem? hg)) hclosed c
    unfold Dict.getD
    rw [Dict.get?_erase]
    by_cases hb : c.action = b
    · rw [if_pos hb]
      constructor
      · intro hmem
        cases hmem
      · rintro ⟨g, hg, hclosed, _, hnot⟩
        rw [hopen g hg hclosed, Gate.mem_heard_concat] at hnot
        exact absurd (.inr hb.symm) hnot
    · rw [if_neg hb]
      refine (h.registered n b).trans ⟨?_, ?_⟩
      · rintro ⟨g, hg, hclosed, hnamed, hnot⟩
        refine ⟨g, hg, hclosed, hnamed, ?_⟩
        rw [hopen g hg hclosed, Gate.mem_heard_concat]
        exact fun hor => hor.elim hnot fun heq => hb heq.symm
      · rintro ⟨g, hg, hclosed, hnamed, hnot⟩
        rw [hopen g hg hclosed, Gate.mem_heard_concat] at hnot
        exact ⟨g, hg, hclosed, hnamed, fun hin => hnot (.inl hin)⟩
  replayed := by
    show Commit.apply s.reducers c = (s.history ++ [c]).foldl Commit.apply init
    rw [List.foldl_append, ← h.replayed]
    rfl

theorem Sound.dispatched (h : s.Sound init) (action : α) :
    (s.dispatchSync typeOf name action).2.Sound init := by
  unfold dispatchSync
  cases s.folds.get? (typeOf action) with
  | none => exact h
  | some folds => exact h.committed ⟨action, folds⟩

omit [DecidableEq τ] in
/-- The gates after a registration: the older ones, and the one being probed. -/
theorem getElem?_register {actions : List α} (n : ℕ) (g : Gate α) :
    (s.register actions).gates[n]? = some g ↔
      s.gates[n]? = some g ∨
        (n = s.gates.length ∧ g = ⟨actions.dedup, s.history.length, .probing, none⟩) := by
  show (s.gates ++ [_])[n]? = some g ↔ _
  rw [List.getElem?_append]
  by_cases hlt : n < s.gates.length
  · rw [if_pos hlt]
    constructor
    · exact .inl
    · rintro (hg | ⟨rfl, _⟩)
      · exact hg
      · omega
  · rw [if_neg hlt, List.getElem?_eq_none (by omega : s.gates.length ≤ n)]
    by_cases hn : n = s.gates.length
    · subst hn
      simp [eq_comm]
    · have hpos : [(⟨actions.dedup, s.history.length, .probing, none⟩ : Gate α)][
          n - s.gates.length]? = none := List.getElem?_eq_none (by simp; omega)
      rw [hpos]
      simp [hn]

omit [DecidableEq τ] in
/-- A gate just registered is parked under all it names, and heard nothing. -/
theorem Sound.gated (h : s.Sound init) (actions : List α) : (s.register actions).Sound init := by
  have hfresh : ∀ a, s.gates.length ∉ s.dispatcher.waiting.getD a [] := by
    intro a hmem
    obtain ⟨g, hg, _⟩ := (h.registered _ a).mp hmem
    rw [List.getElem?_eq_none (le_refl _)] at hg
    cases hg
  -- the new gate heard nothing
  have hheard : ∀ fate, Gate.heard s.history
      (⟨actions.dedup, s.history.length, fate, none⟩ : Gate α) = [] := by
    intro fate
    unfold Gate.heard
    simp
  constructor
  case length =>
    show (s.dispatcher.waiters ++ [_]).length = (s.gates ++ [_]).length
    rw [List.length_append, List.length_append, h.length]
    rfl
  case tidy =>
    apply h.tidy.foldl_enlist
    · exact List.nodup_dedup actions
    · intro a _
      rw [h.length]
      exact hfresh a
  case nodup =>
    intro g hg
    rcases List.mem_append.mp hg with hg | hg
    · exact h.nodup g hg
    · rw [List.mem_singleton.mp hg]
      exact List.nodup_dedup actions
  case born =>
    intro g hg
    rcases List.mem_append.mp hg with hg | hg
    · exact h.born g hg
    · rw [List.mem_singleton.mp hg]
      exact le_refl _
  case shut =>
    intro g hg k hk
    rcases List.mem_append.mp hg with hg | hg
    · exact h.shut g hg k hk
    · rw [List.mem_singleton.mp hg] at hk
      cases hk
  case waiter =>
    intro n g hg
    show (s.dispatcher.waiters ++ [⟨actions.dedup, false⟩])[n]? = _
    rcases (getElem?_register n g).mp hg with hg | ⟨rfl, rfl⟩
    · have hw := h.waiter n g hg
      rw [List.getElem?_append_left (List.getElem?_eq_some_iff.mp hw).1]
      exact hw
    · rw [← h.length, List.getElem?_concat_length]
      show _ = some (Gate.waiter (Gate.heard s.history _) _)
      rw [hheard]
      unfold Gate.waiter
      cases actions.dedup <;> simp
  case registered =>
    intro n a
    refine (Dispatcher.mem_getD_foldl_enlist _ _ _ _ _).trans ?_
    rw [h.length]
    constructor
    · rintro (hold | ⟨ha, rfl⟩)
      · obtain ⟨g, hg, hrest⟩ := (h.registered n a).mp hold
        exact ⟨g, (getElem?_register n g).mpr (.inl hg), hrest⟩
      · refine ⟨_, (getElem?_register _ _).mpr (.inr ⟨rfl, rfl⟩), rfl, ha, ?_⟩
        show a ∉ Gate.heard s.history _
        rw [hheard]
        exact List.not_mem_nil
    · rintro ⟨g, hg, hrest⟩
      rcases (getElem?_register n g).mp hg with hg | ⟨rfl, rfl⟩
      · exact .inl ((h.registered n a).mpr ⟨g, hg, hrest⟩)
      · exact .inr ⟨hrest.2.1, rfl⟩
  case replayed => exact h.replayed

omit [DecidableEq τ] in
/-- A closed gate is taken off everything it still misses. -/
theorem Sound.closed (h : s.Sound init) (n : ℕ) : (s.close n).Sound init where
  length := by
    show s.dispatcher.waiters.length = (s.gates.modify n _).length
    rw [List.length_modify]
    exact h.length
  tidy := h.tidy.foldl_delist _
  nodup := forall_modify h.nodup fun _ hg => hg
  born := forall_modify h.born fun _ hg => hg
  shut := by
    refine forall_modify h.shut fun y hy k hk => ?_
    rw [← Option.some.inj hk]
    cases hclosed : y.closed with
    | none => exact le_refl _
    | some j => exact hy j hclosed
  waiter m g hg := by
    obtain ⟨y, hy, rfl⟩ := getElem?_modify_some hg
    have hw := h.waiter m y hy
    by_cases hnm : n = m
    · simp only [if_pos hnm]
      exact hw
    · simp only [if_neg hnm]
      exact hw
  registered m a := by
    show m ∈ ((s.dispatcher.missing n).foldl (Dispatcher.delist n) s.dispatcher.waiting).getD a []
      ↔ ∃ g : Gate α, (s.gates.modify n _)[m]? = some g ∧ g.closed = none ∧ a ∈ g.named ∧
        a ∉ g.heard s.history
    by_cases hmn : m = n
    · subst hmn
      rw [h.tidy.mem_foldl_delist_self]
      constructor
      · rintro ⟨hold, hnot⟩
        -- registered means missing, and it was taken off all it misses
        obtain ⟨g, hg, _, hnamed, hheard⟩ := (h.registered m a).mp hold
        exact absurd ((h.missing hg a).mpr ⟨hnamed, hheard⟩) hnot
      · rintro ⟨g, hg, hclosed, _⟩
        obtain ⟨y, _, rfl⟩ := getElem?_modify_some hg
        simp at hclosed
    · rw [Dispatcher.mem_getD_foldl_delist hmn, h.registered m a]
      constructor
      · rintro ⟨g, hg, hrest⟩
        refine ⟨g, ?_, hrest⟩
        rw [getElem?_modify_of_some hg, if_neg (Ne.symm hmn)]
      · rintro ⟨g, hg, hrest⟩
        obtain ⟨y, hy, rfl⟩ := getElem?_modify_some hg
        rw [if_neg (Ne.symm hmn)] at hrest
        exact ⟨y, hy, hrest⟩
  replayed := h.replayed

omit [DecidableEq τ] in
/-- What a call of `gate` came to is not the dispatcher's. -/
theorem Sound.settled (h : s.Sound init) (n : ℕ) (fate : Fate) :
    (s.settle n fate).Sound init where
  length := by
    show s.dispatcher.waiters.length = (s.gates.modify n _).length
    rw [List.length_modify]
    exact h.length
  tidy := h.tidy
  nodup := forall_modify h.nodup fun _ hg => hg
  born := forall_modify h.born fun _ hg => hg
  shut := forall_modify h.shut fun _ hg => hg
  waiter m g hg := by
    obtain ⟨y, hy, rfl⟩ := getElem?_modify_some hg
    have hw := h.waiter m y hy
    by_cases hnm : n = m
    · simp only [if_pos hnm]
      exact hw
    · simp only [if_neg hnm]
      exact hw
  registered m a := by
    refine (h.registered m a).trans ⟨?_, ?_⟩
    · rintro ⟨y, hy, hrest⟩
      refine ⟨_, getElem?_modify_of_some hy, ?_⟩
      by_cases hnm : n = m
      · rw [if_pos hnm]
        exact hrest
      · rw [if_neg hnm]
        exact hrest
    · rintro ⟨g, hg, hrest⟩
      obtain ⟨y, hy, rfl⟩ := getElem?_modify_some hg
      by_cases hnm : n = m
      · rw [if_pos hnm] at hrest
        exact ⟨y, hy, hrest⟩
      · rw [if_neg hnm] at hrest
        exact ⟨y, hy, hrest⟩
  replayed := h.replayed

/-! ### What each step is, as an inversion. -/

omit [DecidableEq τ] in
/-- An answered probe: the innermost gate, and what became of it. -/
theorem answer_cases {probed : Probed} {s' : Gates τ α ρ} (h : s.answer probed = some s') :
    ∃ n stack, s.stack = n :: stack ∧
      ((probed = .holds ∧ s' = (({ s with stack := stack } : Gates τ α ρ).close n).settle n .held) ∨
        (probed = .fails ∧ s' = ({ s with stack := stack } : Gates τ α ρ).settle n
          (if s.named n = [] then .raised else .returned)) ∨
        (probed = .raises ∧ s' = ({ s with stack := stack } : Gates τ α ρ).settle n .raised)) := by
  unfold answer at h
  cases hstack : s.stack with
  | nil =>
      rw [hstack] at h
      cases h
  | cons n stack =>
      rw [hstack] at h
      refine ⟨n, stack, rfl, ?_⟩
      cases probed with
      | holds => exact .inl ⟨rfl, (Option.some.inj h).symm⟩
      | fails => exact .inr (.inl ⟨rfl, (Option.some.inj h).symm⟩)
      | raises => exact .inr (.inr ⟨rfl, (Option.some.inj h).symm⟩)

omit [DecidableEq τ] in
/-- A task starts: it runs on at once, or it parks. -/
theorem start_cases {t : ℕ} {s' : Gates τ α ρ} (h : s.start t = some s') :
    ∃ n, s.tasks[t]? = some ⟨n, .created⟩ ∧
      ((s.dispatcher.Released n ∧ s' = s.finish t n .resumed) ∨ s' = s.mark t .parked) := by
  unfold start at h
  split at h
  · rename_i n htask
    refine ⟨n, htask, ?_⟩
    by_cases hr : s.dispatcher.Released n
    · rw [if_pos hr] at h
      exact .inl ⟨hr, (Option.some.inj h).symm⟩
    · rw [if_neg hr] at h
      exact .inr (Option.some.inj h).symm
  · cases h

omit [DecidableEq τ] in
theorem resume_cases {t : ℕ} {s' : Gates τ α ρ} (h : s.resume t = some s') :
    ∃ n, s.tasks[t]? = some ⟨n, .parked⟩ ∧ s.dispatcher.Released n ∧
      s' = s.finish t n .resumed := by
  unfold resume at h
  split at h
  · rename_i n htask
    by_cases hr : s.dispatcher.Released n
    · rw [if_pos hr] at h
      exact ⟨n, htask, hr, (Option.some.inj h).symm⟩
    · rw [if_neg hr] at h
      cases h
  · cases h

omit [DecidableEq τ] in
theorem cancel_cases {t : ℕ} {s' : Gates τ α ρ} (h : s.cancel t = some s') :
    ∃ n, (s.tasks[t]? = some ⟨n, .created⟩ ∧ s' = s.mark t .dropped) ∨
      (s.tasks[t]? = some ⟨n, .parked⟩ ∧ s' = s.finish t n .cancelled) := by
  unfold cancel at h
  split at h
  · rename_i n htask
    exact ⟨n, .inl ⟨htask, (Option.some.inj h).symm⟩⟩
  · rename_i n htask
    exact ⟨n, .inr ⟨htask, (Option.some.inj h).symm⟩⟩
  · cases h

omit [DecidableEq τ] [DecidableEq α] in
theorem await_cases {n : ℕ} {s' : Gates τ α ρ} (h : s.await n = some s') :
    ∃ g, s.gates[n]? = some g ∧ g.fate = .returned ∧
      s' = { s with tasks := s.tasks ++ [⟨n, .created⟩] } := by
  unfold await at h
  cases hg : s.gates[n]? with
  | none =>
      rw [hg] at h
      cases h
  | some g =>
      rw [hg] at h
      by_cases hf : g.fate = .returned
      · simp only [if_pos hf, Option.some.injEq] at h
        exact ⟨g, rfl, hf, h.symm⟩
      · simp only [if_neg hf] at h
        cases h

omit [DecidableEq τ] in
theorem Sound.marked (h : s.Sound init) (t : ℕ) (stage : TaskState) :
    (s.mark t stage).Sound init := h.same rfl rfl rfl rfl

omit [DecidableEq τ] in
theorem Sound.finished (h : s.Sound init) (t n : ℕ) (stage : TaskState) :
    (s.finish t n stage).Sound init := (h.closed n).marked t stage

omit [DecidableEq τ] in
theorem Sound.answered (h : s.Sound init) {probed : Probed} {s' : Gates τ α ρ}
    (hans : s.answer probed = some s') : s'.Sound init := by
  have hpop : ∀ stack, ({ s with stack := stack } : Gates τ α ρ).Sound init :=
    fun _ => h.same rfl rfl rfl rfl
  obtain ⟨n, stack, _, ⟨_, rfl⟩ | ⟨_, rfl⟩ | ⟨_, rfl⟩⟩ := answer_cases hans
  · exact ((hpop stack).closed n).settled n .held
  · exact (hpop stack).settled n _
  · exact (hpop stack).settled n .raised

omit [DecidableEq τ] [DecidableEq α] in
/-- A task's step happens only while no probe runs. -/
theorem idle_of_some {o : Option (Gates τ α ρ)} {s' : Gates τ α ρ}
    (h : (if s.stack = [] then o else none) = some s') : s.stack = [] ∧ o = some s' := by
  by_cases hs : s.stack = []
  · rw [if_pos hs] at h
    exact ⟨hs, h⟩
  · rw [if_neg hs] at h
    cases h

/-- **Every step keeps the dispatcher what the history says.** -/
theorem Sound.next (h : s.Sound init) {e : GateEvent τ α ρ} {s' : Gates τ α ρ}
    (hst : next typeOf name s e = some s') : s'.Sound init := by
  cases e with
  | compose reducer =>
      obtain rfl := Option.some.inj hst
      exact h.same rfl rfl rfl rfl
  | dispatch action =>
      obtain rfl := Option.some.inj hst
      exact h.dispatched typeOf name action
  | gate actions =>
      obtain rfl := Option.some.inj hst
      exact h.gated actions
  | answer probed => exact h.answered hst
  | await n =>
      obtain ⟨g, _, _, rfl⟩ := await_cases hst
      exact h.same rfl rfl rfl rfl
  | start t =>
      obtain ⟨n, _, ⟨_, rfl⟩ | rfl⟩ := start_cases (idle_of_some hst).2
      · exact h.finished t n _
      · exact h.marked t _
  | resume t =>
      obtain ⟨n, _, _, rfl⟩ := resume_cases (idle_of_some hst).2
      exact h.finished t n _
  | cancel t =>
      obtain ⟨n, ⟨_, rfl⟩ | ⟨_, rfl⟩⟩ := cancel_cases (idle_of_some hst).2
      · exact h.marked t _
      · exact h.finished t n _

/-! ## §6. The calls of `gate` and the tasks. -/

omit [DecidableEq τ] [DecidableEq α] in
theorem heard_of_some {n : ℕ} {g : Gate α} (hg : s.gates[n]? = some g) :
    s.heard n = g.heard s.history := by
  unfold heard
  rw [hg]
  rfl

omit [DecidableEq τ] [DecidableEq α] in
theorem named_of_some {n : ℕ} {g : Gate α} (hg : s.gates[n]? = some g) :
    s.named n = g.named := by
  unfold named
  rw [hg]
  rfl

omit [DecidableEq τ] [DecidableEq α] in
/-- A field that an edit of one gate leaves alone. -/
theorem map_modify {β γ : Type*} {l : List β} {f : β → β} {p : β → γ}
    (hf : ∀ x, p (f x) = p x) (n m : ℕ) : (l.modify n f)[m]?.map p = l[m]?.map p := by
  rw [List.getElem?_modify]
  cases l[m]? with
  | none => rfl
  | some x =>
      by_cases hnm : n = m
      · simp [hnm, hf]
      · simp [hnm]

omit [DecidableEq τ] in
@[simp] theorem named_close (n m : ℕ) : (s.close n).named m = s.named m := by
  refine congrArg (Option.getD · []) ?_
  apply map_modify
  exact fun _ => rfl

omit [DecidableEq τ] in
@[simp] theorem heard_close (n m : ℕ) : (s.close n).heard m = s.heard m := by
  refine congrArg (Option.getD · []) ?_
  apply map_modify
  exact fun _ => rfl

omit [DecidableEq τ] [DecidableEq α] in
@[simp] theorem named_settle (n m : ℕ) (fate : Fate) : (s.settle n fate).named m = s.named m := by
  refine congrArg (Option.getD · []) ?_
  apply map_modify
  exact fun _ => rfl

omit [DecidableEq τ] [DecidableEq α] in
@[simp] theorem heard_settle (n m : ℕ) (fate : Fate) : (s.settle n fate).heard m = s.heard m := by
  refine congrArg (Option.getD · []) ?_
  apply map_modify
  exact fun _ => rfl

/-- **The calls and the tasks.**  Exactly the probing calls are on the stack, each
once; a gate was closed by its own true probe or by the end of an await of it; and
tasks await returned gates, the resumed ones having all they named. -/
structure Kept (s : Gates τ α ρ) : Prop where
  stack : s.stack.Nodup
  probing : ∀ n, n ∈ s.stack ↔ ∃ g : Gate α, s.gates[n]? = some g ∧ g.fate = .probing
  named : ∀ g ∈ s.gates, g.fate = .returned → g.named ≠ []
  closed : ∀ (n : ℕ) (g : Gate α), s.gates[n]? = some g →
    (g.closed ≠ none ↔ g.fate = .held ∨ ∃ task ∈ s.tasks, task.gate = n ∧ task.stage.Left)
  awaited : ∀ task ∈ s.tasks, ∃ g : Gate α, s.gates[task.gate]? = some g ∧ g.fate = .returned
  resumed : ∀ task ∈ s.tasks, task.stage = .resumed →
    ∀ a ∈ s.named task.gate, a ∈ s.heard task.gate

omit [DecidableEq τ] [DecidableEq α] in
theorem kept_new (init : ρ) : (new init : Gates τ α ρ).Kept where
  stack := List.nodup_nil
  probing n := by
    constructor
    · intro h
      cases h
    · rintro ⟨g, hg, _⟩
      cases hg
  named := nofun
  closed n g hg := by cases hg
  awaited := nofun
  resumed := nofun

/-! ### Edits of one task. -/

omit [DecidableEq τ] [DecidableEq α] in
theorem mem_mark_self {t n : ℕ} {was : TaskState} (ht : s.tasks[t]? = some ⟨n, was⟩)
    (stage : TaskState) : (⟨n, stage⟩ : Task) ∈ (s.mark t stage).tasks := by
  apply List.mem_of_getElem?
  show (s.tasks.modify t _)[t]? = _
  rw [getElem?_modify_of_some ht, if_pos rfl]

omit [DecidableEq τ] [DecidableEq α] in
theorem mem_mark_of_mem {t n : ℕ} {was : TaskState} (ht : s.tasks[t]? = some ⟨n, was⟩)
    (stage : TaskState) {task : Task} (h : task ∈ s.tasks) :
    task = ⟨n, was⟩ ∨ task ∈ (s.mark t stage).tasks := by
  obtain ⟨i, hi⟩ := List.mem_iff_getElem?.mp h
  by_cases hit : t = i
  · subst hit
    exact .inl (Option.some.inj (hi.symm.trans ht))
  · refine .inr (List.mem_of_getElem? (i := i) ?_)
    show (s.tasks.modify t _)[i]? = _
    rw [getElem?_modify_of_some hi, if_neg hit]

omit [DecidableEq τ] [DecidableEq α] in
theorem mem_of_mem_mark {t n : ℕ} {was stage : TaskState} (ht : s.tasks[t]? = some ⟨n, was⟩)
    {task : Task} (h : task ∈ (s.mark t stage).tasks) :
    task = ⟨n, stage⟩ ∨ task ∈ s.tasks := by
  obtain ⟨i, hi⟩ := List.mem_iff_getElem?.mp h
  obtain ⟨old, hold, rfl⟩ := getElem?_modify_some hi
  by_cases hit : t = i
  · subst hit
    obtain rfl := Option.some.inj (ht.symm.trans hold)
    rw [if_pos rfl]
    exact .inl rfl
  · rw [if_neg hit]
    exact .inr (List.mem_of_getElem? hold)

omit [DecidableEq τ] [DecidableEq α] in
/-- A task that did not get to await its gate closes nothing. -/
theorem Kept.marked (h : s.Kept) {t n : ℕ} {was stage : TaskState}
    (ht : s.tasks[t]? = some ⟨n, was⟩) (hwas : ¬ was.Left) (hstage : ¬ stage.Left) :
    (s.mark t stage).Kept where
  stack := h.stack
  probing := h.probing
  named := h.named
  closed m g hg := by
    refine (h.closed m g hg).trans (or_congr Iff.rfl ⟨?_, ?_⟩)
    · rintro ⟨task, hmem, hgate, hleft⟩
      rcases mem_mark_of_mem ht stage hmem with rfl | hmem
      · exact absurd hleft hwas
      · exact ⟨task, hmem, hgate, hleft⟩
    · rintro ⟨task, hmem, hgate, hleft⟩
      rcases mem_of_mem_mark ht hmem with rfl | hmem
      · exact absurd hleft hstage
      · exact ⟨task, hmem, hgate, hleft⟩
  awaited task hmem := by
    rcases mem_of_mem_mark ht hmem with rfl | hmem
    · exact h.awaited ⟨n, was⟩ (List.mem_of_getElem? ht)
    · exact h.awaited task hmem
  resumed task hmem hres := by
    rcases mem_of_mem_mark ht hmem with rfl | hmem
    · exact absurd (.inl hres) hstage
    · exact h.resumed task hmem hres

omit [DecidableEq τ] in
/-- The end of an await closes its gate. -/
theorem Kept.finished (h : s.Kept) {t n : ℕ} {was stage : TaskState}
    (ht : s.tasks[t]? = some ⟨n, was⟩) (hstage : stage.Left)
    (hres : stage = .resumed → ∀ a ∈ s.named n, a ∈ s.heard n) :
    (s.finish t n stage).Kept where
  stack := h.stack
  probing m := by
    refine (h.probing m).trans ⟨?_, ?_⟩
    · rintro ⟨g, hg, hf⟩
      refine ⟨_, getElem?_modify_of_some hg, ?_⟩
      by_cases hnm : n = m
      · rw [if_pos hnm]
        exact hf
      · rw [if_neg hnm]
        exact hf
    · rintro ⟨g, hg, hf⟩
      obtain ⟨y, hy, rfl⟩ := getElem?_modify_some hg
      by_cases hnm : n = m
      · rw [if_pos hnm] at hf
        exact ⟨y, hy, hf⟩
      · rw [if_neg hnm] at hf
        exact ⟨y, hy, hf⟩
  named := forall_modify h.named fun _ hg => hg
  closed m g hg := by
    obtain ⟨y, hy, rfl⟩ := getElem?_modify_some hg
    by_cases hnm : n = m
    · subst hnm
      -- the task just ended is the reason
      refine iff_of_true ?_ (.inr ⟨⟨n, stage⟩, mem_mark_self (s := s.close n) ht stage, rfl,
        hstage⟩)
      rw [if_pos rfl]
      exact nofun
    · rw [if_neg hnm]
      refine (h.closed m y hy).trans (or_congr Iff.rfl ⟨?_, ?_⟩)
      · rintro ⟨task, hmem, hgate, hleft⟩
        rcases mem_mark_of_mem (s := s.close n) ht stage hmem with rfl | hmem
        · exact absurd hgate hnm
        · exact ⟨task, hmem, hgate, hleft⟩
      · rintro ⟨task, hmem, hgate, hleft⟩
        rcases mem_of_mem_mark (s := s.close n) ht hmem with rfl | hmem
        · exact absurd hgate hnm
        · exact ⟨task, hmem, hgate, hleft⟩
  awaited task hmem := by
    have hold : ∃ g : Gate α, s.gates[task.gate]? = some g ∧ g.fate = .returned := by
      rcases mem_of_mem_mark (s := s.close n) ht hmem with rfl | hmem
      · exact h.awaited ⟨n, was⟩ (List.mem_of_getElem? ht)
      · exact h.awaited task hmem
    obtain ⟨g, hg, hf⟩ := hold
    refine ⟨_, getElem?_modify_of_some hg, ?_⟩
    by_cases hnm : n = task.gate
    · rw [if_pos hnm]
      exact hf
    · rw [if_neg hnm]
      exact hf
  resumed task hmem hstage' := by
    show ∀ a ∈ (s.close n).named task.gate, a ∈ (s.close n).heard task.gate
    rw [named_close, heard_close]
    rcases mem_of_mem_mark (s := s.close n) ht hmem with rfl | hmem
    · exact hres hstage'
    · exact h.resumed task hmem hstage'

omit [DecidableEq τ] [DecidableEq α] in
theorem Kept.same {s' : Gates τ α ρ} (h : s.Kept) (hstack : s'.stack = s.stack)
    (hgates : s'.gates = s.gates) (htasks : s'.tasks = s.tasks)
    (hhistory : s'.history = s.history) : s'.Kept where
  stack := by rw [hstack]; exact h.stack
  probing := by rw [hstack, hgates]; exact h.probing
  named := by rw [hgates]; exact h.named
  closed := by rw [hgates, htasks]; exact h.closed
  awaited := by rw [hgates, htasks]; exact h.awaited
  resumed := by
    unfold Gates.named Gates.heard
    rw [hgates, htasks, hhistory]
    exact h.resumed

/-- A commit adds to what gates heard. -/
theorem Kept.dispatched (h : s.Kept) (hsound : s.Sound init) (action : α) :
    (s.dispatchSync typeOf name action).2.Kept := by
  unfold dispatchSync
  cases s.folds.get? (typeOf action) with
  | none => exact h
  | some folds =>
      refine ⟨h.stack, h.probing, h.named, h.closed, h.awaited, ?_⟩
      intro task hmem hres a ha
      obtain ⟨g, hg, _⟩ := h.awaited task hmem
      have hold := h.resumed task hmem hres a ha
      rw [heard_of_some hg] at hold
      have hborn := hsound.born g (List.mem_of_getElem? hg)
      rw [heard_of_some (s := { s with
        reducers := _, dispatcher := _, history := s.history ++ [⟨action, folds⟩] }) hg]
      cases hclosed : g.closed with
      | none =>
          rw [Gate.heard_concat hborn hclosed]
          exact List.mem_append_left _ hold
      | some k =>
          have hle := hsound.shut g (List.mem_of_getElem? hg) k hclosed
          rw [Gate.heard_concat_closed hclosed hle]
          exact hold

omit [DecidableEq τ] in
/-- A call of `gate` begins: nothing awaits it yet. -/
theorem Kept.gated (h : s.Kept) (hsound : s.Sound init) (actions : List α) :
    (s.register actions).Kept := by
  -- its number is the next, and no gate, task or registration has it
  have hlt : ∀ (n : ℕ) (g : Gate α), s.gates[n]? = some g → n ≠ s.gates.length := by
    intro n g hg
    exact Nat.ne_of_lt (List.getElem?_eq_some_iff.mp hg).1
  have hold : ∀ (n : ℕ) (g : Gate α), s.gates[n]? = some g →
      (s.register actions).gates[n]? = some g :=
    fun n g hg => (getElem?_register n g).mpr (.inl hg)
  constructor
  case stack =>
    show (s.dispatcher.waiters.length :: s.stack).Nodup
    rw [hsound.length]
    refine List.nodup_cons.mpr ⟨fun hmem => ?_, h.stack⟩
    obtain ⟨g, hg, _⟩ := (h.probing _).mp hmem
    exact hlt _ g hg rfl
  case probing =>
    intro n
    show n ∈ s.dispatcher.waiters.length :: s.stack ↔ _
    rw [hsound.length, List.mem_cons, h.probing]
    constructor
    · rintro (rfl | ⟨g, hg, hf⟩)
      · exact ⟨_, (getElem?_register _ _).mpr (.inr ⟨rfl, rfl⟩), rfl⟩
      · exact ⟨g, hold n g hg, hf⟩
    · rintro ⟨g, hg, hf⟩
      rcases (getElem?_register n g).mp hg with hg | ⟨rfl, _⟩
      · exact .inr ⟨g, hg, hf⟩
      · exact .inl rfl
  case named =>
    intro g hg hf
    rcases List.mem_append.mp hg with hg | hg
    · exact h.named g hg hf
    · rw [List.mem_singleton.mp hg] at hf
      cases hf
  case closed =>
    intro n g hg
    rcases (getElem?_register n g).mp hg with hg | ⟨rfl, rfl⟩
    · exact h.closed n g hg
    · refine iff_of_false (fun hne => hne rfl) ?_
      rintro (hf | ⟨task, hmem, hgate, _⟩)
      · cases hf
      · obtain ⟨g, hg, _⟩ := h.awaited task hmem
        exact hlt _ g hg hgate
  case awaited =>
    intro task hmem
    obtain ⟨g, hg, hf⟩ := h.awaited task hmem
    exact ⟨g, hold _ g hg, hf⟩
  case resumed =>
    intro task hmem hres
    obtain ⟨g, hg, _⟩ := h.awaited task hmem
    have hkept := h.resumed task hmem hres
    rw [named_of_some hg, heard_of_some hg] at hkept
    rw [named_of_some (hold _ g hg), heard_of_some (hold _ g hg)]
    exact hkept

omit [DecidableEq τ] [DecidableEq α] in
/-- The innermost call is settled: it leaves the stack, and no task awaits it yet. -/
theorem Kept.settled (h : s.Kept) {n : ℕ} {stack : List ℕ} (hstack : s.stack = n :: stack)
    (fate : Fate) (hfate : fate ≠ .probing) (hnamed : fate = .returned → s.named n ≠ [])
    {f : Gate α → Gate α} (hf : ∀ g, (f g).named = g.named ∧ (f g).fate = fate ∧
      (g.closed = none → ((f g).closed ≠ none ↔ fate = .held)))
    {s' : Gates τ α ρ} (hs : s'.stack = stack) (hg : s'.gates = s.gates.modify n f)
    (ht : s'.tasks = s.tasks) (hheard : ∀ m, s'.heard m = s.heard m) : s'.Kept := by
  have hnd := h.stack
  rw [hstack] at hnd
  have ⟨hfresh, hrest⟩ := List.nodup_cons.mp hnd
  obtain ⟨g₀, hg₀, hprobing⟩ := (h.probing n).mp (by rw [hstack]; exact List.mem_cons_self)
  -- nobody awaits a call that is still probing
  have hnobody : ∀ task ∈ s.tasks, n ≠ task.gate := by
    intro task hmem heq
    obtain ⟨g, hg, hret⟩ := h.awaited task hmem
    rw [← heq] at hg
    obtain rfl := Option.some.inj (hg₀.symm.trans hg)
    rw [hprobing] at hret
    cases hret
  have hopen : g₀.closed = none := by
    by_contra hne
    rcases (h.closed n g₀ hg₀).mp hne with hheld | ⟨task, hmem, hgate, _⟩
    · rw [hprobing] at hheld
      cases hheld
    · exact hnobody task hmem hgate.symm
  have hkept : ∀ (m : ℕ) (g : Gate α), n ≠ m → s.gates[m]? = some g → s'.gates[m]? = some g := by
    intro m g hnm hgm
    rw [hg, getElem?_modify_of_some hgm, if_neg hnm]
  have hnames : ∀ m, s'.named m = s.named m := by
    intro m
    unfold Gates.named
    rw [hg, map_modify (p := Gate.named) fun g => (hf g).1]
  refine ⟨by rw [hs]; exact hrest, ?_, ?_, ?_, ?_, ?_⟩
  · intro m
    rw [hs]
    have hold := h.probing m
    rw [hstack, List.mem_cons] at hold
    by_cases hnm : n = m
    · subst hnm
      refine iff_of_false hfresh ?_
      rintro ⟨g, hgm, hp⟩
      rw [hg] at hgm
      obtain ⟨y, _, rfl⟩ := getElem?_modify_some hgm
      rw [if_pos rfl, (hf y).2.1] at hp
      exact hfate hp
    · constructor
      · intro hmem
        obtain ⟨g, hgm, hp⟩ := hold.mp (.inr hmem)
        exact ⟨g, hkept m g hnm hgm, hp⟩
      · rintro ⟨g, hgm, hp⟩
        rw [hg] at hgm
        obtain ⟨y, hy, rfl⟩ := getElem?_modify_some hgm
        rw [if_neg hnm] at hp
        exact (hold.mpr ⟨y, hy, hp⟩).resolve_left fun heq => hnm heq.symm
  · intro g hmem hret
    rw [hg] at hmem
    obtain ⟨m, hm⟩ := List.mem_iff_getElem?.mp hmem
    obtain ⟨y, hy, rfl⟩ := getElem?_modify_some hm
    by_cases hnm : n = m
    · subst hnm
      rw [if_pos rfl] at hret ⊢
      rw [(hf y).2.1] at hret
      rw [(hf y).1, ← named_of_some hy]
      exact hnamed hret
    · rw [if_neg hnm] at hret ⊢
      exact h.named y (List.mem_of_getElem? hy) hret
  · intro m g hgm
    rw [ht]
    rw [hg] at hgm
    obtain ⟨y, hy, rfl⟩ := getElem?_modify_some hgm
    by_cases hnm : n = m
    · subst hnm
      obtain rfl := Option.some.inj (hg₀.symm.trans hy)
      rw [if_pos rfl, (hf g₀).2.1]
      refine ((hf g₀).2.2 hopen).trans ⟨.inl, ?_⟩
      rintro (hheld | ⟨task, hmem, hgate, _⟩)
      · exact hheld
      · exact absurd hgate.symm (hnobody task hmem)
    · rw [if_neg hnm]
      exact h.closed m y hy
  · intro task hmem
    rw [ht] at hmem
    obtain ⟨g, hgt, hret⟩ := h.awaited task hmem
    exact ⟨g, hkept _ g (hnobody task hmem) hgt, hret⟩
  · intro task hmem
    rw [ht] at hmem
    rw [hnames, hheard]
    exact h.resumed task hmem

omit [DecidableEq τ] in
theorem Kept.answered (h : s.Kept) {probed : Probed} {s' : Gates τ α ρ}
    (hans : s.answer probed = some s') : s'.Kept := by
  obtain ⟨n, stack, hstack, ⟨_, rfl⟩ | ⟨_, rfl⟩ | ⟨_, rfl⟩⟩ := answer_cases hans
  · refine h.settled hstack .held nofun nofun (f := fun g =>
      { g with closed := some (g.closed.getD s.history.length), fate := .held })
      (fun g => ⟨rfl, rfl, fun _ => iff_of_true nofun rfl⟩) rfl ?_ rfl ?_
    · show (s.gates.modify n _).modify n _ = _
      rw [List.modify_modify_eq]
      rfl
    · intro m
      rw [heard_settle, heard_close]
      rfl
  · by_cases hnil : s.named n = []
    · rw [if_pos hnil]
      exact h.settled hstack .raised nofun nofun (f := fun g =>
        { g with fate := .raised })
        (fun g => ⟨rfl, rfl, fun hopen => iff_of_false (fun hne => hne hopen) nofun⟩) rfl rfl rfl
        fun m => heard_settle n m .raised
    · rw [if_neg hnil]
      exact h.settled hstack .returned nofun (fun _ => hnil) (f := fun g =>
        { g with fate := .returned })
        (fun g => ⟨rfl, rfl, fun hopen => iff_of_false (fun hne => hne hopen) nofun⟩) rfl rfl rfl
        fun m => heard_settle n m .returned
  · exact h.settled hstack .raised nofun nofun (f := fun g =>
      { g with fate := .raised })
      (fun g => ⟨rfl, rfl, fun hopen => iff_of_false (fun hne => hne hopen) nofun⟩) rfl rfl rfl
      fun m => heard_settle n m .raised

omit [DecidableEq τ] in
/-- A released gate heard all it named. -/
theorem heard_of_released (hsound : s.Sound init) {n : ℕ} (hr : s.dispatcher.Released n) :
    ∀ a ∈ s.named n, a ∈ s.heard n := by
  intro a ha
  cases hg : s.gates[n]? with
  | none =>
      unfold Gates.named at ha
      rw [hg] at ha
      cases ha
  | some g =>
      rw [named_of_some hg] at ha
      rw [heard_of_some hg]
      exact ((hsound.released hg).mp hr).2 a ha

/-- **Every step keeps the calls and the tasks.** -/
theorem Kept.next (h : s.Kept) (hsound : s.Sound init) {e : GateEvent τ α ρ}
    {s' : Gates τ α ρ} (hst : next typeOf name s e = some s') : s'.Kept := by
  cases e with
  | compose reducer =>
      obtain rfl := Option.some.inj hst
      exact h.same rfl rfl rfl rfl
  | dispatch action =>
      obtain rfl := Option.some.inj hst
      exact h.dispatched typeOf name hsound action
  | gate actions =>
      obtain rfl := Option.some.inj hst
      exact h.gated hsound actions
  | answer probed => exact h.answered hst
  | await n =>
      obtain ⟨g, hg, hret, rfl⟩ := await_cases hst
      refine ⟨h.stack, h.probing, h.named, ?_, ?_, ?_⟩
      -- the new task has not left, so it closes no gate
      · intro m g hgm
        refine (h.closed m g hgm).trans (or_congr Iff.rfl ⟨?_, ?_⟩)
        · rintro ⟨task, hmem, hrest⟩
          exact ⟨task, List.mem_append_left _ hmem, hrest⟩
        · rintro ⟨task, hmem, hgate, hleft⟩
          rcases List.mem_append.mp hmem with hmem | hmem
          · exact ⟨task, hmem, hgate, hleft⟩
          · rw [List.mem_singleton.mp hmem] at hleft
            rcases hleft with hleft | hleft <;> cases hleft
      · intro task hmem
        rcases List.mem_append.mp hmem with hmem | hmem
        · exact h.awaited task hmem
        · rw [List.mem_singleton.mp hmem]
          exact ⟨g, hg, hret⟩
      · intro task hmem hres
        rcases List.mem_append.mp hmem with hmem | hmem
        · exact h.resumed task hmem hres
        · rw [List.mem_singleton.mp hmem] at hres
          cases hres
  | start t =>
      have hcreated : ¬ TaskState.created.Left := by rintro (h | h) <;> cases h
      have hparked : ¬ TaskState.parked.Left := by rintro (h | h) <;> cases h
      obtain ⟨n, ht, ⟨hr, rfl⟩ | rfl⟩ := start_cases (idle_of_some hst).2
      -- a released gate lets the task through at once; else it parks
      · exact h.finished ht (.inl rfl) fun _ => heard_of_released hsound hr
      · exact h.marked ht hcreated hparked
  | resume t =>
      obtain ⟨n, ht, hr, rfl⟩ := resume_cases (idle_of_some hst).2
      exact h.finished ht (.inl rfl) fun _ => heard_of_released hsound hr
  | cancel t =>
      have hcreated : ¬ TaskState.created.Left := by rintro (h | h) <;> cases h
      have hdropped : ¬ TaskState.dropped.Left := by rintro (h | h) <;> cases h
      obtain ⟨n, ⟨ht, rfl⟩ | ⟨ht, rfl⟩⟩ := cancel_cases (idle_of_some hst).2
      · exact h.marked ht hcreated hdropped
      · exact h.finished ht (.inr rfl) nofun

/-- Both invariants, over every run. -/
theorem reachable_sound (h : (machine typeOf name init).Reachable s) :
    s.Sound init ∧ s.Kept := by
  refine h.invariant (P := fun s => s.Sound init ∧ s.Kept) ?_ ?_
  · rintro _ rfl
    exact ⟨sound_new init, kept_new init⟩
  · rintro s e s' ⟨hsound, hkept⟩ hst
    exact ⟨hsound.next typeOf name hst, hkept.next typeOf name hsound hst⟩

omit [DecidableEq τ] [DecidableEq α] in
/-- While no await of a gate has ended, it hears every commit. -/
theorem heard_eq_committed {n : ℕ} {g : Gate α} (hg : s.gates[n]? = some g)
    (hopen : g.closed = none) : s.heard n = s.committed n := by
  unfold heard committed
  rw [hg]
  simp only [Option.map_some, Option.getD_some, Gate.heard, Gate.committed, hopen,
    Option.getD_none, List.take_length]

omit [DecidableEq τ] in
/-- A commit releases gates that name its action only. -/
theorem released_of_commit (hsound : s.Sound init) {c : Commit α ρ} {n : ℕ}
    (hr : (s.dispatcher.commit c.action).Released n) :
    s.dispatcher.Released n ∨ c.action ∈ s.named n := by
  have hafter := hsound.committed c
  cases hg : s.gates[n]? with
  | none =>
      -- no such gate: no such waiter either
      have hge : s.dispatcher.waiters.length ≤ n := by
        rw [hsound.length]
        exact List.getElem?_eq_none_iff.mp hg
      unfold Dispatcher.Released at hr
      rw [List.getElem?_eq_none (by rw [Dispatcher.length_commit]; exact hge)] at hr
      cases hr
  | some g =>
      have ⟨hne, hall⟩ := (hafter.released hg).mp hr
      rw [named_of_some hg]
      by_cases hnamed : c.action ∈ g.named
      · exact .inr hnamed
      · refine .inl ((hsound.released hg).mpr ⟨hne, fun a ha => ?_⟩)
        have hmem := hall a ha
        cases hclosed : g.closed with
        | some k =>
            have hle := hsound.shut g (List.mem_of_getElem? hg) k hclosed
            rwa [Gate.heard_concat_closed hclosed hle] at hmem
        | none =>
            have hborn := hsound.born g (List.mem_of_getElem? hg)
            rw [Gate.heard_concat hborn hclosed, Gate.mem_heard_concat] at hmem
            exact hmem.resolve_right fun heq => hnamed (heq ▸ ha)

/-! ## §7. Released by what it named, and by nothing else. -/

/-- **What releases a task.**  In every state of every run, a parked task can run on
exactly when its gate heard every action it named: those committed since the gate
was registered (its probe's own commits included), up to the end of the first await
of that gate; no resumed task ran on before the last of them, and until an await
ends a gate hears every commit.  Every fold of every commit has run, in order.  A
dispatch is one commit of all the folds of its type and releases gates that name it
only; one that nothing folds raises and changes nothing. -/
theorem awaits_released (h : (machine typeOf name init).Reachable s) :
    (∀ t n : ℕ, s.tasks[t]? = some ⟨n, .parked⟩ →
      ((∃ s', s.resume t = some s') ↔ ∀ a ∈ s.named n, a ∈ s.heard n)) ∧
    (∀ t n : ℕ, s.tasks[t]? = some ⟨n, .resumed⟩ → ∀ a ∈ s.named n, a ∈ s.heard n) ∧
    (∀ t n : ℕ, s.tasks[t]? = some ⟨n, .parked⟩ →
      (∀ task ∈ s.tasks, task.gate = n → ¬ task.stage.Left) → s.heard n = s.committed n) ∧
    s.reducers = s.history.foldl Commit.apply init ∧
    (∀ a folds, s.folds.get? (typeOf a) = some folds →
      ∃ s', s.dispatchSync typeOf name a = (.ok (), s') ∧
        s'.history = s.history ++ [⟨a, folds⟩] ∧
        s'.reducers = Commit.apply s.reducers ⟨a, folds⟩ ∧
        ∀ n, s'.dispatcher.Released n → s.dispatcher.Released n ∨ a ∈ s.named n) ∧
    (∀ a, s.folds.get? (typeOf a) = none →
      s.dispatchSync typeOf name a
        = (.error (.nothingFolds (unfolded name (typeOf a) s.folds)), s)) := by
  obtain ⟨hsound, hkept⟩ := reachable_sound typeOf name h
  refine ⟨?_, ?_, ?_, hsound.replayed, ?_, ?_⟩
  · intro t n ht
    obtain ⟨g, hg, hret⟩ := hkept.awaited _ (List.mem_of_getElem? ht)
    have hne := hkept.named g (List.mem_of_getElem? hg) hret
    have hresume : (∃ s', s.resume t = some s') ↔ s.dispatcher.Released n := by
      unfold resume
      rw [ht]
      by_cases hr : s.dispatcher.Released n <;> simp [hr]
    rw [hresume, hsound.released hg, named_of_some hg, heard_of_some hg]
    exact and_iff_right hne
  · intro t n ht
    exact hkept.resumed _ (List.mem_of_getElem? ht) rfl
  · intro t n ht hnone
    obtain ⟨g, hg, hret⟩ := hkept.awaited _ (List.mem_of_getElem? ht)
    have hopen : g.closed = none := by
      by_contra hne
      rcases (hkept.closed n g hg).mp hne with hheld | ⟨task, hmem, hgate, hleft⟩
      · rw [hret] at hheld
        cases hheld
      · exact hnone task hmem hgate hleft
    exact heard_eq_committed hg hopen
  · intro a folds hfolds
    refine ⟨(s.dispatchSync typeOf name a).2, ?_⟩
    unfold dispatchSync
    rw [hfolds]
    exact ⟨rfl, rfl, rfl, fun n hr => released_of_commit hsound (c := ⟨a, folds⟩) hr⟩
  · intro a hfolds
    unfold dispatchSync
    rw [hfolds]

end Steps

/-! ### Two awaits of one gate. -/

/-- A run over one action, folded into a count of its commits. -/
def counted (events : List (GateEvent Unit Unit ℕ)) : Option (Gates Unit Unit ℕ) :=
  Machine.replay (next id fun _ => "Stored") (new 0) events

theorem reachable_of_counted {events : List (GateEvent Unit Unit ℕ)} {s : Gates Unit Unit ℕ}
    (h : counted events = some s) :
    (machine id (fun _ => "Stored") 0 : Machine (Gates Unit Unit ℕ) _).Reachable s :=
  Machine.Reachable.of_replay (fun _ _ _ h => h) events (.init rfl) h

/-- A gate on the one action, returned by a false probe. -/
def returned : List (GateEvent Unit Unit ℕ) :=
  [.compose [((), fun _ n => n + 1)], .gate [()], .answer .fails]

/-- Two tasks await one gate and the first is cancelled: the second is not released
by the action the gate named, committed after it registered. -/
theorem second_await_stranded :
    ∃ s : Gates Unit Unit ℕ,
      (machine id (fun _ => "Stored") 0 : Machine (Gates Unit Unit ℕ) _).Reachable s ∧
      s.tasks[1]? = some ⟨0, .parked⟩ ∧
      (∀ a ∈ s.named 0, a ∈ s.committed 0) ∧ ¬ ∃ s', s.resume 1 = some s' := by
  have key : (counted (returned ++ [.await 0, .await 0, .start 0, .start 1, .cancel 0,
      .dispatch ()])).any (fun s => decide (s.tasks[1]? = some ⟨0, .parked⟩ ∧
        (∀ a ∈ s.named 0, a ∈ s.committed 0) ∧ (s.resume 1).isSome = false)) = true := by
    decide +kernel
  obtain ⟨s, hrun, hs⟩ := (Option.any_eq_true _ _).mp key
  obtain ⟨htask, hnamed, hresume⟩ := of_decide_eq_true hs
  refine ⟨s, reachable_of_counted hrun, htask, hnamed, ?_⟩
  rintro ⟨s', hs'⟩
  rw [hs'] at hresume
  cases hresume

/-- A released task: parked, then one commit. -/
theorem awaits_released_once :
    ∃ s : Gates Unit Unit ℕ, s.tasks[0]? = some ⟨0, .parked⟩ ∧ s.history.length = 1 ∧
      ((∃ s', s.resume 0 = some s') ↔ ∀ a ∈ s.named 0, a ∈ s.heard 0) := by
  have key : (counted (returned ++ [.await 0, .start 0, .dispatch ()])).any
      (fun s => decide (s.tasks[0]? = some ⟨0, .parked⟩ ∧ s.history.length = 1)) = true := by
    decide +kernel
  obtain ⟨s, hrun, hs⟩ := (Option.any_eq_true _ _).mp key
  obtain ⟨htask, hlen⟩ := of_decide_eq_true hs
  exact ⟨s, htask, hlen, (awaits_released id (fun _ => "Stored")
    (reachable_of_counted hrun)).1 0 0 htask⟩

section Registrations

variable (typeOf : α → τ) (name : τ → String) {init : ρ} {s : Gates τ α ρ}

/-! ## §8. The action map holds the parked waiters. -/

/-- Gate `n` is parked under nothing it named. -/
def Clear (s : Gates τ α ρ) (n : ℕ) : Prop :=
  ∀ a ∈ s.named n, n ∉ s.dispatcher.waiting.getD a []

instance (s : Gates τ α ρ) (n : ℕ) : Decidable (s.Clear n) :=
  inferInstanceAs (Decidable (∀ a ∈ s.named n, n ∉ s.dispatcher.waiting.getD a []))

/-- The gate was returned, and neither released nor a task awaiting it ended. -/
def Parked (s : Gates τ α ρ) (n : ℕ) : Prop :=
  ∃ g : Gate α, s.gates[n]? = some g ∧ g.fate = .returned ∧ ¬ s.dispatcher.Released n ∧
    ∀ task ∈ s.tasks, task.gate = n → ¬ task.stage.Ended

/-- **The action map is exact**: a waiter stands under what it still misses while its
gate is parked, or while its probe runs; and no action is kept for nobody. -/
structure Exact (s : Gates τ α ρ) : Prop where
  registered : ∀ n a, n ∈ s.dispatcher.waiting.getD a [] ↔
    a ∈ s.dispatcher.missing n ∧ (n ∈ s.stack ∨ s.Parked n)
  nonempty : ∀ a, s.dispatcher.waiting.get? a ≠ some []

/-- What a step must not do: raise out of a probe past an action the gate misses, or
cancel a task before its first step while its gate is parked. -/
def Careful (s : Gates τ α ρ) : GateEvent τ α ρ → Prop
  | .answer .raises => ∀ n ∈ s.stack.head?, s.Clear n
  | .cancel t => ∀ task ∈ s.tasks[t]?, task.stage = .created → s.Clear task.gate
  | _ => True

/-- The gates nothing will take off the map again are on it nowhere. -/
structure Spared (s : Gates τ α ρ) : Prop where
  raised : ∀ (n : ℕ) (g : Gate α), s.gates[n]? = some g → g.fate = .raised → s.Clear n
  dropped : ∀ task ∈ s.tasks, task.stage = .dropped → s.Clear task.gate

omit [DecidableEq τ] in
theorem clear_iff (hsound : s.Sound init) (n : ℕ) :
    s.Clear n ↔ ∀ a, n ∉ s.dispatcher.waiting.getD a [] := by
  refine ⟨fun h a hmem => ?_, fun h a _ => h a⟩
  obtain ⟨g, hg, _, hnamed, _⟩ := (hsound.registered n a).mp hmem
  exact h a (by rw [named_of_some hg]; exact hnamed) hmem

omit [DecidableEq τ] [DecidableEq α] in
/-- A gate on the stack is being probed. -/
theorem Kept.fate_of_stack (h : s.Kept) {n : ℕ} (hstack : n ∈ s.stack) {g : Gate α}
    (hg : s.gates[n]? = some g) : g.fate = .probing := by
  obtain ⟨g', hg', hp⟩ := (h.probing n).mp hstack
  rw [Option.some.inj (hg.symm.trans hg')]
  exact hp

omit [DecidableEq τ] [DecidableEq α] in
/-- A gate a task awaits was returned. -/
theorem Kept.fate_of_task (h : s.Kept) {task : Task} (htask : task ∈ s.tasks) {g : Gate α}
    (hg : s.gates[task.gate]? = some g) : g.fate = .returned := by
  obtain ⟨g', hg', hret⟩ := h.awaited task htask
  rw [Option.some.inj (hg.symm.trans hg')]
  exact hret

omit [DecidableEq τ] in
/-- An exact map has nothing under a gate that is neither probed nor parked. -/
theorem Exact.spared (h : s.Exact) (hsound : s.Sound init) (hkept : s.Kept) : s.Spared := by
  constructor
  case raised =>
    intro n g hg hraised
    refine (clear_iff hsound n).mpr fun a hmem => ?_
    rcases ((h.registered n a).mp hmem).2 with hstack | ⟨g', hg', hret, _⟩
    · rw [hkept.fate_of_stack hstack hg] at hraised
      cases hraised
    · rw [Option.some.inj (hg.symm.trans hg'), hret] at hraised
      cases hraised
  case dropped =>
    intro task htask hdropped
    refine (clear_iff hsound task.gate).mpr fun a hmem => ?_
    obtain ⟨g, hg, hret⟩ := hkept.awaited task htask
    rcases ((h.registered task.gate a).mp hmem).2 with hstack | ⟨g', _, _, _, hended⟩
    · rw [hkept.fate_of_stack hstack hg] at hret
      cases hret
    · exact hended task htask rfl (.inr hdropped)

omit [DecidableEq τ] in
/-- A gate that is still to be closed, and not one of the spared, is probed or parked. -/
theorem Spared.stands (h : s.Spared) (hsound : s.Sound init) (hkept : s.Kept) {n : ℕ} {g : Gate α}
    (hg : s.gates[n]? = some g) (hopen : g.closed = none) {a : α}
    (hmem : n ∈ s.dispatcher.waiting.getD a []) (hnamed : a ∈ g.named)
    (hheard : a ∉ g.heard s.history) : n ∈ s.stack ∨ s.Parked n := by
  have hopen' : ¬ (g.fate = .held ∨ ∃ task ∈ s.tasks, task.gate = n ∧ task.stage.Left) :=
    fun hor => (hkept.closed n g hg).mpr hor hopen
  cases hfate : g.fate with
  | probing => exact .inl ((hkept.probing n).mpr ⟨g, hg, hfate⟩)
  | held => exact absurd (.inl hfate) hopen'
  | raised => exact absurd hmem ((clear_iff hsound n).mp (h.raised n g hg hfate) a)
  | returned =>
      refine .inr ⟨g, hg, hfate, ?_, ?_⟩
      · intro hr
        exact hheard (((hsound.released hg).mp hr).2 a hnamed)
      · -- a task that ended on it left it, which closed it, or was dropped, and it is spared
        rintro task htask rfl (hleft | hdropped)
        · exact hopen' (.inr ⟨task, htask, rfl, hleft⟩)
        · exact (clear_iff hsound task.gate).mp (h.dropped task htask hdropped) a hmem

omit [DecidableEq τ] [DecidableEq α] in
/-- A gate that is probed or parked is still to be closed. -/
theorem Kept.open_of_stands (h : s.Kept) {n : ℕ} (hstands : n ∈ s.stack ∨ s.Parked n) :
    ∃ g : Gate α, s.gates[n]? = some g ∧ g.closed = none := by
  rcases hstands with hstack | ⟨g, hg, hret, _, hended⟩
  · obtain ⟨g, hg, hp⟩ := (h.probing n).mp hstack
    refine ⟨g, hg, ?_⟩
    by_contra hne
    rcases (h.closed n g hg).mp hne with hheld | ⟨task, htask, rfl, _⟩
    · rw [hp] at hheld
      cases hheld
    · rw [h.fate_of_task htask hg] at hp
      cases hp
  · refine ⟨g, hg, ?_⟩
    by_contra hne
    rcases (h.closed n g hg).mp hne with hheld | ⟨task, htask, hn, hleft⟩
    · rw [hret] at hheld
      cases hheld
    · exact hended task htask hn (.inl hleft)

omit [DecidableEq τ] in
/-- The map is exact when the gates that nobody will close are off it. -/
theorem exact_iff (hsound : s.Sound init) (hkept : s.Kept) : s.Exact ↔ s.Spared := by
  constructor
  · exact fun h => h.spared hsound hkept
  · intro h
    refine ⟨fun n a => ?_, hsound.tidy.nonempty⟩
    constructor
    · intro hmem
      obtain ⟨g, hg, hopen, hnamed, hheard⟩ := (hsound.registered n a).mp hmem
      exact ⟨(hsound.missing hg a).mpr ⟨hnamed, hheard⟩,
        h.stands hsound hkept hg hopen hmem hnamed hheard⟩
    · rintro ⟨hmiss, hstands⟩
      obtain ⟨g, hg, hopen⟩ := hkept.open_of_stands hstands
      obtain ⟨hnamed, hheard⟩ := (hsound.missing hg a).mp hmiss
      exact (hsound.registered n a).mpr ⟨g, hg, hopen, hnamed, hheard⟩

/-! ### A step registers the gate it makes, and no other. -/

omit [DecidableEq τ] in
theorem mem_waiting_close (hsound : s.Sound init) {n m : ℕ} {a : α}
    (h : m ∈ (s.close n).dispatcher.waiting.getD a []) :
    m ∈ s.dispatcher.waiting.getD a [] := by
  by_cases hmn : m = n
  · subst hmn
    exact ((hsound.tidy.mem_foldl_delist_self a _).mp h).1
  · exact (Dispatcher.mem_getD_foldl_delist hmn a _ _).mp h

/-- Registrations of older gates are only taken away. -/
theorem mem_waiting_of_next (hsound : s.Sound init) {e : GateEvent τ α ρ} {s' : Gates τ α ρ}
    (hst : next typeOf name s e = some s') {n : ℕ} (hn : n < s.gates.length) {a : α}
    (h : n ∈ s'.dispatcher.waiting.getD a []) : n ∈ s.dispatcher.waiting.getD a [] := by
  cases e with
  | compose reducer =>
      obtain rfl := Option.some.inj hst
      exact h
  | dispatch action =>
      obtain rfl := Option.some.inj hst
      unfold dispatchSync at h
      cases hfolds : s.folds.get? (typeOf action) with
      | none =>
          rw [hfolds] at h
          exact h
      | some folds =>
          rw [hfolds] at h
          -- the dispatched action is popped with all that waited on it
          have herase : n ∈ (s.dispatcher.waiting.erase action).getD a [] := h
          unfold Dict.getD at herase
          rw [Dict.get?_erase] at herase
          by_cases ha : action = a
          · rw [if_pos ha] at herase
            cases herase
          · rw [if_neg ha] at herase
            exact herase
  | gate actions =>
      obtain rfl := Option.some.inj hst
      rcases (Dispatcher.mem_getD_foldl_enlist _ _ _ _ _).mp h with hold | ⟨_, rfl⟩
      · exact hold
      · rw [hsound.length] at hn
        exact absurd hn (lt_irrefl _)
  | answer probed =>
      have hpop : ∀ stack, ({ s with stack := stack } : Gates τ α ρ).Sound init :=
        fun _ => hsound.same rfl rfl rfl rfl
      obtain ⟨m, stack, _, ⟨_, rfl⟩ | ⟨_, rfl⟩ | ⟨_, rfl⟩⟩ := answer_cases hst
      · exact mem_waiting_close (hpop stack) h
      · exact h
      · exact h
  | await m =>
      obtain ⟨g, _, _, rfl⟩ := await_cases hst
      exact h
  | start t =>
      obtain ⟨m, _, ⟨_, rfl⟩ | rfl⟩ := start_cases (idle_of_some hst).2
      · exact mem_waiting_close hsound h
      · exact h
  | resume t =>
      obtain ⟨m, _, _, rfl⟩ := resume_cases (idle_of_some hst).2
      exact mem_waiting_close hsound h
  | cancel t =>
      obtain ⟨m, ⟨_, rfl⟩ | ⟨_, rfl⟩⟩ := cancel_cases (idle_of_some hst).2
      · exact h
      · exact mem_waiting_close hsound h

/-- A gate off the map stays off. -/
theorem Clear.next {n : ℕ} (h : s.Clear n) (hsound : s.Sound init) {e : GateEvent τ α ρ}
    {s' : Gates τ α ρ} (hst : Gates.next typeOf name s e = some s') (hn : n < s.gates.length) :
    s'.Clear n := by
  refine (clear_iff (hsound.next typeOf name hst) n).mpr fun a hmem => ?_
  exact (clear_iff hsound n).mp h a (mem_waiting_of_next typeOf name hsound hst hn hmem)

omit [DecidableEq τ] in
/-- A gate that settles as raised: its probe raised, or it named nothing. -/
theorem raised_of_answer {probed : Probed} {s' : Gates τ α ρ} (h : s.answer probed = some s')
    {n : ℕ} {g : Gate α} (hg : s'.gates[n]? = some g) (hraised : g.fate = .raised) :
    (∃ y : Gate α, s.gates[n]? = some y ∧ (y.fate = .raised ∨ y.named = [])) ∨
      (probed = .raises ∧ s.stack.head? = some n) := by
  obtain ⟨m, stack, hstack, hcases⟩ := answer_cases h
  have hhead : s.stack.head? = some m := by rw [hstack]; rfl
  rcases hcases with ⟨_, rfl⟩ | ⟨_, rfl⟩ | ⟨rfl, rfl⟩
  · obtain ⟨z, hz, rfl⟩ := getElem?_modify_some hg
    obtain ⟨y, hy, rfl⟩ := getElem?_modify_some hz
    by_cases hmn : m = n
    · rw [if_pos hmn] at hraised
      cases hraised
    · rw [if_neg hmn, if_neg hmn] at hraised
      exact .inl ⟨y, hy, .inl hraised⟩
  · obtain ⟨y, hy, rfl⟩ := getElem?_modify_some hg
    by_cases hmn : m = n
    · subst hmn
      rw [if_pos rfl] at hraised
      by_cases hnil : s.named m = []
      · exact .inl ⟨y, hy, .inr ((named_of_some hy).symm.trans hnil)⟩
      · simp only [if_neg hnil] at hraised
        cases hraised
    · rw [if_neg hmn] at hraised
      exact .inl ⟨y, hy, .inl hraised⟩
  · obtain ⟨y, hy, rfl⟩ := getElem?_modify_some hg
    by_cases hmn : m = n
    · subst hmn
      exact .inr ⟨rfl, hhead⟩
    · rw [if_neg hmn] at hraised
      exact .inl ⟨y, hy, .inl hraised⟩

/-- A step leaves the gates as they were, but for the one it makes, probes or closes. -/
theorem raised_of_next {e : GateEvent τ α ρ} {s' : Gates τ α ρ}
    (hst : next typeOf name s e = some s') {n : ℕ} {g : Gate α} (hg : s'.gates[n]? = some g)
    (hraised : g.fate = .raised) :
    (∃ y : Gate α, s.gates[n]? = some y ∧ (y.fate = .raised ∨ y.named = [])) ∨
      (e = .answer .raises ∧ s.stack.head? = some n) := by
  have hclose : ∀ m, (s.close m).gates[n]? = some g →
      ∃ y : Gate α, s.gates[n]? = some y ∧ (y.fate = .raised ∨ y.named = []) := by
    intro m hgm
    obtain ⟨y, hy, rfl⟩ := getElem?_modify_some hgm
    refine ⟨y, hy, .inl ?_⟩
    by_cases hmn : m = n
    · rw [if_pos hmn] at hraised
      exact hraised
    · rw [if_neg hmn] at hraised
      exact hraised
  cases e with
  | compose reducer =>
      obtain rfl := Option.some.inj hst
      exact .inl ⟨g, hg, .inl hraised⟩
  | dispatch action =>
      obtain rfl := Option.some.inj hst
      refine .inl ⟨g, ?_, .inl hraised⟩
      unfold dispatchSync at hg
      cases hfolds : s.folds.get? (typeOf action) <;> rw [hfolds] at hg <;> exact hg
  | gate actions =>
      obtain rfl := Option.some.inj hst
      rcases (getElem?_register n g).mp hg with hg | ⟨_, rfl⟩
      · exact .inl ⟨g, hg, .inl hraised⟩
      · cases hraised
  | answer probed =>
      rcases raised_of_answer hst hg hraised with hold | ⟨rfl, hhead⟩
      · exact .inl hold
      · exact .inr ⟨rfl, hhead⟩
  | await m =>
      obtain ⟨y, _, _, rfl⟩ := await_cases hst
      exact .inl ⟨g, hg, .inl hraised⟩
  | start t =>
      obtain ⟨m, _, ⟨_, rfl⟩ | rfl⟩ := start_cases (idle_of_some hst).2
      · exact .inl (hclose m hg)
      · exact .inl ⟨g, hg, .inl hraised⟩
  | resume t =>
      obtain ⟨m, _, _, rfl⟩ := resume_cases (idle_of_some hst).2
      exact .inl (hclose m hg)
  | cancel t =>
      obtain ⟨m, ⟨_, rfl⟩ | ⟨_, rfl⟩⟩ := cancel_cases (idle_of_some hst).2
      · exact .inl ⟨g, hg, .inl hraised⟩
      · exact .inl (hclose m hg)

/-- A task that was dropped: before, or just now, before its first step. -/
theorem dropped_of_next {e : GateEvent τ α ρ} {s' : Gates τ α ρ}
    (hst : next typeOf name s e = some s') {task : Task} (htask : task ∈ s'.tasks)
    (hdropped : task.stage = .dropped) :
    task ∈ s.tasks ∨ ∃ t, e = .cancel t ∧ s.tasks[t]? = some ⟨task.gate, .created⟩ := by
  cases e with
  | compose reducer =>
      obtain rfl := Option.some.inj hst
      exact .inl htask
  | dispatch action =>
      obtain rfl := Option.some.inj hst
      refine .inl ?_
      unfold dispatchSync at htask
      cases hfolds : s.folds.get? (typeOf action) <;> rw [hfolds] at htask <;> exact htask
  | gate actions =>
      obtain rfl := Option.some.inj hst
      exact .inl htask
  | answer probed =>
      obtain ⟨m, stack, _, ⟨_, rfl⟩ | ⟨_, rfl⟩ | ⟨_, rfl⟩⟩ := answer_cases hst <;>
        exact .inl htask
  | await m =>
      obtain ⟨y, _, _, rfl⟩ := await_cases hst
      rcases List.mem_append.mp htask with hold | hnew
      · exact .inl hold
      · rw [List.mem_singleton.mp hnew] at hdropped
        cases hdropped
  | start t =>
      obtain ⟨m, ht, ⟨_, rfl⟩ | rfl⟩ := start_cases (idle_of_some hst).2
      · rcases mem_of_mem_mark (s := s.close m) ht htask with rfl | hold
        · cases hdropped
        · exact .inl hold
      · rcases mem_of_mem_mark ht htask with rfl | hold
        · cases hdropped
        · exact .inl hold
  | resume t =>
      obtain ⟨m, ht, _, rfl⟩ := resume_cases (idle_of_some hst).2
      rcases mem_of_mem_mark (s := s.close m) ht htask with rfl | hold
      · cases hdropped
      · exact .inl hold
  | cancel t =>
      obtain ⟨m, ⟨ht, rfl⟩ | ⟨ht, rfl⟩⟩ := cancel_cases (idle_of_some hst).2
      · rcases mem_of_mem_mark ht htask with rfl | hold
        · exact .inr ⟨t, rfl, ht⟩
        · exact .inl hold
      · rcases mem_of_mem_mark (s := s.close m) ht htask with rfl | hold
        · cases hdropped
        · exact .inl hold

/-- **One careful step** keeps what nobody will close off the map. -/
theorem Spared.next (h : s.Spared) (hsound : s.Sound init) (hkept : s.Kept)
    {e : GateEvent τ α ρ} {s' : Gates τ α ρ} (hst : Gates.next typeOf name s e = some s')
    (hok : s.Careful e) : s'.Spared where
  raised n g hg hraised := by
    rcases raised_of_next typeOf name hst hg hraised with ⟨y, hy, hold⟩ | ⟨rfl, hhead⟩
    · have hclear : s.Clear n := by
        rcases hold with hold | hnil
        · exact h.raised n y hy hold
        · intro a ha
          rw [named_of_some hy, hnil] at ha
          cases ha
      exact hclear.next typeOf name hsound hst (List.getElem?_eq_some_iff.mp hy).1
    · have hn : n < s.gates.length := by
        have hmem : n ∈ s.stack := List.mem_of_mem_head? hhead
        obtain ⟨y, hy, _⟩ := (hkept.probing n).mp hmem
        exact (List.getElem?_eq_some_iff.mp hy).1
      have hclear : s.Clear n := hok n hhead
      exact hclear.next typeOf name hsound hst hn
  dropped task htask hdropped := by
    have hlt : ∀ task ∈ s.tasks, task.gate < s.gates.length := by
      intro task hmem
      obtain ⟨g, hg, _⟩ := hkept.awaited task hmem
      exact (List.getElem?_eq_some_iff.mp hg).1
    rcases dropped_of_next typeOf name hst htask hdropped with hold | ⟨t, rfl, ht⟩
    · exact (h.dropped task hold hdropped).next typeOf name hsound hst (hlt task hold)
    · have hclear : s.Clear task.gate := hok ⟨task.gate, .created⟩ ht rfl
      exact hclear.next typeOf name hsound hst (hlt ⟨task.gate, .created⟩ (List.mem_of_getElem? ht))

/-- A careless step leaves a waiter behind. -/
theorem careful_of_spared (hkept : s.Kept) {e : GateEvent τ α ρ}
    {s' : Gates τ α ρ} (hst : Gates.next typeOf name s e = some s') (h : s'.Spared) :
    s.Careful e := by
  cases e with
  | answer probed =>
      cases probed with
      | raises =>
          intro n hhead
          have hans : s.answer .raises = some s' := hst
          obtain ⟨m, stack, hstack, hcases⟩ := answer_cases hans
          have hmn : m = n := by
            rw [hstack] at hhead
            exact Option.some.inj hhead
          subst hmn
          have hmem : m ∈ s.stack := by
            rw [hstack]
            exact List.mem_cons_self
          obtain ⟨y, hy, _⟩ := (hkept.probing m).mp hmem
          rcases hcases with ⟨hp, _⟩ | ⟨hp, _⟩ | ⟨_, rfl⟩
          · cases hp
          · cases hp
          · have hset := getElem?_modify_of_some (n := m)
              (f := fun g : Gate α => { g with fate := .raised }) hy
            rw [if_pos rfl] at hset
            have hclear := h.raised m _ hset rfl
            -- settling moves neither the map nor what was named
            intro a ha
            refine hclear a ?_
            rw [named_settle]
            exact ha
      | holds => exact trivial
      | fails => exact trivial
  | cancel t =>
      rintro ⟨n, stage⟩ htask hcreated
      cases hcreated
      have ht : s.tasks[t]? = some ⟨n, .created⟩ := htask
      obtain ⟨m, ⟨hm, rfl⟩ | ⟨hm, _⟩⟩ := cancel_cases (idle_of_some hst).2
      · exact h.dropped ⟨n, .dropped⟩ (mem_mark_self ht .dropped) rfl
      · rw [hm] at ht
        cases ht
  | compose reducer => exact trivial
  | dispatch action => exact trivial
  | gate actions => exact trivial
  | await n => exact trivial
  | start t => exact trivial
  | resume t => exact trivial

omit [DecidableEq τ] in
theorem spared_new (init : ρ) : (new init : Gates τ α ρ).Spared :=
  ⟨fun n g hg => (by cases hg), nofun⟩

/-- **Exactly the parked waiters.**  In every run whose steps are all careful, with no
call of `gate` under way, a waiter is registered under an action exactly when it still
misses it and its gate was returned, is not released, and no task awaiting it ended; no
action maps to an empty collection.  The next step keeps the map exact exactly when it
is careful too. -/
theorem parked_exactly (h : ((machine typeOf name init).guarded Careful).Reachable s) :
    (s.stack = [] → ∀ n a, n ∈ s.dispatcher.waiting.getD a [] ↔
      a ∈ s.dispatcher.missing n ∧ s.Parked n) ∧
    (∀ a, s.dispatcher.waiting.get? a ≠ some []) ∧
    s.Exact ∧
    ∀ e s', next typeOf name s e = some s' → (s'.Exact ↔ s.Careful e) := by
  have hinv : s.Sound init ∧ s.Kept ∧ s.Spared := by
    refine h.guarded_invariant (P := fun s => s.Sound init ∧ s.Kept ∧ s.Spared) ?_ ?_
    · rintro _ rfl
      exact ⟨sound_new init, kept_new init, spared_new init⟩
    · rintro s e s' ⟨hsound, hkept, hspared⟩ hok hst
      exact ⟨hsound.next typeOf name hst, hkept.next typeOf name hsound hst,
        hspared.next typeOf name hsound hkept hst hok⟩
  obtain ⟨hsound, hkept, hspared⟩ := hinv
  have hexact : s.Exact := (exact_iff hsound hkept).mpr hspared
  refine ⟨?_, hexact.nonempty, hexact, ?_⟩
  · intro hidle n a
    rw [hexact.registered, hidle]
    simp
  · intro e s' hst
    rw [exact_iff (hsound.next typeOf name hst) (hkept.next typeOf name hsound hst)]
    exact ⟨careful_of_spared typeOf name hkept hst,
      hspared.next typeOf name hsound hkept hst⟩

end Registrations

instance (e : GateEvent τ α ρ) (s : Gates τ α ρ) : Decidable (s.Careful e) :=
  match e with
  | .answer .raises => inferInstanceAs (Decidable (∀ n ∈ s.stack.head?, s.Clear n))
  | .answer .holds => inferInstanceAs (Decidable True)
  | .answer .fails => inferInstanceAs (Decidable True)
  | .cancel t =>
      inferInstanceAs (Decidable (∀ task ∈ s.tasks[t]?, task.stage = .created → s.Clear task.gate))
  | .compose _ => inferInstanceAs (Decidable True)
  | .dispatch _ => inferInstanceAs (Decidable True)
  | .gate _ => inferInstanceAs (Decidable True)
  | .await _ => inferInstanceAs (Decidable True)
  | .start _ => inferInstanceAs (Decidable True)
  | .resume _ => inferInstanceAs (Decidable True)

/-- Two waiters left behind: one whose probe raised, so no gate was returned; one
whose only task was cancelled before its first step. -/
theorem waiter_left_behind :
    (∃ s : Gates Unit Unit ℕ,
      (machine id (fun _ => "Stored") 0 : Machine (Gates Unit Unit ℕ) _).Reachable s ∧
      s.stack = [] ∧ 0 ∈ s.dispatcher.waiting.getD () [] ∧
      s.gates[0]?.map Gate.fate = some .raised) ∧
    ∃ s : Gates Unit Unit ℕ,
      (machine id (fun _ => "Stored") 0 : Machine (Gates Unit Unit ℕ) _).Reachable s ∧
      s.stack = [] ∧ 0 ∈ s.dispatcher.waiting.getD () [] ∧
      s.tasks = [⟨0, .dropped⟩] := by
  have hraised : (counted [.compose [((), fun _ n => n + 1)], .gate [()],
      .answer .raises]).any (fun s => decide (s.stack = [] ∧
        0 ∈ s.dispatcher.waiting.getD () [] ∧
        s.gates[0]?.map Gate.fate = some .raised)) = true := by decide +kernel
  have hdropped : (counted (returned ++ [.await 0, .cancel 0])).any
      (fun s => decide (s.stack = [] ∧ 0 ∈ s.dispatcher.waiting.getD () [] ∧
        s.tasks = [⟨0, .dropped⟩])) = true := by decide +kernel
  obtain ⟨s, hs, hends⟩ := (Option.any_eq_true _ _).mp hraised
  obtain ⟨r, hr, hrends⟩ := (Option.any_eq_true _ _).mp hdropped
  exact ⟨⟨s, reachable_of_counted hs, of_decide_eq_true hends⟩,
    ⟨r, reachable_of_counted hr, of_decide_eq_true hrends⟩⟩

/-- A careful run: one gate parked, a second one released, a third one cancelled. -/
theorem parked_exactly_one :
    ∃ s : Gates Unit ℕ ℕ, s.stack = [] ∧ s.dispatcher.waiting.getD 0 [] = [0] ∧
      s.tasks.map Task.stage = [.parked, .resumed, .cancelled] ∧
      (∀ n a, n ∈ s.dispatcher.waiting.getD a [] ↔
        a ∈ s.dispatcher.missing n ∧ s.Parked n) ∧
      ∀ a, s.dispatcher.waiting.get? a ≠ some [] := by
  have key : (Machine.replay (Machine.guardedNext Careful (next (fun _ => ()) fun _ => "Stored"))
      (new 0 : Gates Unit ℕ ℕ)
      [.compose [((), fun _ n => n + 1)], .gate [0], .answer .fails, .gate [1], .answer .fails,
        .gate [2], .answer .fails, .await 0, .await 1, .await 2, .start 0, .start 1, .start 2,
        .dispatch 1, .resume 1, .cancel 2]).any
      (fun s => decide (s.stack = [] ∧ s.dispatcher.waiting.getD 0 [] = [0] ∧
        s.tasks.map Task.stage = [.parked, .resumed, .cancelled])) = true := by
    decide +kernel
  obtain ⟨s, hrun, hs⟩ := (Option.any_eq_true _ _).mp key
  obtain ⟨hidle, hparked, htasks⟩ := of_decide_eq_true hs
  have hreach := Machine.Reachable.of_guarded_replay
    (M := machine (fun _ => ()) (fun _ => "Stored") 0) (fun _ _ _ h => h) _ (.init rfl) hrun
  obtain ⟨hexact, hnonempty, _⟩ := parked_exactly (fun _ => ()) (fun _ => "Stored") hreach
  exact ⟨s, hidle, hparked, htasks, hexact hidle, hnonempty⟩


end Gates

end Toso.Proposed
