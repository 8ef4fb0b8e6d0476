/-
  Toso.Lib.Machine — labelled transition systems and their invariants.

  A `Machine σ ε` is a predicate on initial states and a labelled step
  relation.  The induction over runs is packaged once: a property that holds
  initially and that every step preserves holds in every reachable state.
  `guarded` restricts a machine to the steps that meet a condition on the
  state before the step and its label, so "in every run whose steps all meet
  the condition" is reachability in the guarded machine.

  Main results:
    * `Reachable.invariant` — the induction over runs.
    * `Steps.invariant`, `Trace.invariant` — what follows a state keeps what every
      step keeps.
    * `Reachable.simulated` — what one machine does, seen in another.
    * `Reachable.of_guarded` — guarding only removes behaviour.
    * `Reachable.of_replay`, `Reachable.of_guarded_replay` — the end of a concrete
      run is reachable.
-/
import Mathlib.Logic.Relation

namespace Lib

/-- Initial states and a labelled step relation. -/
structure Machine (σ ε : Type*) where
  init : σ → Prop
  step : σ → ε → σ → Prop

namespace Machine

variable {σ ε : Type*}

/-- The machine of a partial step function: a step is a defined one. -/
def ofPartial (init : σ → Prop) (next : σ → ε → Option σ) : Machine σ ε :=
  ⟨init, fun s e t => next s e = some t⟩

variable (M : Machine σ ε)

/-- The states some run ends in. -/
inductive Reachable : σ → Prop
  | init {s : σ} : M.init s → Reachable s
  | step {s t : σ} {e : ε} : Reachable s → M.step s e t → Reachable t

/-- The machine whose steps are those of `M` that meet `ok`. -/
def guarded (ok : σ → ε → Prop) : Machine σ ε :=
  ⟨M.init, fun s e t => ok s e ∧ M.step s e t⟩

variable {M}

/-- **The induction over runs.** -/
theorem Reachable.invariant {P : σ → Prop} (hinit : ∀ s, M.init s → P s)
    (hstep : ∀ s e t, P s → M.step s e t → P t) {s : σ} (h : M.Reachable s) : P s := by
  induction h with
  | init h0 => exact hinit _ h0
  | step _ hst ih => exact hstep _ _ _ ih hst

/-- The induction over guarded runs: each step may use its condition. -/
theorem Reachable.guarded_invariant {ok : σ → ε → Prop} {P : σ → Prop}
    (hinit : ∀ s, M.init s → P s)
    (hstep : ∀ s e t, P s → ok s e → M.step s e t → P t)
    {s : σ} (h : (M.guarded ok).Reachable s) : P s := by
  induction h with
  | init h0 => exact hinit _ h0
  | step _ hst ih => exact hstep _ _ _ ih hst.1 hst.2

/-- What one machine does, seen in another: where every step is one there, under
another label maybe. -/
theorem Reachable.simulated {ε' : Type*} {M' : Machine σ ε'} (hinit : ∀ s, M.init s → M'.init s)
    (hstep : ∀ s e t, M.step s e t → ∃ e', M'.step s e' t) {s : σ} (h : M.Reachable s) :
    M'.Reachable s := by
  induction h with
  | init h0 => exact .init (hinit _ h0)
  | step _ hst ih =>
      obtain ⟨e', hst'⟩ := hstep _ _ _ hst
      exact .step ih hst'

/-- Guarding only removes behaviour. -/
theorem Reachable.of_guarded {ok : σ → ε → Prop} {s : σ}
    (h : (M.guarded ok).Reachable s) : M.Reachable s := by
  induction h with
  | init h0 => exact .init h0
  | step _ hst ih => exact .step ih hst.2

/-- `t` can follow `s`. -/
def Steps (M : Machine σ ε) : σ → σ → Prop := Relation.ReflTransGen fun s t => ∃ e, M.step s e t

theorem Steps.trans {s t u : σ} (h : M.Steps s t) (h' : M.Steps t u) : M.Steps s u :=
  Relation.ReflTransGen.trans h h'

theorem Steps.single {s t : σ} {e : ε} (h : M.step s e t) : M.Steps s t :=
  Relation.ReflTransGen.single ⟨e, h⟩

/-- What follows a state keeps what every step keeps. -/
theorem Steps.invariant {P : σ → Prop} (hstep : ∀ s e t, P s → M.step s e t → P t) {s t : σ}
    (h : M.Steps s t) (hs : P s) : P t := by
  induction h with
  | refl => exact hs
  | tail _ hst ih =>
      obtain ⟨e, he⟩ := hst
      exact hstep _ e _ ih he

theorem Reachable.of_steps {s t : σ} (hs : M.Reachable s) (h : M.Steps s t) : M.Reachable t :=
  Steps.invariant (fun _ _ _ hs hst => .step hs hst) h hs

/-- The labels of the steps from one state to another. -/
inductive Trace (M : Machine σ ε) (s : σ) : List ε → σ → Prop
  | nil : Trace M s [] s
  | snoc {es : List ε} {t u : σ} {e : ε} :
      Trace M s es t → M.step t e u → Trace M s (es ++ [e]) u

/-- The induction over a trace. -/
theorem Trace.invariant {P : List ε → σ → Prop} {s : σ} (hnil : P [] s)
    (hstep : ∀ es t e u, P es t → M.step t e u → P (es ++ [e]) u) {es : List ε} {t : σ}
    (h : M.Trace s es t) : P es t := by
  induction h with
  | nil => exact hnil
  | snoc _ hst ih => exact hstep _ _ _ _ ih hst

/-- Replay a list of labels through a partial step function. -/
def replay (next : σ → ε → Option σ) : σ → List ε → Option σ
  | s, [] => some s
  | s, e :: es => (next s e).bind fun t => replay next t es

/-- A successful replay is a trace. -/
theorem Trace.of_replay {next : σ → ε → Option σ}
    (hnext : ∀ s e t, next s e = some t → M.step s e t) {s : σ} (es : List ε) :
    ∀ {done : List ε} {t u : σ}, M.Trace s done t → replay next t es = some u →
      M.Trace s (done ++ es) u := by
  induction es with
  | nil =>
      intro done t u hdone h
      cases h
      rwa [List.append_nil]
  | cons e es ih =>
      intro done t u hdone h
      simp only [replay, Option.bind_eq_some_iff] at h
      obtain ⟨v, hv, hu⟩ := h
      have htrace := ih (.snoc hdone (hnext _ _ _ hv)) hu
      rwa [List.append_assoc] at htrace

/-- The end of a successful replay from a reachable state is reachable. -/
theorem Reachable.of_replay {next : σ → ε → Option σ}
    (hnext : ∀ s e t, next s e = some t → M.step s e t) :
    ∀ (es : List ε) {s t : σ}, M.Reachable s → replay next s es = some t → M.Reachable t
  | [], s, t, hs, h => by
      cases h
      exact hs
  | e :: es, s, t, hs, h => by
      simp only [replay, Option.bind_eq_some_iff] at h
      obtain ⟨u, hu, ht⟩ := h
      exact Reachable.of_replay hnext es (.step hs (hnext _ _ _ hu)) ht

/-- The end of a replay of labels that meet the condition in every state is reachable
in the guarded machine. -/
theorem Reachable.of_replay_guarded {next : σ → ε → Option σ}
    (hnext : ∀ s e t, next s e = some t → M.step s e t) {ok : σ → ε → Prop} :
    ∀ (es : List ε) {s t : σ}, (∀ e ∈ es, ∀ s, ok s e) → (M.guarded ok).Reachable s →
      replay next s es = some t → (M.guarded ok).Reachable t
  | [], s, t, _, hs, h => by
      cases h
      exact hs
  | e :: es, s, t, hok, hs, h => by
      simp only [replay, Option.bind_eq_some_iff] at h
      obtain ⟨u, hu, ht⟩ := h
      have hstep : (M.guarded ok).step s e u := ⟨hok e List.mem_cons_self s, hnext _ _ _ hu⟩
      exact Reachable.of_replay_guarded hnext es (fun x hx => hok x (List.mem_cons_of_mem _ hx))
        (.step hs hstep) ht

/-- A partial step, defined where the condition is met only. -/
def guardedNext (ok : σ → ε → Prop) [∀ s e, Decidable (ok s e)] (next : σ → ε → Option σ)
    (s : σ) (e : ε) : Option σ :=
  if ok s e then next s e else none

/-- A step of the guarded partial step is one of the guarded machine. -/
theorem guardedNext_step {next : σ → ε → Option σ}
    (hnext : ∀ s e t, next s e = some t → M.step s e t)
    {ok : σ → ε → Prop} [∀ s e, Decidable (ok s e)] (s : σ) (e : ε) (t : σ)
    (hst : guardedNext ok next s e = some t) : (M.guarded ok).step s e t := by
  unfold guardedNext at hst
  by_cases hok : ok s e
  · rw [if_pos hok] at hst
    exact ⟨hok, hnext s e t hst⟩
  · rw [if_neg hok] at hst
    cases hst

/-- The end of a successful guarded replay is reachable in the guarded machine. -/
theorem Reachable.of_guarded_replay {next : σ → ε → Option σ}
    (hnext : ∀ s e t, next s e = some t → M.step s e t)
    {ok : σ → ε → Prop} [∀ s e, Decidable (ok s e)] (es : List ε) {s t : σ}
    (hs : (M.guarded ok).Reachable s) (h : replay (guardedNext ok next) s es = some t) :
    (M.guarded ok).Reachable t :=
  Reachable.of_replay (guardedNext_step hnext) es hs h

end Machine

end Lib
