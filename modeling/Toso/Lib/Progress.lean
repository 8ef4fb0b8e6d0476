/-
  Toso.Lib.Progress — infinite runs, weak fairness, and the ranking rule.

  A `Run` of a machine is a state for every instant and, between two instants, an
  event of the machine or a pause, so a run that stops is one that pauses from
  some instant on.  A class of events is treated fairly when it is not put off
  forever while some event of it can happen.

  Main results:
    * `Run.reachable` — every state of a run is reachable.
    * `Run.eventually_of_rank` — what holds only as long as a rank has room to fall
      ends, when the events that lower it are treated fairly.
    * `Run.ofReplay_fair` — a replayed run that stops where nothing of a class can
      happen treats that class fairly.
-/
import Toso.Lib.Machine
import Mathlib.Order.Basic
import Mathlib.Data.Nat.Init
import Mathlib.Data.List.Induction
import Mathlib.Algebra.Order.Group.Nat

namespace Lib

namespace Machine

variable {σ ε κ : Type*}

/-- An infinite run, with pauses. -/
structure Run (M : Machine σ ε) where
  state : ℕ → σ
  event : ℕ → Option ε
  start : M.init (state 0)
  step : ∀ n e, event n = some e → M.step (state n) e (state (n + 1))
  pause : ∀ n, event n = none → state (n + 1) = state n

variable {M : Machine σ ε}

/-- Some event of the class can happen. -/
def Enabled (M : Machine σ ε) (A : ε → Prop) (s : σ) : Prop := ∃ e t, A e ∧ M.step s e t

namespace Run

/-- **Weak fairness**: a class enabled from some instant on happens after it. -/
def Fair (R : Run M) (A : ε → Prop) : Prop :=
  ∀ n, (∀ m, n ≤ m → M.Enabled A (R.state m)) → ∃ m, n ≤ m ∧ ∃ e, R.event m = some e ∧ A e

theorem reachable (R : Run M) (n : ℕ) : M.Reachable (R.state n) := by
  induction n with
  | zero => exact .init R.start
  | succ n ih =>
      cases he : R.event n with
      | none =>
          rw [R.pause n he]
          exact ih
      | some e => exact .step ih (R.step n e he)

/-- What every event keeps, a run keeps from then on. -/
theorem stays (R : Run M) {P : σ → Prop}
    (hstep : ∀ n e, R.event n = some e → P (R.state n) → P (R.state (n + 1))) {n : ℕ}
    (h : P (R.state n)) {m : ℕ} (hm : n ≤ m) : P (R.state m) := by
  induction m, hm using Nat.le_induction with
  | base => exact h
  | succ m _ ih =>
      cases he : R.event m with
      | none =>
          rw [R.pause m he]
          exact ih
      | some e => exact hstep m e he ih

/-- **The ranking rule.**  While `W` holds some class of events is there to help; each
event ends `W`, lowers the rank, or leaves rank and helpers as they are, and then it is
not one of the helpers.  If the helpers are treated fairly, `W` ends. -/
theorem eventually_of_rank (R : Run M) {W : σ → Prop} (rank : σ → ℕ) (help : σ → κ)
    {A : κ → ε → Prop} (hfair : ∀ k, R.Fair (A k)) (n : ℕ)
    (henabled : ∀ m, n ≤ m → W (R.state m) →
      M.Enabled (A (help (R.state m))) (R.state m))
    (hstep : ∀ m e, n ≤ m → R.event m = some e → W (R.state m) → W (R.state (m + 1)) →
      rank (R.state (m + 1)) < rank (R.state m) ∨
        (rank (R.state (m + 1)) = rank (R.state m) ∧
          help (R.state (m + 1)) = help (R.state m) ∧ ¬ A (help (R.state m)) e)) :
    ∃ m, n ≤ m ∧ ¬ W (R.state m) := by
  by_contra hnever
  have hW : ∀ m, n ≤ m → W (R.state m) := by
    intro m hm
    by_contra hnot
    exact hnever ⟨m, hm, hnot⟩
  -- from any later instant the rank falls once more, which it cannot do forever
  have hfalls : ∀ m, n ≤ m → ∃ m', m ≤ m' ∧ rank (R.state m') < rank (R.state m) := by
    intro m hm
    by_contra hstuck
    have hsame : ∀ m', m ≤ m' →
        rank (R.state m') = rank (R.state m) ∧ help (R.state m') = help (R.state m) := by
      intro m' hm'
      induction m', hm' using Nat.le_induction with
      | base => exact ⟨rfl, rfl⟩
      | succ m' hm' ih =>
          cases he : R.event m' with
          | none =>
              rw [R.pause m' he]
              exact ih
          | some e =>
              have hn := hm.trans hm'
              rcases hstep m' e hn he (hW m' hn) (hW _ (by omega)) with hlt | hkeep
              · exact absurd ⟨m' + 1, by omega, ih.1 ▸ hlt⟩ hstuck
              · exact ⟨hkeep.1.trans ih.1, hkeep.2.1.trans ih.2⟩
    have hready : ∀ m', m ≤ m' → M.Enabled (A (help (R.state m))) (R.state m') := by
      intro m' hm'
      rw [← (hsame m' hm').2]
      exact henabled m' (hm.trans hm') (hW m' (hm.trans hm'))
    obtain ⟨m', hm', e, he, hA⟩ := hfair _ m hready
    have hn := hm.trans hm'
    rcases hstep m' e hn he (hW m' hn) (hW _ (by omega)) with hlt | hkeep
    · exact hstuck ⟨m' + 1, by omega, (hsame m' hm').1 ▸ hlt⟩
    · rw [(hsame m' hm').2] at hkeep
      exact hkeep.2.2 hA
  have hdescent : ∀ r m, n ≤ m → rank (R.state m) = r → False := by
    intro r
    induction r using Nat.strongRec with
    | ind r ih =>
        intro m hm hr
        obtain ⟨m', hm', hlt⟩ := hfalls m hm
        exact ih _ (hr ▸ hlt) m' (hm.trans hm') rfl
  exact hdescent _ n le_rfl rfl

/-- What ends, ends with one event. -/
theorem last_of_eventually (R : Run M) {P : σ → Prop} {n : ℕ} (h : P (R.state n))
    (hend : ∃ m, n ≤ m ∧ ¬ P (R.state m)) :
    ∃ m e, n ≤ m ∧ R.event m = some e ∧ P (R.state m) ∧ ¬ P (R.state (m + 1)) := by
  by_contra hnone
  obtain ⟨m, hm, hnot⟩ := hend
  refine hnot ?_
  clear hnot
  induction m, hm using Nat.le_induction with
  | base => exact h
  | succ m hm ih =>
      cases he : R.event m with
      | none =>
          rw [R.pause m he]
          exact ih
      | some e =>
          by_contra hnext
          exact hnone ⟨m, e, hm, he, ih, hnext⟩

/-! ### Runs that stop -/

theorem replay_concat (next : σ → ε → Option σ) (e : ε) : ∀ (es : List ε) (s : σ),
    replay next s (es ++ [e]) = (replay next s es).bind fun t => next t e := by
  intro es
  induction es with
  | nil =>
      intro s
      show (next s e).bind some = next s e
      exact Option.bind_fun_some _
  | cons d es ih =>
      intro s
      show (next s d).bind (fun t => replay next t (es ++ [e])) = _
      rw [show (replay next s (d :: es)) = (next s d).bind fun t => replay next t es from rfl,
        Option.bind_assoc]
      exact congrArg _ (funext ih)

/-- What replays to its end replays to every earlier point. -/
theorem replay_take {next : σ → ε → Option σ} {s : σ} : ∀ {es : List ε} {t : σ},
    replay next s es = some t → ∀ n, ∃ u, replay next s (es.take n) = some u := by
  intro es
  induction es using List.reverseRecOn with
  | nil =>
      intro t _ n
      rw [List.take_nil]
      exact ⟨s, rfl⟩
  | append_singleton es e ih =>
      intro t h n
      by_cases hn : n ≤ es.length
      · rw [replay_concat, Option.bind_eq_some_iff] at h
        obtain ⟨u, hu, _⟩ := h
        rw [List.take_append_of_le_length hn]
        exact ih hu n
      · rw [List.take_of_length_le (by rw [List.length_append, List.length_singleton]; omega)]
        exact ⟨t, h⟩

/-- Replay a list of events, then pause. -/
def ofReplay {next : σ → ε → Option σ} (hnext : ∀ s e t, next s e = some t → M.step s e t)
    {s t : σ} (hs : M.init s) (es : List ε) (h : replay next s es = some t) : Run M where
  state n := (replay next s (es.take n)).getD s
  event n := es[n]?
  start := hs
  step n e he := by
    obtain ⟨u, hu⟩ := replay_take h (n + 1)
    have hlt := (List.getElem?_eq_some_iff.mp he).1
    have htake : es.take (n + 1) = es.take n ++ [e] := by
      rw [List.take_add_one, he]
      rfl
    rw [htake, replay_concat, Option.bind_eq_some_iff] at hu
    obtain ⟨v, hv, hvu⟩ := hu
    rw [htake, replay_concat, hv]
    show M.step v e ((next v e).getD s)
    rw [hvu]
    exact hnext v e u hvu
  pause n he := by
    have hle := List.getElem?_eq_none_iff.mp he
    rw [List.take_of_length_le hle, List.take_of_length_le (hle.trans (Nat.le_succ n))]

theorem ofReplay_state {next : σ → ε → Option σ}
    (hnext : ∀ s e t, next s e = some t → M.step s e t) {s t : σ} (hs : M.init s) (es : List ε)
    (h : replay next s es = some t) {n : ℕ} (hn : es.length ≤ n) :
    (ofReplay hnext hs es h).state n = t := by
  show (replay next s (es.take n)).getD s = t
  rw [List.take_of_length_le hn, h]
  rfl

/-- Stopping where nothing of a class can happen is fair to it. -/
theorem ofReplay_fair {next : σ → ε → Option σ}
    (hnext : ∀ s e t, next s e = some t → M.step s e t) {s t : σ} (hs : M.init s) (es : List ε)
    (h : replay next s es = some t) {A : ε → Prop} (hA : ¬ M.Enabled A t) :
    (ofReplay hnext hs es h).Fair A := by
  intro n hn
  have hlast := hn (max n es.length) (le_max_left _ _)
  rw [ofReplay_state hnext hs es h (le_max_right _ _)] at hlast
  exact absurd hlast hA

end Run

end Machine

end Lib
