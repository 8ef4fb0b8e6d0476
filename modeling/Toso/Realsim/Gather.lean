/-
  Toso.Realsim.Gather — what the gather over the tasks is told, and what it gives.

  A task that is done tells the gather.  The gather is done at the first exception it
  is told of, or when it was told of all tasks; then the caller of `run` goes on, and
  returns.

  Main results:
    * `Heard` — what is kept of the executions that ended, of what the gather counted
      and of its future.
    * `Ended` — what is kept of the return of `run`, and of the wallclock.
-/
import Toso.Realsim.Releases
import Mathlib.Data.Fintype.Card

namespace Toso.Realsim

open Lib SimCommon SimCommon.Report

variable {m : ℕ} {κ ε ρ : Type*}

/-! ## §1. Answers. -/

/-- All executions returned, with these values in order. -/
def Returned (answers : List (Fin m × Except ε ρ × ℚ)) (values : List ρ) : Prop :=
  ∃ f : Fin m → ρ, values = (List.finRange m).map f ∧ ∀ k, ∃ t, (k, .ok (f k), t) ∈ answers

/-- The last of the executions ended at `w`; with nothing to execute, `run` began then. -/
def Closes (began : Option ℚ) (answers : List (Fin m × Except ε ρ × ℚ)) (w : ℚ) : Prop :=
  (∀ a ∈ answers, a.2.2 ≤ w) ∧ ((∃ a ∈ answers, a.2.2 = w) ∨ m = 0 ∧ began = some w)

/-- The answer of a task, of which there is one. -/
theorem find_answer {answers : List (Fin m × Except ε ρ × ℚ)}
    (hapart : (answers.map Prod.fst).Nodup) {a : Fin m × Except ε ρ × ℚ} (ha : a ∈ answers) :
    answers.find? (fun b => b.1 = a.1) = some a := by
  induction answers with
  | nil => cases ha
  | cons b answers ih =>
      rw [List.map_cons, List.nodup_cons] at hapart
      rcases List.mem_cons.mp ha with rfl | ha
      · exact List.find?_cons_of_pos (by simp)
      · have hne : b.1 ≠ a.1 := fun h => hapart.1 (h ▸ List.mem_map_of_mem ha)
        rw [List.find?_cons_of_neg (by simpa using hne), ih hapart.2 ha]

/-- So many different tasks are all of them. -/
theorem mem_of_length {l : List (Fin m)} (hl : l.Nodup) (hlen : l.length = m) (k : Fin m) :
    k ∈ l := by
  have huniv : l.toFinset = Finset.univ := by
    apply Finset.eq_univ_of_card
    rw [List.toFinset_card_of_nodup hl, hlen, Fintype.card_fin]
  rw [← List.mem_toFinset, huniv]
  exact Finset.mem_univ k

/-! ## §2. What the gather is told. -/

/-- The executions that ended by `now`, the tasks the gather counted and its future. -/
structure Heard (began : Option ℚ) (started : List (Fin m × ℚ))
    (answers : List (Fin m × Except ε ρ × ℚ)) (finished : List (Fin m))
    (outer : Option (Except ε (List ρ))) (now : ℚ) (queue : List (Callback m κ)) : Prop where
  before : began = none → answers = [] ∧ outer = none
  started_le : ∀ x ∈ started, x.2 ≤ now
  known : ∀ a ∈ answers, ∃ x ∈ started, x.1 = a.1 ∧ x.2 ≤ a.2.2
  past : ∀ a ∈ answers, a.2.2 ≤ now
  apart : (answers.map Prod.fst).Nodup
  counted : (finished ++ tasks .gathered queue).Perm (answers.map Prod.fst)
  told : ∀ k, .gathered k ∈ queue → ∃ a ∈ answers, a.1 = k ∧ a.2.2 = now
  waiting : began ≠ none → outer = none →
    finished.length < m ∧ ∀ k ∈ finished, ∃ v t, (k, .ok v, t) ∈ answers
  failed : ∀ e, outer = some (.error e) → ∃ k t, (k, .error e, t) ∈ answers
  gave : ∀ values, outer = some (.ok values) → Returned answers values

namespace Heard

variable {began : Option ℚ} {started : List (Fin m × ℚ)}
  {answers : List (Fin m × Except ε ρ × ℚ)} {finished : List (Fin m)}
  {outer : Option (Except ε (List ρ))} {now : ℚ} {queue : List (Callback m κ)} {c : Callback m κ}
  {k : Fin m}

/-- The gather is told nothing by another callback. -/
theorem pop (H : Heard began started answers finished outer now (c :: queue))
    (hc : c.task .gathered = none) : Heard began started answers finished outer now queue where
  before := H.before
  started_le := H.started_le
  known := H.known
  past := H.past
  apart := H.apart
  counted := by
    have := H.counted
    rwa [tasks_cons, hc, Option.toList_none, List.nil_append] at this
  told j hj := H.told j (List.mem_cons_of_mem _ hj)
  waiting := H.waiting
  failed := H.failed
  gave := H.gave

theorem push (H : Heard began started answers finished outer now queue)
    {cs : List (Callback m κ)} (hcs : ∀ c ∈ cs, c.task .gathered = none) :
    Heard began started answers finished outer now (queue ++ cs) where
  before := H.before
  started_le := H.started_le
  known := H.known
  past := H.past
  apart := H.apart
  counted := by
    rw [tasks_append, show tasks .gathered cs = [] from List.filterMap_eq_nil_iff.mpr hcs,
      List.append_nil]
    exact H.counted
  told j hj := by
    refine H.told j ((List.mem_append.mp hj).resolve_right fun hin => ?_)
    cases hcs _ hin
  waiting := H.waiting
  failed := H.failed
  gave := H.gave

/-- An execution starts. -/
theorem start (H : Heard began started answers finished outer now queue) (j : Fin m) :
    Heard began (started ++ [(j, now)]) answers finished outer now queue where
  before := H.before
  started_le x hx := by
    rcases List.mem_append.mp hx with hx | hx
    · exact H.started_le x hx
    · obtain rfl := List.mem_singleton.mp hx
      exact le_refl _
  known a ha := by
    obtain ⟨x, hx, h⟩ := H.known a ha
    exact ⟨x, List.mem_append_left _ hx, h⟩
  past := H.past
  apart := H.apart
  counted := H.counted
  told := H.told
  waiting := H.waiting
  failed := H.failed
  gave := H.gave

/-- Nothing was counted before `run` was called. -/
theorem finished_nil (H : Heard none started answers finished outer now queue) :
    finished = [] := by
  have hperm := H.counted
  rw [(H.before rfl).1] at hperm
  exact (List.append_eq_nil_iff.mp hperm.eq_nil).1

/-- `run` is called. -/
theorem call (H : Heard none started answers finished outer now queue) (hm : m ≠ 0) :
    Heard (some now) started answers finished outer now queue where
  before h := by cases h
  started_le := H.started_le
  known := H.known
  past := H.past
  apart := H.apart
  counted := H.counted
  told := H.told
  waiting _ _ := by
    rw [H.finished_nil]
    exact ⟨Nat.pos_of_ne_zero hm, fun k hk => by cases hk⟩
  failed := H.failed
  gave := H.gave

/-- `run` is called with nothing to execute. -/
theorem call_nil (H : Heard none started answers finished outer now queue) (hm : m = 0) :
    Heard (some now) started answers finished (some (.ok [])) now queue where
  before h := by cases h
  started_le := H.started_le
  known := H.known
  past := H.past
  apart := H.apart
  counted := H.counted
  told := H.told
  waiting _ h := by cases h
  failed e h := by
    injection h with h
    cases h
  gave values h := by
    injection h with h
    injection h with h
    subst hm h
    exact ⟨fun k => k.elim0, by simp, fun k => k.elim0⟩

/-- An execution ends. -/
theorem answer (H : Heard began started answers finished outer now queue) (hbegan : began ≠ none)
    (hstarted : k ∈ started.map Prod.fst) (hnew : k ∉ answers.map Prod.fst) (v : Except ε ρ) :
    Heard began started (answers ++ [(k, v, now)]) finished outer now
      (queue ++ [.gathered k]) where
  before h := absurd h hbegan
  started_le := H.started_le
  known a ha := by
    rcases List.mem_append.mp ha with ha | ha
    · exact H.known a ha
    · obtain rfl := List.mem_singleton.mp ha
      obtain ⟨x, hx, hk⟩ := List.mem_map.mp hstarted
      exact ⟨x, hx, hk, H.started_le x hx⟩
  past a ha := by
    rcases List.mem_append.mp ha with ha | ha
    · exact H.past a ha
    · obtain rfl := List.mem_singleton.mp ha
      exact le_refl _
  apart := by
    rw [List.map_append, List.nodup_append]
    refine ⟨H.apart, List.nodup_singleton _, fun i hi j hj => ?_⟩
    obtain rfl := List.mem_singleton.mp hj
    exact fun h => hnew (h ▸ hi)
  counted := by
    rw [tasks_append, ← List.append_assoc, List.map_append]
    exact H.counted.append_right _
  told j hj := by
    rcases List.mem_append.mp hj with hj | hj
    · obtain ⟨a, ha, h⟩ := H.told j hj
      exact ⟨a, List.mem_append_left _ ha, h⟩
    · injection List.mem_singleton.mp hj with hj
      exact ⟨(k, v, now), List.mem_append_right _ List.mem_cons_self, hj.symm, rfl⟩
  waiting hb ho := by
    obtain ⟨hlen, hall⟩ := H.waiting hb ho
    refine ⟨hlen, fun j hj => ?_⟩
    obtain ⟨w, t, h⟩ := hall j hj
    exact ⟨w, t, List.mem_append_left _ h⟩
  failed e h := by
    obtain ⟨j, t, hin⟩ := H.failed e h
    exact ⟨j, t, List.mem_append_left _ hin⟩
  gave values h := by
    obtain ⟨f, hf, hall⟩ := H.gave values h
    refine ⟨f, hf, fun j => ?_⟩
    obtain ⟨t, hin⟩ := hall j
    exact ⟨t, List.mem_append_left _ hin⟩

/-- What the gather is told of: it keeps all but its future. -/
theorem tell (H : Heard began started answers finished outer now (.gathered k :: queue))
    {outer' : Option (Except ε (List ρ))} (hbefore : began = none → outer' = none)
    (hwaiting : began ≠ none → outer' = none → (finished ++ [k]).length < m ∧
      ∀ j ∈ finished ++ [k], ∃ v t, (j, .ok v, t) ∈ answers)
    (hfailed : ∀ e, outer' = some (.error e) → ∃ j t, (j, .error e, t) ∈ answers)
    (hgave : ∀ values, outer' = some (.ok values) → Returned answers values) :
    Heard began started answers (finished ++ [k]) outer' now queue where
  before h := ⟨(H.before h).1, hbefore h⟩
  started_le := H.started_le
  known := H.known
  past := H.past
  apart := H.apart
  counted := by
    have := H.counted
    rwa [tasks_cons, ← List.append_assoc] at this
  told j hj := H.told j (List.mem_cons_of_mem _ hj)
  waiting := hwaiting
  failed := hfailed
  gave := hgave

/-- Tasks are told of once. -/
theorem told_once (H : Heard began started answers finished outer now (.gathered k :: queue)) :
    (finished ++ [k]).Nodup := by
  have hperm := H.counted
  rw [tasks_cons, ← List.append_assoc] at hperm
  exact (hperm.nodup_iff.mpr H.apart).sublist (List.sublist_append_left _ _)

/-- With nothing ready, the clock moves on. -/
theorem jump (H : Heard (κ := κ) began started answers finished outer now []) {later : ℚ}
    (hlater : now ≤ later) : Heard (κ := κ) began started answers finished outer later [] where
  before := H.before
  started_le x hx := (H.started_le x hx).trans hlater
  known := H.known
  past a ha := (H.past a ha).trans hlater
  apart := H.apart
  counted := H.counted
  told j hj := by cases hj
  waiting := H.waiting
  failed := H.failed
  gave := H.gave

theorem perm (H : Heard began started answers finished outer now queue)
    {queue' : List (Callback m κ)} (hq : queue.Perm queue') :
    Heard began started answers finished outer now queue' where
  before := H.before
  started_le := H.started_le
  known := H.known
  past := H.past
  apart := H.apart
  counted := ((hq.filterMap _).symm.append_left _).trans H.counted
  told j hj := H.told j (hq.mem_iff.mpr hj)
  waiting := H.waiting
  failed := H.failed
  gave := H.gave

/-- Once the gather gave its results, no execution is left to end. -/
theorem all_answered (H : Heard began started answers finished outer now queue) {values : List ρ}
    (hgave : outer = some (.ok values)) (j : Fin m) : j ∈ answers.map Prod.fst := by
  obtain ⟨f, _, hall⟩ := H.gave values hgave
  obtain ⟨t, hin⟩ := hall j
  exact List.mem_map_of_mem hin

end Heard

/-! ## §3. How `run` ends. -/

/-- The caller of `run` on its way from the gather to the return; `stamp` is the
wallclock, where there is a ledger, and `done` whether the loop's future is. -/
structure Ended (ids : List String) (began : Option ℚ) (answers : List (Fin m × Except ε ρ × ℚ))
    (outer : Option (Except ε (List ρ))) (returned : Option (Except ε (Dict String ρ)))
    (stamp : Option ℚ) (done : Bool) (now : ℚ) (queue : List (Callback m κ)) : Prop where
  resumes : outer ≠ none → returned ≠ none ∨ .resume ∈ queue
  closing : .resume ∈ queue →
    outer ≠ none ∧ ∀ values, outer = some (.ok values) → ∃ a ∈ answers, a.2.2 = now
  ends : done = true ↔ returned ≠ none
  failed : ∀ e, returned = some (.error e) → ∃ k t, (k, .error e, t) ∈ answers
  gave : ∀ d, returned = some (.ok d) → ∃ values, outer = some (.ok values) ∧
    d = dictOf (ids.zip values) ∧ ∀ w, stamp = some w → Closes began answers w

namespace Ended

variable {ids : List String} {began : Option ℚ} {answers : List (Fin m × Except ε ρ × ℚ)}
  {outer : Option (Except ε (List ρ))} {returned : Option (Except ε (Dict String ρ))}
  {stamp : Option ℚ} {done : Bool} {now : ℚ} {queue : List (Callback m κ)}

/-- Of the queue only `resume` matters. -/
theorem queue_of (N : Ended ids began answers outer returned stamp done now queue)
    {queue' : List (Callback m κ)} (hq : .resume ∈ queue' ↔ .resume ∈ queue) :
    Ended ids began answers outer returned stamp done now queue' where
  resumes h := (N.resumes h).imp_right hq.mpr
  closing h := N.closing (hq.mp h)
  ends := N.ends
  failed := N.failed
  gave := N.gave

theorem pop {c : Callback m κ}
    (N : Ended ids began answers outer returned stamp done now (c :: queue)) (hc : c ≠ .resume) :
    Ended ids began answers outer returned stamp done now queue :=
  N.queue_of (by simp [Ne.symm hc])

theorem push (N : Ended ids began answers outer returned stamp done now queue)
    {cs : List (Callback m κ)} (hcs : .resume ∉ cs) :
    Ended ids began answers outer returned stamp done now (queue ++ cs) :=
  N.queue_of (by simp [hcs])

/-- `run` is called. -/
theorem call (N : Ended ids began answers outer returned stamp done now queue)
    (houter : outer = none) (began' : Option ℚ) (stamp' : Option ℚ) :
    Ended ids began' answers outer returned stamp' done now queue where
  resumes := N.resumes
  closing := N.closing
  ends := N.ends
  failed := N.failed
  gave d h := by
    obtain ⟨_, hv, _⟩ := N.gave d h
    rw [houter] at hv
    cases hv

/-- An execution ends, which is not after the gather gave its results. -/
theorem answer (N : Ended ids began answers outer returned stamp done now queue)
    (hopen : ∀ values, outer ≠ some (.ok values)) (a : Fin m × Except ε ρ × ℚ) :
    Ended ids began (answers ++ [a]) outer returned stamp done now queue where
  resumes := N.resumes
  closing h := ⟨(N.closing h).1, fun values hv => absurd hv (hopen values)⟩
  ends := N.ends
  failed e h := by
    obtain ⟨k, t, hin⟩ := N.failed e h
    exact ⟨k, t, List.mem_append_left _ hin⟩
  gave d h := by
    obtain ⟨values, hv, _⟩ := N.gave d h
    exact absurd hv (hopen values)

/-- The gather is done now. -/
theorem gather (N : Ended ids began answers outer returned stamp done now queue)
    (houter : outer = none) (outer' : Except ε (List ρ)) (hlast : ∃ a ∈ answers, a.2.2 = now) :
    Ended ids began answers (some outer') returned stamp done now (queue ++ [.resume]) where
  resumes _ := .inr (List.mem_append_right _ List.mem_cons_self)
  closing _ := ⟨by simp, fun _ _ => hlast⟩
  ends := N.ends
  failed := N.failed
  gave d h := by
    obtain ⟨_, hv, _⟩ := N.gave d h
    rw [houter] at hv
    cases hv

/-- `run` raises what the gather did. -/
theorem raise {e : ε} (N : Ended ids began answers (some (.error e)) returned stamp done now
      (.resume :: queue)) (he : ∃ k t, (k, .error e, t) ∈ answers) :
    Ended ids began answers (some (.error e)) (some (.error e)) stamp true now queue where
  resumes _ := .inl (by simp)
  closing h := ⟨by simp, (N.closing (List.mem_cons_of_mem _ h)).2⟩
  ends := by simp
  failed e' h := by
    injection h with h
    injection h with h
    exact h ▸ he
  gave d h := by
    injection h with h
    cases h

/-- `run` returns what the gather gave. -/
theorem give {values : List ρ} {now' : ℚ} {stamp' : Option ℚ} (queue : List (Callback m κ))
    (houter : outer = some (.ok values)) (hstamp : ∀ w, stamp' = some w → Closes began answers w)
    (hlast : .resume ∈ queue → ∃ a ∈ answers, a.2.2 = now') :
    Ended ids began answers outer (some (.ok (dictOf (ids.zip values)))) stamp' true now' queue where
  resumes _ := .inl (by simp)
  closing h := ⟨by simp [houter], fun _ _ => hlast h⟩
  ends := by simp
  failed e h := by
    injection h with h
    cases h
  gave d h := by
    injection h with h
    injection h with h
    exact ⟨values, houter, h.symm, hstamp⟩

/-- With nothing ready, the clock moves on. -/
theorem jump (N : Ended (κ := κ) ids began answers outer returned stamp done now []) (later : ℚ) :
    Ended (κ := κ) ids began answers outer returned stamp done later [] where
  resumes := N.resumes
  closing h := by cases h
  ends := N.ends
  failed := N.failed
  gave := N.gave

end Ended

end Toso.Realsim
