/-
  Toso.Realsim.Releases — when an item is executed.

  A task that has not started its item is in one of four places: before its first
  step, asleep on the schedule, its sleep's timer moved to the ready queue, or woken.
  The tasks pass them in the order of the items, and no task leaves its place late.

  Main results:
    * `Staged` — what is kept of the tasks on their way, and one lemma for each step.
-/
import Toso.Realsim.Runner

namespace Toso.Realsim

open Lib SimCommon SimCommon.Report

/-! ## §1. Where a task is. -/

/-- The callbacks of a task. -/
inductive Stage
  | begin
  | alarm
  | wake
  | gathered
  deriving DecidableEq

variable {m : ℕ} {κ : Type*}

/-- The task a callback belongs to, if it is of that stage. -/
def Callback.task : Stage → Callback m κ → Option (Fin m)
  | .begin, .begin k => some k
  | .alarm, .alarm k => some k
  | .wake, .wake k => some k
  | .gathered, .gathered k => some k
  | _, _ => none

/-- The tasks that have a callback of a stage among some callbacks. -/
def tasks (stage : Stage) (cs : List (Callback m κ)) : List (Fin m) :=
  cs.filterMap (Callback.task stage)

@[simp] theorem tasks_append (stage : Stage) (cs ds : List (Callback m κ)) :
    tasks stage (cs ++ ds) = tasks stage cs ++ tasks stage ds := List.filterMap_append

@[simp] theorem tasks_nil (stage : Stage) : tasks stage ([] : List (Callback m κ)) = [] := rfl

theorem tasks_cons (stage : Stage) (c : Callback m κ) (cs : List (Callback m κ)) :
    tasks stage (c :: cs) = (c.task stage).toList ++ tasks stage cs := by
  unfold tasks
  cases h : c.task stage with
  | none => rw [List.filterMap_cons_none h, Option.toList_none, List.nil_append]
  | some k => rw [List.filterMap_cons_some h, Option.toList_some, List.singleton_append]

/-- What the timers of a schedule run. -/
def timed (timers : List (Timer ℚ (Callback m κ))) : List (Callback m κ) :=
  timers.map fun t => t.handle.callback

/-- A callback that is not of a task on its way to its execution. -/
def Callback.Aside (c : Callback m κ) : Prop :=
  c.task .begin = none ∧ c.task .alarm = none ∧ c.task .wake = none

theorem mem_tasks {stage : Stage} {cs : List (Callback m κ)} {k : Fin m} :
    k ∈ tasks stage cs ↔ ∃ c ∈ cs, c.task stage = some k := List.mem_filterMap

/-- The tasks, those furthest on their way first. -/
def line (started : List (Fin m × ℚ)) (queue : List (Callback m κ))
    (timers : List (Timer ℚ (Callback m κ))) : List (Fin m) :=
  started.map Prod.fst ++ tasks .wake queue ++ tasks .alarm queue ++ tasks .alarm (timed timers)
    ++ tasks .begin queue

/-! ## §2. The line, step by step. -/

section Line

variable {started : List (Fin m × ℚ)} {queue : List (Callback m κ)}
  {timers : List (Timer ℚ (Callback m κ))} {c : Callback m κ} {k : Fin m}

theorem line_pop (hc : c.Aside) : line started (c :: queue) timers = line started queue timers := by
  unfold line
  simp [tasks_cons, hc.1, hc.2.1, hc.2.2]

theorem line_push (hc : c.Aside) :
    line started (queue ++ [c]) timers = line started queue timers := by
  unfold line
  simp [tasks_cons, hc.1, hc.2.1, hc.2.2]

/-- A timer that is moved to the ready queue. -/
theorem line_due (due : List (Timer ℚ (Callback m κ)))
    (hdue : ∀ t ∈ due, (∃ k, t.handle.callback = .alarm k) ∨ ∃ x, t.handle.callback = .other x) :
    line started (queue ++ timed due) timers = line started queue (due ++ timers) := by
  have hnone : ∀ stage, (∀ t ∈ due, t.handle.callback.task stage = none) →
      tasks stage (timed due) = [] := by
    intro stage h
    refine List.filterMap_eq_nil_iff.mpr fun c hc => ?_
    obtain ⟨t, ht, rfl⟩ := List.mem_map.mp hc
    exact h t ht
  have hbegin := hnone .begin fun t ht => by
    rcases hdue t ht with ⟨_, h⟩ | ⟨_, h⟩ <;> rw [h] <;> rfl
  have hwake := hnone .wake fun t ht => by
    rcases hdue t ht with ⟨_, h⟩ | ⟨_, h⟩ <;> rw [h] <;> rfl
  unfold line
  simp only [tasks_append, hbegin, hwake, List.append_nil, List.append_assoc]
  rw [show timed (due ++ timers) = timed due ++ timed timers from List.map_append, tasks_append]
  simp only [List.append_assoc]

/-- The alarm of a sleep lets its task go on. -/
theorem line_alarm :
    line started (queue ++ [.wake k]) timers = line started (.alarm k :: queue) timers := by
  unfold line
  simp [tasks_cons, Callback.task]

/-- A woken task starts its item. -/
theorem line_wake (now : ℚ) :
    line (started ++ [(k, now)]) queue timers = line started (.wake k :: queue) timers := by
  unfold line
  simp [tasks_cons, Callback.task]

/-- A task that starts its item at once. -/
theorem line_begin (now : ℚ) :
    (line (started ++ [(k, now)]) queue timers).Perm (line started (.begin k :: queue) timers) := by
  unfold line
  simp only [List.map_append, List.map_cons, List.map_nil, List.append_assoc, List.cons_append,
    List.nil_append]
  refine List.Perm.append_left _ ?_
  show (k :: (tasks .wake queue ++ (tasks .alarm queue ++ (tasks .alarm (timed timers)
    ++ tasks .begin queue)))).Perm (tasks .wake queue ++ (tasks .alarm queue
    ++ (tasks .alarm (timed timers) ++ k :: tasks .begin queue)))
  simp only [← List.append_assoc]
  exact List.perm_middle.symm

/-- With no task on its way before it, it is next in the line. -/
theorem line_begin_eq (now : ℚ) (hwake : tasks .wake queue = []) (halarm : tasks .alarm queue = [])
    (hsleep : tasks .alarm (timed timers) = []) :
    line (started ++ [(k, now)]) queue timers = line started (.begin k :: queue) timers := by
  unfold line
  simp [tasks_cons, Callback.task, hwake, halarm, hsleep]

/-- A task goes to sleep. -/
theorem line_sleep {t : Timer ℚ (Callback m κ)} (ht : t.handle.callback = .alarm k) :
    (line started queue (heappush Timer.Before t timers)).Perm
      (line started (.begin k :: queue) timers) := by
  have hpush : (tasks .alarm (timed (heappush Timer.Before t timers))).Perm
      (k :: tasks .alarm (timed timers)) := by
    have hperm := ((heappush_perm Timer.Before t timers).map fun t => t.handle.callback).filterMap
      (Callback.task .alarm)
    rw [List.map_cons, ht] at hperm
    exact hperm
  unfold line
  show (started.map Prod.fst ++ tasks .wake queue ++ tasks .alarm queue ++ _
    ++ tasks .begin queue).Perm (started.map Prod.fst ++ tasks .wake queue ++ tasks .alarm queue
    ++ tasks .alarm (timed timers) ++ k :: tasks .begin queue)
  refine (((hpush.append_left _).append_right _)).trans ?_
  simp only [List.append_assoc, List.cons_append]
  refine List.Perm.append_left _ (List.Perm.append_left _ (List.Perm.append_left _ ?_))
  exact List.perm_middle.symm

/-- It goes to the end of the schedule, where all that sleep are to be woken no later. -/
theorem line_sleep_eq {t : Timer ℚ (Callback m κ)} (ht : t.handle.callback = .alarm k)
    (hsorted : timers.Pairwise Timer.Before)
    (hlast : ∀ u ∈ timers, (u.handle.callback.task .alarm) ≠ none → ¬ t.Before u) :
    line started queue (heappush Timer.Before t timers)
      = line started (.begin k :: queue) timers := by
  have hpush : tasks .alarm (timed (heappush Timer.Before t timers))
      = tasks .alarm (timed timers) ++ [k] := by
    unfold tasks timed
    rw [List.filterMap_map, List.filterMap_map]
    exact heappush_filterMap_last Timer.Before 
      (f := Callback.task .alarm ∘ fun t => t.handle.callback)
      (by simp [ht, Callback.task]) hsorted hlast
  unfold line
  rw [hpush]
  show _ = started.map Prod.fst ++ tasks .wake queue ++ tasks .alarm queue
    ++ tasks .alarm (timed timers) ++ k :: tasks .begin queue
  simp

/-- A timer of no task. -/
theorem line_timer {t : Timer ℚ (Callback m κ)} (ht : t.handle.callback.task .alarm = none) :
    line started queue (heappush Timer.Before t timers) = line started queue timers := by
  have hpush : tasks .alarm (timed (heappush Timer.Before t timers))
      = tasks .alarm (timed timers) := by
    unfold tasks timed
    rw [List.filterMap_map, List.filterMap_map]
    exact heappush_filterMap Timer.Before ht timers
  unfold line
  rw [hpush]

/-- Timers of no task are dropped. -/
theorem line_dropWhile {p : Timer ℚ (Callback m κ) → Bool}
    (hp : ∀ t ∈ timers, p t = true → t.handle.callback.task .alarm = none) :
    line started queue (timers.dropWhile p) = line started queue timers := by
  have hdrop : tasks .alarm (timed (timers.dropWhile p)) = tasks .alarm (timed timers) := by
    induction timers with
    | nil => rfl
    | cons t timers ih =>
        cases h : p t with
        | false => rw [List.dropWhile_cons_of_neg (by simp [h])]
        | true =>
            rw [List.dropWhile_cons_of_pos h, ih fun u hu => hp u (List.mem_cons_of_mem _ hu)]
            show _ = tasks .alarm (t.handle.callback :: timed timers)
            rw [tasks_cons, hp t List.mem_cons_self h, Option.toList_none, List.nil_append]
  unfold line
  rw [hdrop]

theorem line_perm {queue' : List (Callback m κ)} (hq : queue.Perm queue') :
    (line started queue timers).Perm (line started queue' timers) := by
  have htasks : ∀ stage, (tasks stage queue).Perm (tasks stage queue') := fun stage =>
    hq.filterMap _
  exact ((((htasks .wake).append_left _).append (htasks .alarm)).append_right _).append
    (htasks .begin)

/-- `run` makes a task of each item. -/
theorem line_call (hqueue : ∀ c ∈ queue, c.Aside) (htimers : ∀ c ∈ timed timers, c.Aside) :
    line [] (queue ++ (List.finRange m).map Callback.begin) timers = List.finRange m := by
  have hnone : ∀ (stage : Stage) (cs : List (Callback m κ)), stage ≠ .gathered →
      (∀ c ∈ cs, c.Aside) → tasks stage cs = [] := by
    intro stage cs hstage hcs
    refine List.filterMap_eq_nil_iff.mpr fun c hc => ?_
    obtain ⟨hb, ha, hw⟩ := hcs c hc
    cases stage with
    | begin => exact hb
    | alarm => exact ha
    | wake => exact hw
    | gathered => exact absurd rfl hstage
  have hbegins : ∀ stage, tasks (κ := κ) stage ((List.finRange m).map Callback.begin)
      = if stage = .begin then List.finRange m else [] := by
    intro stage
    unfold tasks
    rw [List.filterMap_map]
    cases stage with
    | begin => exact List.filterMap_some
    | _ => exact List.filterMap_eq_nil_iff.mpr fun k _ => rfl
  unfold line
  simp [hnone _ _ _ hqueue, hnone _ _ _ htimers, hbegins]

end Line

/-! ## §3. What is kept of the tasks on their way. -/

/-- The tasks of a run that began at `began`, at the time `now`: each is in one place
of the line; what is ready is due now; and what sleeps is to be woken at its release. -/
structure Staged (release : Fin m → ℚ) (began : Option ℚ) (started : List (Fin m × ℚ)) (now : ℚ)
    (queue : List (Callback m κ)) (timers : List (Timer ℚ (Callback m κ))) : Prop where
  before : began = none →
    started = [] ∧ (∀ c ∈ queue, c.Aside) ∧ ∀ c ∈ timed timers, c.Aside
  began_le : ∀ t₀, began = some t₀ → t₀ ≤ now
  once : began ≠ none → (line started queue timers).Perm (List.finRange m)
  begins : ∀ k, .begin k ∈ queue → began = some now
  woken : ∀ k, .alarm k ∈ queue ∨ .wake k ∈ queue →
    release k = now ∧ ∃ t₀, began = some t₀ ∧ t₀ < now
  sleeps : ∀ t ∈ timers, ∀ k, t.handle.callback = .alarm k →
    t.when_ = release k ∧ now ≤ release k ∧ ∃ t₀, began = some t₀ ∧ t₀ < release k
  scheduled : ∀ t ∈ timers, (∃ k, t.handle.callback = .alarm k) ∨ ∃ x, t.handle.callback = .other x
  on_time : ∀ x ∈ started, ∃ t₀, began = some t₀ ∧ x.2 = max t₀ (release x.1)

namespace Staged

variable {release : Fin m → ℚ} {began : Option ℚ} {started : List (Fin m × ℚ)} {now : ℚ}
  {queue : List (Callback m κ)} {timers : List (Timer ℚ (Callback m κ))} {c : Callback m κ}
  {k : Fin m}

/-- A callback aside is taken from the queue. -/
theorem pop (S : Staged release began started now (c :: queue) timers) (hc : c.Aside) :
    Staged release began started now queue timers where
  before h := by
    obtain ⟨hs, hq, ht⟩ := S.before h
    exact ⟨hs, fun d hd => hq d (List.mem_cons_of_mem _ hd), ht⟩
  began_le := S.began_le
  once h := line_pop hc ▸ S.once h
  begins j hj := S.begins j (List.mem_cons_of_mem _ hj)
  woken j hj := S.woken j (hj.imp (List.mem_cons_of_mem _) (List.mem_cons_of_mem _))
  sleeps := S.sleeps
  scheduled := S.scheduled
  on_time := S.on_time

/-- A callback aside is added to the queue. -/
theorem push (S : Staged release began started now queue timers) (hc : c.Aside) :
    Staged release began started now (queue ++ [c]) timers where
  before h := by
    obtain ⟨hs, hq, ht⟩ := S.before h
    refine ⟨hs, fun d hd => ?_, ht⟩
    rcases List.mem_append.mp hd with hd | hd
    · exact hq d hd
    · exact List.mem_singleton.mp hd ▸ hc
  began_le := S.began_le
  once h := (line_push hc).symm ▸ S.once h
  begins j hj := by
    rcases List.mem_append.mp hj with hj | hj
    · exact S.begins j hj
    · obtain rfl := List.mem_singleton.mp hj
      cases hc.1
  woken j hj := by
    refine S.woken j ?_
    rcases hj with hj | hj
    · refine .inl ((List.mem_append.mp hj).resolve_right fun hj => ?_)
      obtain rfl := List.mem_singleton.mp hj
      cases hc.2.1
    · refine .inr ((List.mem_append.mp hj).resolve_right fun hj => ?_)
      obtain rfl := List.mem_singleton.mp hj
      cases hc.2.2
  sleeps := S.sleeps
  scheduled := S.scheduled
  on_time := S.on_time

/-- A timer of the items' code is scheduled. -/
theorem timer (S : Staged release began started now queue timers)
    {t : Timer ℚ (Callback m κ)} {x : κ} (hx : t.handle.callback = .other x) :
    Staged release began started now queue (heappush Timer.Before t timers) where
  before h := by
    obtain ⟨hs, hq, ht⟩ := S.before h
    refine ⟨hs, hq, fun d hd => ?_⟩
    obtain ⟨u, hu, rfl⟩ := List.mem_map.mp hd
    rcases (mem_heappush Timer.Before).mp hu with rfl | hu
    · rw [hx]
      exact ⟨rfl, rfl, rfl⟩
    · exact ht _ (List.mem_map_of_mem hu)
  began_le := S.began_le
  once h := (line_timer (by rw [hx]; rfl)).symm ▸ S.once h
  begins := S.begins
  woken := S.woken
  sleeps u hu j hj := by
    rcases (mem_heappush Timer.Before).mp hu with rfl | hu
    · rw [hx] at hj
      cases hj
    · exact S.sleeps u hu j hj
  scheduled u hu := by
    rcases (mem_heappush Timer.Before).mp hu with rfl | hu
    · exact .inr ⟨x, hx⟩
    · exact S.scheduled u hu
  on_time := S.on_time

/-- `run` is called. -/
theorem call (S : Staged release none started now queue timers) :
    Staged release (some now) started now (queue ++ (List.finRange m).map Callback.begin) timers where
  before h := by cases h
  began_le t₀ h := le_of_eq (by injection h with h; exact h.symm)
  once _ := by
    obtain ⟨rfl, hq, ht⟩ := S.before rfl
    rw [line_call hq ht]
  begins j _ := rfl
  woken j hj := by
    have hin : Callback.alarm j ∈ queue ∨ Callback.wake j ∈ queue := by
      rcases hj with hj | hj
      · exact .inl (by simpa using hj)
      · exact .inr (by simpa using hj)
    obtain ⟨_, t₀, h, _⟩ := S.woken j hin
    cases h
  sleeps t ht j hj := by
    obtain ⟨_, _, t₀, h, _⟩ := S.sleeps t ht j hj
    cases h
  scheduled := S.scheduled
  on_time x hx := by
    obtain ⟨t₀, h, _⟩ := S.on_time x hx
    cases h

/-- A task whose item is released already starts it. -/
theorem start_begin (S : Staged release began started now (.begin k :: queue) timers)
    (hdue : release k ≤ now) :
    Staged release began (started ++ [(k, now)]) now queue timers where
  before h := by
    obtain ⟨_, hq, _⟩ := S.before h
    cases (hq _ List.mem_cons_self).1
  began_le := S.began_le
  once h := (line_begin now).trans (S.once h)
  begins j hj := S.begins j (List.mem_cons_of_mem _ hj)
  woken j hj := S.woken j (hj.imp (List.mem_cons_of_mem _) (List.mem_cons_of_mem _))
  sleeps := S.sleeps
  scheduled := S.scheduled
  on_time x hx := by
    rcases List.mem_append.mp hx with hx | hx
    · exact S.on_time x hx
    · obtain rfl := List.mem_singleton.mp hx
      exact ⟨now, S.begins k List.mem_cons_self, (max_eq_left hdue).symm⟩

/-- A woken task starts its item. -/
theorem start_wake (S : Staged release began started now (.wake k :: queue) timers) :
    Staged release began (started ++ [(k, now)]) now queue timers where
  before h := by
    obtain ⟨_, hq, _⟩ := S.before h
    cases (hq _ List.mem_cons_self).2.2
  began_le := S.began_le
  once h := line_wake now ▸ S.once h
  begins j hj := S.begins j (List.mem_cons_of_mem _ hj)
  woken j hj := S.woken j (hj.imp (List.mem_cons_of_mem _) (List.mem_cons_of_mem _))
  sleeps := S.sleeps
  scheduled := S.scheduled
  on_time x hx := by
    rcases List.mem_append.mp hx with hx | hx
    · exact S.on_time x hx
    · obtain rfl := List.mem_singleton.mp hx
      obtain ⟨hrelease, t₀, ht₀, hlt⟩ := S.woken k (.inr List.mem_cons_self)
      exact ⟨t₀, ht₀, by rw [hrelease, max_eq_right hlt.le]⟩

/-- The alarm of a sleep lets its task go on. -/
theorem alarm (S : Staged release began started now (.alarm k :: queue) timers) :
    Staged release began started now (queue ++ [.wake k]) timers where
  before h := by
    obtain ⟨_, hq, _⟩ := S.before h
    cases (hq _ List.mem_cons_self).2.1
  began_le := S.began_le
  once h := line_alarm.symm ▸ S.once h
  begins j hj := by
    refine S.begins j (List.mem_cons_of_mem _ ?_)
    simpa using hj
  woken j hj := by
    rcases hj with hj | hj
    · refine S.woken j (.inl (List.mem_cons_of_mem _ ?_))
      simpa using hj
    · rcases List.mem_append.mp hj with hj | hj
      · exact S.woken j (.inr (List.mem_cons_of_mem _ hj))
      · injection List.mem_singleton.mp hj with hj
        exact S.woken j (.inl (hj ▸ List.mem_cons_self))
  sleeps := S.sleeps
  scheduled := S.scheduled
  on_time := S.on_time

/-- A task whose item is still to be released goes to sleep. -/
theorem sleep (S : Staged release began started now (.begin k :: queue) timers)
    (hlate : now < release k) {t : Timer ℚ (Callback m κ)} (ht : t.handle.callback = .alarm k)
    (hwhen : t.when_ = release k) :
    Staged release began started now queue (heappush Timer.Before t timers) where
  before h := by
    obtain ⟨_, hq, _⟩ := S.before h
    cases (hq _ List.mem_cons_self).1
  began_le := S.began_le
  once h := (line_sleep ht).trans (S.once h)
  begins j hj := S.begins j (List.mem_cons_of_mem _ hj)
  woken j hj := S.woken j (hj.imp (List.mem_cons_of_mem _) (List.mem_cons_of_mem _))
  sleeps u hu j hj := by
    rcases (mem_heappush Timer.Before).mp hu with rfl | hu
    · rw [ht] at hj
      injection hj with hj
      subst hj
      exact ⟨hwhen, hlate.le, now, S.begins k List.mem_cons_self, hlate⟩
    · exact S.sleeps u hu j hj
  scheduled u hu := by
    rcases (mem_heappush Timer.Before).mp hu with rfl | hu
    · exact .inl ⟨k, ht⟩
    · exact S.scheduled u hu
  on_time := S.on_time

/-- Timers of callbacks aside are dropped. -/
theorem dropWhile (S : Staged release began started now queue timers)
    {p : Timer ℚ (Callback m κ) → Bool} (hp : ∀ t ∈ timers, p t = true → t.handle.callback.Aside) :
    Staged release began started now queue (timers.dropWhile p) where
  before h := by
    obtain ⟨hs, hq, ht⟩ := S.before h
    exact ⟨hs, hq, fun c hc => ht c ((List.dropWhile_sublist p).map _ |>.subset hc)⟩
  began_le := S.began_le
  once h := by
    rw [line_dropWhile fun t ht h => (hp t ht h).2.1]
    exact S.once h
  begins := S.begins
  woken := S.woken
  sleeps t ht := S.sleeps t ((List.dropWhile_sublist p).subset ht)
  scheduled t ht := S.scheduled t ((List.dropWhile_sublist p).subset ht)
  on_time := S.on_time

/-- With nothing ready, the clock moves on, to a time at which nothing was to be woken
before. -/
theorem jump (S : Staged release began started now [] timers) {later : ℚ} (hlater : now ≤ later)
    (hfirst : ∀ t ∈ timers, later ≤ t.when_) :
    Staged release began started later [] timers where
  before := S.before
  began_le t₀ h := (S.began_le t₀ h).trans hlater
  once := S.once
  begins j hj := by cases hj
  woken j hj := by
    rcases hj with hj | hj <;> cases hj
  sleeps t ht j hj := by
    obtain ⟨hwhen, _, hbegan⟩ := S.sleeps t ht j hj
    exact ⟨hwhen, hwhen ▸ hfirst t ht, hbegan⟩
  scheduled := S.scheduled
  on_time := S.on_time

/-- What is due is moved to the queue. -/
theorem due {moved : List (Timer ℚ (Callback m κ))}
    (S : Staged release began started now queue (moved ++ timers))
    (hdue : ∀ t ∈ moved, t.when_ ≤ now) :
    Staged release began started now (queue ++ timed moved) timers where
  before h := by
    obtain ⟨hs, hq, ht⟩ := S.before h
    refine ⟨hs, fun c hc => ?_, fun c hc => ?_⟩
    · rcases List.mem_append.mp hc with hc | hc
      · exact hq c hc
      · exact ht c ((List.sublist_append_left _ _).map _ |>.subset hc)
    · exact ht c ((List.sublist_append_right _ _).map _ |>.subset hc)
  began_le := S.began_le
  once h := by
    rw [line_due moved fun t ht => S.scheduled t (List.mem_append_left _ ht)]
    exact S.once h
  begins j hj := by
    rcases List.mem_append.mp hj with hj | hj
    · exact S.begins j hj
    · obtain ⟨t, ht, hc⟩ := List.mem_map.mp hj
      rcases S.scheduled t (List.mem_append_left _ ht) with ⟨i, h⟩ | ⟨x, h⟩
      · cases h.symm.trans hc
      · cases h.symm.trans hc
  woken j hj := by
    have halarm : Callback.alarm j ∈ timed moved →
        release j = now ∧ ∃ t₀, began = some t₀ ∧ t₀ < now := by
      intro hin
      obtain ⟨t, ht, hc⟩ := List.mem_map.mp hin
      obtain ⟨hwhen, hle, t₀, ht₀, hlt⟩ := S.sleeps t (List.mem_append_left _ ht) j hc
      have heq : release j = now := le_antisymm (hwhen ▸ hdue t ht) hle
      exact ⟨heq, t₀, ht₀, heq ▸ hlt⟩
    rcases hj with hj | hj
    · rcases List.mem_append.mp hj with hj | hj
      · exact S.woken j (.inl hj)
      · exact halarm hj
    · rcases List.mem_append.mp hj with hj | hj
      · exact S.woken j (.inr hj)
      · obtain ⟨t, ht, hc⟩ := List.mem_map.mp hj
        rcases S.scheduled t (List.mem_append_left _ ht) with ⟨i, h⟩ | ⟨x, h⟩
        · cases h.symm.trans hc
        · cases h.symm.trans hc
  sleeps t ht := S.sleeps t (List.mem_append_right _ ht)
  scheduled t ht := S.scheduled t (List.mem_append_right _ ht)
  on_time := S.on_time

/-- The ready queue may be taken in any order. -/
theorem perm (S : Staged release began started now queue timers) {queue' : List (Callback m κ)}
    (hq : queue.Perm queue') : Staged release began started now queue' timers where
  before h := by
    obtain ⟨hs, hall, ht⟩ := S.before h
    exact ⟨hs, fun c hc => hall c (hq.mem_iff.mpr hc), ht⟩
  began_le := S.began_le
  once h := (line_perm hq).symm.trans (S.once h)
  begins j hj := S.begins j (hq.mem_iff.mpr hj)
  woken j hj := S.woken j (hj.imp hq.mem_iff.mpr hq.mem_iff.mpr)
  sleeps := S.sleeps
  scheduled := S.scheduled
  on_time := S.on_time

/-- While a task is before its first step, none was woken. -/
theorem none_woken (S : Staged release began started now queue timers) (hk : .begin k ∈ queue) :
    tasks .alarm queue = [] ∧ tasks .wake queue = [] := by
  have hnone : ∀ j, ¬ (.alarm j ∈ queue ∨ .wake j ∈ queue) := by
    intro j hj
    obtain ⟨_, t₀, ht₀, hlt⟩ := S.woken j hj
    rw [S.begins k hk] at ht₀
    injection ht₀ with ht₀
    exact absurd hlt (by rw [ht₀]; exact lt_irrefl _)
  constructor
  · refine List.eq_nil_iff_forall_not_mem.mpr fun j hj => ?_
    obtain ⟨c, hc, hcj⟩ := mem_tasks.mp hj
    cases c with
    | alarm i => exact hnone i (.inl hc)
    | _ => cases hcj
  · refine List.eq_nil_iff_forall_not_mem.mpr fun j hj => ?_
    obtain ⟨c, hc, hcj⟩ := mem_tasks.mp hj
    cases c with
    | wake i => exact hnone i (.inr hc)
    | _ => cases hcj

/-- In a line in the order of the items, all before a task come before it. -/
theorem before_begin (hline : line started (.begin k :: queue) timers = List.finRange m) {j : Fin m}
    (hj : j ∈ tasks .alarm (timed timers)) : j < k := by
  have hsplit : line started (.begin k :: queue) timers
      = (started.map Prod.fst ++ tasks .wake queue ++ tasks .alarm queue
          ++ tasks .alarm (timed timers)) ++ k :: tasks .begin queue := by
    unfold line
    simp [tasks_cons, Callback.task]
  have hsorted : (List.finRange m).Pairwise (· < ·) := List.pairwise_lt_finRange m
  rw [← hline, hsplit, List.pairwise_append] at hsorted
  exact hsorted.2.2 j (List.mem_append_right _ hj) k List.mem_cons_self

/-- Who starts at its first step is next in the line. -/
theorem line_start_begin (S : Staged release began started now (.begin k :: queue) timers)
    (hmono : ∀ i j : Fin m, i < j → release i ≤ release j) (hdue : release k ≤ now)
    (hline : line started (.begin k :: queue) timers = List.finRange m) :
    line (started ++ [(k, now)]) queue timers = List.finRange m := by
  obtain ⟨halarm, hwake⟩ := S.none_woken List.mem_cons_self
  have hsleep : tasks .alarm (timed timers) = [] := by
    refine List.eq_nil_iff_forall_not_mem.mpr fun j hj => ?_
    have hlt := before_begin hline hj
    obtain ⟨c, hc, hcj⟩ := mem_tasks.mp hj
    obtain ⟨t, ht, rfl⟩ := List.mem_map.mp hc
    have hcall : t.handle.callback = .alarm j := by
      cases h : t.handle.callback with
      | alarm i =>
          rw [h] at hcj
          injection hcj with hcj
          rw [hcj]
      | _ =>
          rw [h] at hcj
          cases hcj
    -- it sleeps although the item after it is released already
    obtain ⟨_, _, t₀, ht₀, hlate⟩ := S.sleeps t ht j hcall
    rw [S.begins k List.mem_cons_self] at ht₀
    injection ht₀ with ht₀
    subst ht₀
    exact absurd (hlate.trans_le ((hmono j k hlt).trans hdue)) (lt_irrefl _)
  rw [line_begin_eq now (by simpa [tasks_cons, Callback.task] using hwake)
    (by simpa [tasks_cons, Callback.task] using halarm) hsleep]
  exact hline

/-- Who goes to sleep is to be woken last. -/
theorem line_start_sleep (S : Staged release began started now (.begin k :: queue) timers)
    (hmono : ∀ i j : Fin m, i < j → release i ≤ release j) {t : Timer ℚ (Callback m κ)}
    (ht : t.handle.callback = .alarm k) (hwhen : t.when_ = release k)
    (hsorted : timers.Pairwise Timer.Before) (hseq : ∀ u ∈ timers, u.seq < t.seq)
    (hline : line started (.begin k :: queue) timers = List.finRange m) :
    line started queue (heappush Timer.Before t timers) = List.finRange m := by
  rw [line_sleep_eq ht hsorted, hline]
  intro u hu hcall hbefore
  cases h : u.handle.callback with
  | alarm j =>
      have hj : j ∈ tasks .alarm (timed timers) :=
        mem_tasks.mpr ⟨_, List.mem_map_of_mem hu, by rw [h]; rfl⟩
      have hle := hmono j k (before_begin hline hj)
      rw [← (S.sleeps u hu j h).1, ← hwhen] at hle
      rcases hbefore with hlt | ⟨_, hlt⟩
      · exact absurd (hlt.trans_le hle) (lt_irrefl _)
      · exact absurd (hlt.trans (hseq u hu)) (lt_irrefl _)
  | _ =>
      rw [h] at hcall
      exact hcall rfl

end Staged

end Toso.Realsim
