/-
  Toso.KvCache.Pending — dropping a finished reservation is not seen.

  The sensor drops what a host reports to have finished, and a read filters what is left
  at its own clock.  A report is of a clock the host has reached, so no later read would
  have offered what it drops: every read answers as though nothing had been dropped.

  Main results:
    * `Timely.clock_le` — no clock before a read is past it.
    * `pending_foldl` — what a run of actions leaves for a later read.
    * `pending_unpruned` — every read is of all the reservations ever committed.
-/
import Toso.KvCache.Sensors

namespace Toso.KvCache.ReservationSensor

variable {ι κ : Type*}

/-! ## §1. Actions and reads. -/

/-- What happens to the sensor: an action is dispatched, or a decision reads it. -/
inductive Event (ι κ : Type*)
  | dispatched (action : Action ι κ)
  | read (now : ℚ)

/-- The clock an event speaks of: a report's, or the read's own. -/
def Event.clock : Event ι κ → Option ℚ
  | .dispatched (.prefillFinished _ now) => some now
  | .dispatched _ => none
  | .read now => some now

/-- The time of the first read. -/
def nextRead : List (Event ι κ) → Option ℚ
  | [] => none
  | .dispatched _ :: rest => nextRead rest
  | .read now :: _ => some now

/-- **Timely**: no report's clock exceeds the time of the next read, and the times of the
reads do not decrease. -/
def Timely : List (Event ι κ) → Prop
  | [] => True
  | e :: rest => (∀ seen, e.clock = some seen → ∀ now, nextRead rest = some now → seen ≤ now)
      ∧ Timely rest

/-- The sensor after an event; a read leaves it as it is. -/
def after (s : ReservationSensor ι) : Event ι κ → ReservationSensor ι
  | .dispatched action => s.fold action
  | .read _ => s

/-- The reservation an event commits. -/
def Event.committed : Event ι κ → Option (Reservation ι)
  | .dispatched (.committed response outputTokens) => some (response.reservation outputTokens)
  | _ => none

/-! ## §2. Clocks before a read. -/

/-- The next read is no later than the last, where none before the last is. -/
theorem nextRead_le {now : ℚ} {rest : List (Event ι κ)} : ∀ {before : List (Event ι κ)},
    (∀ e ∈ before, ∀ seen, e.clock = some seen → seen ≤ now) →
      ∃ next, nextRead (before ++ .read now :: rest) = some next ∧ next ≤ now
  | [], _ => ⟨now, rfl, le_rfl⟩
  | .dispatched _ :: before, h => by
      have ih : ∃ next, nextRead (before ++ .read now :: rest) = some next ∧ next ≤ now :=
        nextRead_le fun e he => h e (List.mem_cons_of_mem _ he)
      exact ih
  | .read next :: _, h => ⟨next, rfl, h (.read next) List.mem_cons_self next rfl⟩

/-- **No clock before a read is past it.** -/
theorem Timely.clock_le {now : ℚ} {rest : List (Event ι κ)} : ∀ {before : List (Event ι κ)},
    Timely (before ++ .read now :: rest) →
      ∀ e ∈ before, ∀ seen, e.clock = some seen → seen ≤ now
  | [], _, e, he, _, _ => absurd he List.not_mem_nil
  | first :: before, h, e, he, seen, hseen => by
      have ih := Timely.clock_le h.2
      rcases List.mem_cons.mp he with rfl | hrest
      -- the clock is bounded by the next read, and that one by the last
      · obtain ⟨next, hnext, hle⟩ := nextRead_le ih
        exact (h.1 seen hseen next hnext).trans hle
      · exact ih e hrest seen hseen

/-! ## §3. What a read offers. -/

/-- One event, as a later read sees it: it adds what it commits and drops nothing. -/
theorem pending_after (s : ReservationSensor ι) (e : Event ι κ) {now : ℚ}
    (h : ∀ seen, e.clock = some seen → seen ≤ now) :
    (s.after e).pending now =
      s.pending now ++ e.committed.toList.filter fun r => now ≤ r.prefillDone := by
  cases e with
  | read t => exact (List.append_nil _).symm
  | dispatched action =>
      cases action with
      | committed response outputTokens => exact List.filter_append ..
      -- what the report drops was done before the read, which filters it anyway
      | prefillFinished inst seen =>
          have hread := pending_prefillFinished (κ := κ) s inst (h seen rfl)
          exact hread.trans (List.append_nil _).symm
      | fetchAnswered requester keys => exact (List.append_nil _).symm
      | computeBusy inst busyUntil => exact (List.append_nil _).symm
      | decodeState inst finishes => exact (List.append_nil _).symm

/-- **What a run leaves for a later read**: what there was, and what it committed. -/
theorem pending_foldl {now : ℚ} : ∀ (before : List (Event ι κ)) (s : ReservationSensor ι),
    (∀ e ∈ before, ∀ seen, e.clock = some seen → seen ≤ now) →
      (before.foldl after s).pending now = s.pending now
        ++ (before.filterMap Event.committed).filter fun r => now ≤ r.prefillDone
  | [], s, _ => (List.append_nil _).symm
  | e :: before, s, h => by
      have ih := pending_foldl before (s.after e)
        fun e' he' => h e' (List.mem_cons_of_mem e he')
      have hone := pending_after s e (h e List.mem_cons_self)
      have hcommitted : (e :: before).filterMap Event.committed =
          e.committed.toList ++ before.filterMap Event.committed := by
        rw [List.filterMap_cons]
        cases e.committed <;> rfl
      rw [List.foldl_cons, ih, hone, hcommitted, List.filter_append, List.append_assoc]

/-- **Every read answers as though nothing had been dropped**: in a timely run, whatever
was reported in between, it offers the reservations ever committed whose prefill is
predicted to complete at its time or later, in the order they were committed. -/
theorem pending_unpruned {before rest : List (Event ι κ)} {now : ℚ}
    (h : Timely (before ++ .read now :: rest)) :
    (before.foldl after ⟨[]⟩).pending now =
      (before.filterMap Event.committed).filter fun r => now ≤ r.prefillDone :=
  pending_foldl before ⟨[]⟩ h.clock_le

/-- One prefill lands early, one late: a read at five offers what is predicted for five
and for nine, though a report at four dropped what was predicted for one. -/
theorem pending_unpruned_five :
    let commit : ℚ → Event ℕ ℕ := fun done =>
      .dispatched (.committed ⟨0, 1, ⟨0, 0, 0, none, 0, 0, done, done, 0, []⟩, 0⟩ 3)
    let before : List (Event ℕ ℕ) := [commit 1, commit 9, .read 2,
      .dispatched (.prefillFinished 0 4), commit 5, .dispatched (.prefillFinished 2 3)]
    (before.foldl after ⟨[]⟩).held.length = 2 ∧
      (before.foldl after ⟨[]⟩).pending 5 =
        (before.filterMap Event.committed).filter fun r => 5 ≤ r.prefillDone := by
  intro commit before
  have htimely : Timely (before ++ .read 5 :: []) := by
    simp only [before, commit, Timely, List.cons_append, List.nil_append, nextRead, Event.clock,
      Option.some.injEq, reduceCtorEq, false_imp_iff, imp_true_iff, true_and, and_true,
      forall_eq']
    exact ⟨by decide +kernel, by decide +kernel, by decide +kernel⟩
  exact ⟨by decide +kernel, pending_unpruned htimely⟩

end Toso.KvCache.ReservationSensor
