/-
  Toso.Realsim.Drive — a run on the loop, from its call to its end.

  One step of a callback, one request of the items' code and one tick of the loop
  keep what is said of the tasks, of the gather and of the return.  The items' code
  cancels only what it made, so nothing that the run waits for is lost.

  Main results:
    * `Kept.runEntry`, `Kept.runOnce` — what a callback and a tick keep.
    * `kept` — what holds after every tick of every run.
    * `released_in_order` — under the default order, which items have started, in
      which order and at what time.
    * `run_ends` — what `run` returns or raises, what the ledger holds then, and what
      a run that ends in a deadlock waits for.
-/
import Toso.Realsim.Gather

namespace Toso.Realsim

open Lib SimCommon SimCommon.Report

/-! ## §1. The handles of a run. -/

section Handles

variable {m : ℕ} {κ σ : Type*}

/-- The callbacks of what is ready, in order, with `batch` still to drain. -/
def queued {κ' σ : Type*} (e : AsyncEngine ℚ κ' σ) (batch : List (Entry ℚ κ')) : List κ' :=
  (handles (batch ++ e.ready)).map Handle.callback

/-- The handles the items' code made, `own`, against those that wait and those that are
cancelled. -/
structure Guarded (own : List ℕ) (nextId : ℕ) (cancelled : List ℕ)
    (waiting : List (Handle ℚ (Callback m κ))) : Prop where
  fresh : ∀ id ∈ own, id < nextId
  flagged : ∀ id ∈ cancelled, id ∈ own
  waits : ∀ h ∈ waiting, h.id < nextId ∧ (h.id ∈ own → ∃ x, h.callback = .other x)

namespace Guarded

variable {own : List ℕ} {nextId : ℕ} {cancelled : List ℕ}
  {w w' : List (Handle ℚ (Callback m κ))}

theorem sub (G : Guarded own nextId cancelled w) (hw : ∀ h ∈ w', h ∈ w) :
    Guarded own nextId cancelled w' :=
  ⟨G.fresh, G.flagged, fun h hh => G.waits h (hw h hh)⟩

/-- The run makes handles of its own. -/
theorem make (G : Guarded own nextId cancelled w) {later : ℕ} (hle : nextId ≤ later)
    (hw : ∀ h ∈ w', nextId ≤ h.id ∧ h.id < later ∨ h ∈ w) :
    Guarded own later cancelled w' where
  fresh id hid := (G.fresh id hid).trans_le hle
  flagged := G.flagged
  waits h hh := by
    rcases hw h hh with ⟨hlow, hhigh⟩ | hin
    · refine ⟨hhigh, fun hown => ?_⟩
      exact absurd (G.fresh _ hown) (Nat.not_lt.mpr hlow)
    · exact ⟨(G.waits h hin).1.trans_le hle, (G.waits h hin).2⟩

/-- The items' code makes a handle. -/
theorem other (G : Guarded own nextId cancelled w)
    (hw : ∀ h ∈ w', h.id = nextId ∧ (∃ x, h.callback = .other x) ∨ h ∈ w) :
    Guarded (nextId :: own) (nextId + 1) cancelled w' where
  fresh id hid := by
    rcases List.mem_cons.mp hid with rfl | hid
    · exact Nat.lt_succ_self _
    · exact Nat.lt_succ_of_lt (G.fresh id hid)
  flagged id hid := List.mem_cons_of_mem _ (G.flagged id hid)
  waits h hh := by
    rcases hw h hh with ⟨hid, hx⟩ | hin
    · exact ⟨by omega, fun _ => hx⟩
    · obtain ⟨hlt, hown⟩ := G.waits h hin
      refine ⟨Nat.lt_succ_of_lt hlt, fun h' => hown ?_⟩
      exact (List.mem_cons.mp h').resolve_left (Nat.ne_of_lt hlt)

/-- The items' code cancels one of its handles. -/
theorem cancel (G : Guarded own nextId cancelled w) {id : ℕ} (hid : id ∈ own) :
    Guarded own nextId (id :: cancelled) w where
  fresh := G.fresh
  flagged i hi := by
    rcases List.mem_cons.mp hi with rfl | hi
    · exact hid
    · exact G.flagged i hi
  waits := G.waits

end Guarded

/-- What `call_soon` of some callbacks does to a loop. -/
theorem callSoons {κ' : Type*} (cs : List κ') : ∀ e : AsyncEngine ℚ κ' σ,
    ∃ (hs : List (Handle ℚ κ')) (log : List (Event ℚ κ')),
      (cs.map Action.callSoon).foldl (AsyncEngine.perform clock) e
        = { e with
            ready := e.ready ++ hs.map .handle, nextId := e.nextId + cs.length, log := log } ∧
      hs.map Handle.callback = cs ∧
      ∀ h ∈ hs, e.nextId ≤ h.id ∧ h.id < e.nextId + cs.length := by
  induction cs with
  | nil =>
      intro e
      refine ⟨[], e.log, ?_, rfl, fun h hh => by cases hh⟩
      simp
  | cons c cs ih =>
      intro e
      obtain ⟨hs, log, heq, hcall, hid⟩ := ih (e.callSoon c)
      refine ⟨⟨e.nextId, c, none, e.clock⟩ :: hs, log, ?_, ?_, ?_⟩
      · rw [List.map_cons, List.foldl_cons]
        refine heq.trans ?_
        simp [AsyncEngine.callSoon, Nat.add_assoc, Nat.add_comm 1]
      · rw [List.map_cons, hcall]
      · intro h hh
        rw [List.length_cons]
        rcases List.mem_cons.mp hh with rfl | hh
        · exact ⟨le_refl _, by show e.nextId < _; omega⟩
        · obtain ⟨hlow, hhigh⟩ := hid h hh
          have hnext : (e.callSoon c).nextId = e.nextId + 1 := rfl
          omega

section Queued

variable {κ' σ : Type*} (e : AsyncEngine ℚ κ' σ) (batch : List (Entry ℚ κ'))

theorem queued_ready (hs : List (Handle ℚ κ')) (id : ℕ) (log : List (Event ℚ κ')) :
    queued { e with ready := e.ready ++ hs.map .handle, nextId := id, log := log } batch
      = queued e batch ++ hs.map Handle.callback := by
  have hall : handles (hs.map Entry.handle) = hs := by
    unfold handles
    rw [List.filterMap_map]
    exact List.filterMap_some
  unfold queued
  rw [← List.append_assoc, handles_append, hall, List.map_append]

theorem waiting_ready (hs : List (Handle ℚ κ')) (id : ℕ) (log : List (Event ℚ κ'))
    {h : Handle ℚ κ'}
    (hh : h ∈ AsyncEngine.waiting
      { e with ready := e.ready ++ hs.map .handle, nextId := id, log := log } batch) :
    h ∈ hs ∨ h ∈ e.waiting batch := by
  unfold AsyncEngine.waiting at hh ⊢
  rw [← List.append_assoc, handles_append, List.append_assoc, List.mem_append, List.mem_append,
    mem_handles] at hh
  rcases hh with hh | hh | hh
  · exact .inr (List.mem_append_left _ (mem_handles.mpr hh))
  · rw [mem_handles] at hh
    obtain ⟨h', hin, heq⟩ := List.mem_map.mp hh
    injection heq with heq
    exact .inl (heq ▸ hin)
  · exact .inr (List.mem_append_right _ hh)

theorem waiting_callAt (when_ : ℚ) (c : κ') {h : Handle ℚ κ'}
    (hh : h ∈ (e.callAt when_ c).waiting batch) :
    h = ⟨e.nextId, c, some when_, e.clock⟩ ∨ h ∈ e.waiting batch := by
  unfold AsyncEngine.waiting AsyncEngine.callAt at hh
  rcases List.mem_append.mp hh with hh | hh
  · exact .inr (List.mem_append_left _ hh)
  · obtain ⟨t, ht, rfl⟩ := List.mem_map.mp hh
    rcases (mem_heappush Timer.Before).mp ht with rfl | ht
    · exact .inl rfl
    · exact .inr (List.mem_append_right _ (List.mem_map_of_mem ht))

theorem stop_ready (hs : List (Handle ℚ κ')) :
    Entry.stop ∈ batch ++ (e.ready ++ hs.map .handle) ↔ Entry.stop ∈ batch ++ e.ready := by
  simp

end Queued

end Handles

/-! ## §2. What every step keeps. -/

namespace Runner

variable {κ σ ε ρ : Type*} (r : Runner κ σ ε ρ)

/-- The row of an execution that returned. -/
def row : Fin r.size × Except ε ρ × ℚ → Option Outcome
  | (k, .ok _, t) => some ⟨(r.item k).id, (r.item k).releaseTime, t⟩
  | (_, .error _, _) => none

/-! What the gather's callback does, case by case. -/

section Gathered

variable {r} {s : RunState r.size σ ε ρ} (k : Fin r.size)

theorem gathered_given {given : Except ε (List ρ)} (h : s.outer = some given) :
    r.gathered k s = ({ s with finished := s.finished ++ [k] }, []) := by
  unfold gathered
  rw [h]

theorem gathered_error {err : ε} (h : s.outer = none)
    (hk : result s.answers k = some (.error err)) :
    r.gathered k s = ({ s with
      finished := s.finished ++ [k], outer := some (.error err) }, [.callSoon .resume]) := by
  unfold gathered
  rw [h, hk]

theorem gathered_ok {v : ρ} (h : s.outer = none) (hk : result s.answers k = some (.ok v))
    (hlen : (s.finished ++ [k]).length ≠ r.size) :
    r.gathered k s = ({ s with finished := s.finished ++ [k] }, []) := by
  unfold gathered
  rw [h, hk]
  exact if_neg hlen

theorem gathered_all {v : ρ} (h : s.outer = none) (hk : result s.answers k = some (.ok v))
    (hlen : (s.finished ++ [k]).length = r.size) :
    r.gathered k s = ({ s with
      finished := s.finished ++ [k]
      outer := some (.ok ((List.finRange r.size).filterMap fun j =>
        (result s.answers j).bind Except.toOption)) }, [.callSoon .resume]) := by
  unfold gathered
  rw [h, hk]
  exact if_pos hlen

end Gathered

/-- When all tasks returned, the gather has what they returned. -/
theorem returned_all {m : ℕ} {answers : List (Fin m × Except ε ρ × ℚ)}
    (hapart : (answers.map Prod.fst).Nodup) (hall : ∀ k, ∃ v t, (k, .ok v, t) ∈ answers) :
    Returned answers ((List.finRange m).filterMap fun j =>
      (result answers j).bind Except.toOption) := by
  choose f t hin using hall
  refine ⟨f, ?_, fun k => ⟨t k, hin k⟩⟩
  have hresult : ∀ j, (result answers j).bind Except.toOption = some (f j) := by
    intro j
    unfold result
    rw [find_answer hapart (hin j)]
    rfl
  simp only [hresult]
  exact congrFun List.filterMap_eq_map _

/-- A ledger but for its wallclock. -/
def unstamped (l : Ledger Outcome) : Ledger Outcome := { l with wallclock := 0 }

theorem map_unstamped (l : Option (Ledger Outcome)) (w : ℚ) :
    (l.map fun l => { l with wallclock := w }).map unstamped = l.map unstamped := by
  cases l <;> rfl

/-- What a run adds to the ledger it was given. -/
def added (s : RunState r.size σ ε ρ) (l : Ledger Outcome) : Ledger Outcome :=
  { l with
    rows := l.rows ++ s.answers.filterMap r.row
    itemsTotal := l.itemsTotal + if s.began.isSome then r.size else 0 }

/-- What holds of a run between two callbacks, with `batch` still to drain; the line is
in the order of the items where `F`. -/
structure Kept (F : Prop) (e : r.Loop) (batch : List (Entry ℚ (Callback r.size κ))) : Prop where
  guarded : Guarded e.program.own e.nextId e.cancelled (e.waiting batch)
  staged : Staged r.release e.program.began e.program.started e.clock (queued e batch) e.scheduled
  inOrder : F → e.program.began ≠ none →
    line e.program.started (queued e batch) e.scheduled = List.finRange r.size
  heard : Heard e.program.began e.program.started e.program.answers e.program.finished
    e.program.outer e.clock (queued e batch)
  booked : e.program.ledger.map unstamped = r.ledger.map fun l => unstamped (r.added e.program l)
  ended : Ended ((ordered r.items).map WorkItem.id) e.program.began e.program.answers
    e.program.outer e.program.returned (e.program.ledger.map Ledger.wallclock) e.done e.clock
    (queued e batch)
  stops : Entry.stop ∈ batch ++ e.ready ∨ e.stopping = true → e.done = true

namespace Kept

variable {r} {F : Prop} {e : r.Loop} {batch : List (Entry ℚ (Callback r.size κ))}

/-- The items' code makes a handle that is ready. -/
theorem askSoon (K : r.Kept F e batch) (x : κ) : r.Kept F (r.asked e (.callSoon x)) batch := by
  let p : RunState r.size σ ε ρ := { e.program with own := e.nextId :: e.program.own }
  have hsoon : r.asked e (.callSoon x) = { withProgram p e with
      ready := e.ready ++ [⟨e.nextId, .other x, none, e.clock⟩].map .handle
      nextId := e.nextId + 1
      log := .made ⟨e.nextId, .other x, none, e.clock⟩ :: e.log } := rfl
  have hqueue : queued (r.asked e (.callSoon x)) batch = queued e batch ++ [.other x] := by
    rw [hsoon]
    exact queued_ready (withProgram p e) batch _ _ _
  have haside : (Callback.other x : Callback r.size κ).Aside := ⟨rfl, rfl, rfl⟩
  refine ⟨?_, ?_, ?_, ?_, K.booked, ?_, ?_⟩
  · rw [hsoon]
    refine K.guarded.other fun h hh => ?_
    refine (waiting_ready (withProgram p e) batch _ _ _ hh).imp_left fun hin => ?_
    obtain rfl := List.mem_singleton.mp hin
    exact ⟨rfl, x, rfl⟩
  · rw [hqueue]
    exact K.staged.push haside
  · intro hF hbegan
    rw [hqueue]
    exact (line_push haside).trans (K.inOrder hF hbegan)
  · rw [hqueue]
    exact K.heard.push fun c hc => List.mem_singleton.mp hc ▸ rfl
  · rw [hqueue]
    exact K.ended.push (by simp)
  · intro h
    refine K.stops (h.imp_left fun hin => ?_)
    exact (stop_ready (withProgram p e) batch [⟨e.nextId, .other x, none, e.clock⟩]).mp hin

/-- The items' code makes a timer. -/
theorem askAt (K : r.Kept F e batch) (w : ℚ) (x : κ) :
    r.Kept F (r.asked e (.callAt w x)) batch where
  guarded := K.guarded.other fun h hh => by
    refine (waiting_callAt _ batch w _ hh).imp_left fun heq => ?_
    subst heq
    exact ⟨rfl, x, rfl⟩
  staged := K.staged.timer rfl
  inOrder hF hbegan := (line_timer rfl).trans (K.inOrder hF hbegan)
  heard := K.heard
  booked := K.booked
  ended := K.ended
  stops := K.stops

/-- The items' code cancels a handle it made. -/
theorem askCancel (K : r.Kept F e batch) (id : ℕ) : r.Kept F (r.asked e (.cancel id)) batch := by
  by_cases hown : id ∈ e.program.own
  · have hasked : r.asked e (.cancel id)
        = { e with cancelled := id :: e.cancelled, log := .cancelled id :: e.log } := by
      show ((if id ∈ e.program.own then [Action.cancel id] else []).foldl _ _) = _
      rw [if_pos hown]
      exact if_pos (K.guarded.fresh id hown)
    rw [hasked]
    exact ⟨K.guarded.cancel hown, K.staged, K.inOrder, K.heard, K.booked, K.ended, K.stops⟩
  · have hasked : r.asked e (.cancel id) = e := by
      show ((if id ∈ e.program.own then [Action.cancel id] else []).foldl _ _) = _
      rw [if_neg hown]
      rfl
    rw [hasked]
    exact K

/-- The run moves on to `p` and makes handles that are ready, of callbacks `cs`. -/
theorem soon (p : RunState r.size σ ε ρ) (cs : List (Callback r.size κ))
    (G : Guarded p.own e.nextId e.cancelled (e.waiting batch))
    (S : Staged r.release p.began p.started e.clock (queued e batch ++ cs) e.scheduled)
    (L : F → p.began ≠ none →
      line p.started (queued e batch ++ cs) e.scheduled = List.finRange r.size)
    (H : Heard p.began p.started p.answers p.finished p.outer e.clock (queued e batch ++ cs))
    (B : p.ledger.map unstamped = r.ledger.map fun l => unstamped (r.added p l))
    (N : Ended ((ordered r.items).map WorkItem.id) p.began p.answers p.outer p.returned
      (p.ledger.map Ledger.wallclock) e.done e.clock (queued e batch ++ cs))
    (hstops : Entry.stop ∈ batch ++ e.ready ∨ e.stopping = true → e.done = true) :
    r.Kept F ((cs.map Action.callSoon).foldl (AsyncEngine.perform clock) (withProgram p e)) batch := by
  obtain ⟨hs, log, heq, hcall, hid⟩ := callSoons cs (withProgram p e)
  rw [heq]
  have hqueue := queued_ready (withProgram p e) batch hs (e.nextId + cs.length) log
  rw [hcall] at hqueue
  refine ⟨?_, hqueue ▸ S, hqueue ▸ L, hqueue ▸ H, B, hqueue ▸ N, ?_⟩
  · refine G.make (Nat.le_add_right _ _) fun h hh => ?_
    exact (waiting_ready (withProgram p e) batch _ _ _ hh).imp_left (hid h)
  · intro h
    refine hstops (h.imp_left fun hin => ?_)
    exact (stop_ready (withProgram p e) batch hs).mp hin

/-- The run moves on to `p` and its future is done. -/
theorem finishing (p : RunState r.size σ ε ρ)
    (G : Guarded p.own e.nextId e.cancelled (e.waiting batch))
    (S : Staged r.release p.began p.started e.clock (queued e batch) e.scheduled)
    (L : F → p.began ≠ none →
      line p.started (queued e batch) e.scheduled = List.finRange r.size)
    (H : Heard p.began p.started p.answers p.finished p.outer e.clock (queued e batch))
    (B : p.ledger.map unstamped = r.ledger.map fun l => unstamped (r.added p l))
    (N : Ended ((ordered r.items).map WorkItem.id) p.began p.answers p.outer p.returned
      (p.ledger.map Ledger.wallclock) true e.clock (queued e batch)) :
    r.Kept F ([Action.finish].foldl (AsyncEngine.perform clock) (withProgram p e)) batch := by
  show r.Kept F (withProgram p e).finish batch
  unfold AsyncEngine.finish
  by_cases hdone : (withProgram p e).done = true
  · rw [if_pos hdone]
    exact ⟨G, S, L, H, B, (show e.done = true from hdone) ▸ N, fun _ => hdone⟩
  · rw [if_neg hdone]
    have hqueue : queued { withProgram p e with
        done := true, ready := (withProgram p e).ready ++ [.stop] } batch = queued e batch := by
      unfold queued
      rw [← List.append_assoc, handles_append]
      show ((handles (batch ++ e.ready)) ++ []).map _ = _
      rw [List.append_nil]
    refine ⟨?_, hqueue ▸ S, hqueue ▸ L, hqueue ▸ H, B, hqueue ▸ N, fun _ => rfl⟩
    refine G.sub fun h hh => ?_
    unfold AsyncEngine.waiting at hh ⊢
    rw [← List.append_assoc, handles_append] at hh
    change h ∈ (handles (batch ++ e.ready) ++ []) ++ e.scheduled.map Timer.handle at hh
    rwa [List.append_nil] at hh

/-- `run` is called, or called again. -/
theorem askRun (K : r.Kept F e batch) : r.Kept F (r.asked e .run) batch := by
  have hcall : r.asked e .run = (r.call e.clock e.program).2.foldl (AsyncEngine.perform clock)
      (withProgram (r.call e.clock e.program).1 e) := rfl
  rw [hcall]
  unfold call
  by_cases hbegan : e.program.began.isSome
  · rw [if_pos hbegan]
    exact K
  · rw [if_neg hbegan]
    have hnone : e.program.began = none := by simpa using hbegan
    have hstaged := hnone ▸ K.staged
    have hheard := hnone ▸ K.heard
    obtain ⟨hanswers, houter⟩ := hheard.before rfl
    have hstarted := (hstaged.before rfl).1
    have hbooked : (e.program.ledger.map fun l => { l with itemsTotal := l.itemsTotal + r.size }).map
        unstamped = r.ledger.map fun l =>
          unstamped (r.added { e.program with began := some e.clock } l) := by
      have hold := K.booked
      cases hl : e.program.ledger <;> cases hl' : r.ledger <;>
        simp_all [unstamped, added]
    have hcalled := hstaged.call
    by_cases hzero : r.size = 0
    · rw [if_pos hzero]
      have hnil : (List.finRange r.size).map (Callback.begin (κ := κ)) = [] := by
        rw [List.map_eq_nil_iff, ← List.length_eq_zero_iff, List.length_finRange, hzero]
      rw [hnil, List.append_nil] at hcalled
      have hfin : List.finRange r.size = [] :=
        List.length_eq_zero_iff.mp (List.length_finRange.trans hzero)
      have hline : line e.program.started (queued e batch) e.scheduled = List.finRange r.size := by
        have honce := hcalled.once (by simp)
        rw [hfin] at honce ⊢
        exact honce.eq_nil
      refine finishing _ K.guarded hcalled (fun _ _ => hline) (hheard.call_nil hzero) ?_ ?_
      · exact (map_unstamped _ _).trans hbooked
      · refine Ended.give _ rfl (fun w hw => ?_) fun h => absurd houter (K.ended.closing h).1
        obtain ⟨l', hl', rfl⟩ := Option.map_eq_some_iff.mp hw
        obtain ⟨l, _, rfl⟩ := Option.map_eq_some_iff.mp hl'
        refine ⟨fun a ha => ?_, .inr ⟨hzero, rfl⟩⟩
        rw [show _ = ([] : List _) from hanswers] at ha
        cases ha
    · rw [if_neg hzero]
      have hsoon := soon (F := F)
        { e.program with
          began := some e.clock
          ledger := e.program.ledger.map fun l => { l with itemsTotal := l.itemsTotal + r.size } }
        ((List.finRange r.size).map Callback.begin) K.guarded hcalled (fun _ _ => ?_)
        ((hheard.call hzero).push fun c hc => ?_) hbooked
        ((K.ended.call houter (some e.clock) _).push ?_) K.stops
      · rw [List.map_map] at hsoon
        exact hsoon
      · obtain ⟨_, hq, ht⟩ := hstaged.before rfl
        rw [hstarted, line_call hq ht]
      · obtain ⟨k, _, rfl⟩ := List.mem_map.mp hc
        rfl
      · simp

/-- An execution ends; one that did not start, or has ended, does not. -/
theorem askAnswer (K : r.Kept F e batch) (k : Fin r.size) (v : Except ε ρ) :
    r.Kept F (r.asked e (.answer k v)) batch := by
  have hcall : r.asked e (.answer k v)
      = (r.answered e.clock k v e.program).2.foldl (AsyncEngine.perform clock)
          (withProgram (r.answered e.clock k v e.program).1 e) := rfl
  rw [hcall]
  unfold answered
  by_cases hopen : k ∈ e.program.started.map Prod.fst ∧ k ∉ e.program.answers.map Prod.fst
  · rw [if_pos hopen]
    obtain ⟨hstarted, hnew⟩ := hopen
    have haside : (Callback.gathered k : Callback r.size κ).Aside := ⟨rfl, rfl, rfl⟩
    have hbegan : e.program.began ≠ none := by
      intro hnone
      rw [(K.staged.before hnone).1] at hstarted
      cases hstarted
    have hclosed : ∀ values, e.program.outer ≠ some (.ok values) := fun values hv =>
      hnew (K.heard.all_answered hv k)
    refine soon _ [.gathered k] K.guarded (K.staged.push haside) (fun hF hb => ?_)
      (K.heard.answer hbegan hstarted hnew v) ?_ ?_ K.stops
    · exact (line_push haside).trans (K.inOrder hF hb)
    · have hold := K.booked
      cases v <;> cases hl : e.program.ledger <;> cases hl' : r.ledger <;>
        simp_all [unstamped, added, row, Ledger.add]
    · have hended := K.ended.answer hclosed (k, v, e.clock)
      cases v with
      | ok w =>
          -- a row says nothing of the wallclock
          rw [Option.map_map]
          exact hended.push (by simp)
      | error err => exact hended.push (by simp)
  · rw [if_neg hopen]
    exact K

/-- **One request of the items' code.** -/
theorem asked (K : r.Kept F e batch) (a : Ask r.size κ ε ρ) : r.Kept F (r.asked e a) batch := by
  cases a with
  | callSoon x => exact K.askSoon x
  | callAt w x => exact K.askAt w x
  | callLater d x => exact K.askAt (clock.plus e.clock d) x
  | cancel id => exact K.askCancel id
  | run => exact K.askRun
  | answer k v => exact K.askAnswer k v

theorem allAsked (as : List (Ask r.size κ ε ρ)) : ∀ {e : r.Loop}, r.Kept F e batch →
    r.Kept F (as.foldl r.asked e) batch := by
  induction as with
  | nil => exact fun K => K
  | cons a as ih => exact fun K => ih (K.asked a)

/-- The run moves on to `p` and asks for nothing. -/
theorem still (p : RunState r.size σ ε ρ)
    (G : Guarded p.own e.nextId e.cancelled (e.waiting batch))
    (S : Staged r.release p.began p.started e.clock (queued e batch) e.scheduled)
    (L : F → p.began ≠ none →
      line p.started (queued e batch) e.scheduled = List.finRange r.size)
    (H : Heard p.began p.started p.answers p.finished p.outer e.clock (queued e batch))
    (B : p.ledger.map unstamped = r.ledger.map fun l => unstamped (r.added p l))
    (N : Ended ((ordered r.items).map WorkItem.id) p.began p.answers p.outer p.returned
      (p.ledger.map Ledger.wallclock) e.done e.clock (queued e batch))
    (hstops : Entry.stop ∈ batch ++ e.ready ∨ e.stopping = true → e.done = true) :
    r.Kept F (withProgram p e) batch := ⟨G, S, L, H, B, N, hstops⟩

/-- The handles that wait after an entry was taken from the batch. -/
theorem guarded_pop {h : Handle ℚ (Callback r.size κ)} (K : r.Kept F e (.handle h :: batch)) :
    Guarded e.program.own e.nextId e.cancelled (e.waiting batch) :=
  K.guarded.sub fun _ hh => List.mem_cons_of_mem _ hh

theorem stops_pop {h : Handle ℚ (Callback r.size κ)} (K : r.Kept F e (.handle h :: batch)) :
    Entry.stop ∈ batch ++ e.ready ∨ e.stopping = true → e.done = true := fun hs =>
  K.stops (hs.imp_left (List.mem_cons_of_mem _))

/-- A callback of the items' code is taken from the batch. -/
theorem pop {h : Handle ℚ (Callback r.size κ)} (K : r.Kept F e (.handle h :: batch)) {x : κ}
    (hx : h.callback = .other x) : r.Kept F e batch := by
  have haside : h.callback.Aside := by
    rw [hx]
    exact ⟨rfl, rfl, rfl⟩
  refine ⟨K.guarded_pop, K.staged.pop haside, fun hF hb => ?_, K.heard.pop (by rw [hx]; rfl),
    K.booked, K.ended.pop (by rw [hx]; simp), K.stops_pop⟩
  exact (line_pop haside).symm.trans (K.inOrder hF hb)

/-- An item is executed. -/
theorem executed {h : Handle ℚ (Callback r.size κ)} (K : r.Kept F e (.handle h :: batch))
    (k : Fin r.size)
    (S : Staged r.release e.program.began (e.program.started ++ [(k, e.clock)]) e.clock
      (queued e batch) e.scheduled)
    (L : F → e.program.began ≠ none →
      line (e.program.started ++ [(k, e.clock)]) (queued e batch) e.scheduled
        = List.finRange r.size)
    (hc : h.callback = .begin k ∨ h.callback = .wake k) :
    r.Kept F ((r.execute e.clock e.nextId k e.program).2.foldl (AsyncEngine.perform clock)
      (withProgram (r.execute e.clock e.nextId k e.program).1 e)) batch := by
  have hfree : h.callback.task .gathered = none ∧ h.callback ≠ .resume := by
    rcases hc with hc | hc <;> rw [hc] <;> exact ⟨rfl, by simp⟩
  let p : RunState r.size σ ε ρ :=
    { e.program with
      code := (r.dispatch.execute e.program.code e.clock e.nextId k).1
      started := e.program.started ++ [(k, e.clock)] }
  have hbase : r.Kept F (withProgram p e) batch :=
    still p K.guarded_pop S L ((K.heard.pop hfree.1).start k) K.booked (K.ended.pop hfree.2)
      K.stops_pop
  have heq := r.asks_eq (r.dispatch.execute e.program.code e.clock e.nextId k).2 (withProgram p e)
  rw [show (r.execute e.clock e.nextId k e.program) = r.asks e.clock e.nextId p
    (r.dispatch.execute e.program.code e.clock e.nextId k).2 from rfl]
  refine cast ?_ (hbase.allAsked (r.dispatch.execute e.program.code e.clock e.nextId k).2)
  rw [← heq]
  rfl

/-- The first step of a task. -/
theorem began {h : Handle ℚ (Callback r.size κ)} (K : r.Kept F e (.handle h :: batch))
    (hsorted : e.scheduled.Pairwise Timer.Before) (hseq : ∀ t ∈ e.scheduled, t.seq < e.timerSeq)
    {k : Fin r.size} (hc : h.callback = .begin k) :
    r.Kept F ((r.begin e.clock e.nextId k e.program).2.foldl (AsyncEngine.perform clock)
      (withProgram (r.begin e.clock e.nextId k e.program).1 e)) batch := by
  have hstaged : Staged r.release e.program.began e.program.started e.clock
      (.begin k :: queued e batch) e.scheduled := hc ▸ K.staged
  have hmono : ∀ i j : Fin r.size, i < j → r.release i ≤ r.release j := fun _ _ => r.release_mono
  have hline : F → e.program.began ≠ none →
      line e.program.started (.begin k :: queued e batch) e.scheduled = List.finRange r.size :=
    hc ▸ K.inOrder
  unfold begin
  by_cases hlate : 0 < r.release k - e.clock
  · rw [if_pos hlate]
    let w := e.clock + ((r.release k - e.clock).toNNRat : ℚ)
    let t : Timer ℚ (Callback r.size κ) :=
      ⟨w, e.timerSeq, ⟨e.nextId, .alarm k, some w, e.clock⟩⟩
    have hwhen : t.when_ = r.release k := by
      show e.clock + _ = _
      rw [Rat.coe_toNNRat _ hlate.le, add_sub_cancel]
    have hfree : h.callback.task .gathered = none ∧ h.callback ≠ .resume := by
      rw [hc]
      exact ⟨rfl, by simp⟩
    refine ⟨?_, hstaged.sleep (sub_pos.mp hlate) (t := t) rfl hwhen, fun hF hb => ?_,
      K.heard.pop hfree.1, K.booked, K.ended.pop hfree.2, K.stops_pop⟩
    · refine K.guarded_pop.make (Nat.le_succ _) fun h' hh => ?_
      refine (waiting_callAt _ batch _ _ hh).imp_left fun heq => ?_
      subst heq
      exact ⟨le_refl _, Nat.lt_succ_self _⟩
    · exact hstaged.line_start_sleep hmono (t := t) rfl hwhen hsorted hseq (hline hF hb)
  · rw [if_neg hlate]
    have hdue : r.release k ≤ e.clock := by
      rw [sub_pos, not_lt] at hlate
      exact hlate
    exact K.executed k (hstaged.start_begin hdue)
      (fun hF hb => hstaged.line_start_begin hmono hdue (hline hF hb)) (.inl hc)

/-- The gather is told of a task. -/
theorem gathered {h : Handle ℚ (Callback r.size κ)} (K : r.Kept F e (.handle h :: batch))
    {k : Fin r.size} (hc : h.callback = .gathered k) :
    r.Kept F ((r.gathered k e.program).2.foldl (AsyncEngine.perform clock)
      (withProgram (r.gathered k e.program).1 e)) batch := by
  have haside : h.callback.Aside := by
    rw [hc]
    exact ⟨rfl, rfl, rfl⟩
  have hheard : Heard e.program.began e.program.started e.program.answers e.program.finished
      e.program.outer e.clock (.gathered k :: queued e batch) := hc ▸ K.heard
  have hstaged := K.staged.pop haside
  have hended := K.ended.pop (c := h.callback) (by rw [hc]; simp)
  have hline : F → e.program.began ≠ none →
      line e.program.started (queued e batch) e.scheduled = List.finRange r.size := fun hF hb =>
    (line_pop haside).symm.trans (K.inOrder hF hb)
  obtain ⟨⟨j, v, now⟩, ha, hj, hnow⟩ := hheard.told k List.mem_cons_self
  obtain rfl : k = j := hj.symm
  have hresult : result e.program.answers k = some v := by
    unfold result
    rw [find_answer hheard.apart ha]
    rfl
  have hbegan : e.program.began ≠ none := by
    intro hnone
    rw [(hheard.before hnone).1] at ha
    cases ha
  cases houter : e.program.outer with
  | some given =>
      rw [gathered_given k houter]
      refine still _ K.guarded_pop hstaged hline ?_ K.booked hended K.stops_pop
      refine hheard.tell (fun h => absurd h hbegan) (fun _ h => ?_) hheard.failed hheard.gave
      rw [houter] at h
      cases h
  | none =>
      have hwaiting := hheard.waiting hbegan houter
      have hpush : Staged r.release e.program.began e.program.started e.clock
          (queued e batch ++ [.resume]) e.scheduled := hstaged.push ⟨rfl, rfl, rfl⟩
      have hpushed : F → e.program.began ≠ none →
          line e.program.started (queued e batch ++ [.resume]) e.scheduled
            = List.finRange r.size := fun hF hb =>
        (line_push ⟨rfl, rfl, rfl⟩).trans (hline hF hb)
      cases v with
      | error err =>
          rw [gathered_error k houter hresult]
          refine soon _ [.resume] K.guarded_pop hpush hpushed ?_ K.booked
            (hended.gather houter _ ⟨_, ha, hnow⟩) K.stops_pop
          refine (hheard.tell (fun h => absurd h hbegan) (fun _ h => ?_) (fun err' h => ?_)
            fun values h => ?_).push fun c hc => List.mem_singleton.mp hc ▸ rfl
          · cases h
          · injection h with h
            injection h with h
            exact ⟨k, now, h ▸ ha⟩
          · injection h with h
            cases h
      | ok v =>
          have hok : ∀ j ∈ e.program.finished ++ [k], ∃ w t, (j, .ok w, t) ∈ e.program.answers := by
            intro j hj
            rcases List.mem_append.mp hj with hj | hj
            · exact hwaiting.2 j hj
            · obtain rfl := List.mem_singleton.mp hj
              exact ⟨v, now, ha⟩
          by_cases hall : (e.program.finished ++ [k]).length = r.size
          · rw [gathered_all k houter hresult hall]
            refine soon _ [.resume] K.guarded_pop hpush hpushed ?_ K.booked
              (hended.gather houter _ ⟨_, ha, hnow⟩) K.stops_pop
            refine (hheard.tell (fun h => absurd h hbegan) (fun _ h => ?_) (fun err' h => ?_)
              fun values h => ?_).push fun c hc => List.mem_singleton.mp hc ▸ rfl
            · cases h
            · injection h with h
              cases h
            · injection h with h
              injection h with h
              subst h
              exact returned_all hheard.apart fun j =>
                hok j (mem_of_length hheard.told_once hall j)
          · rw [gathered_ok k houter hresult hall]
            refine still _ K.guarded_pop hstaged hline ?_ K.booked hended K.stops_pop
            refine hheard.tell (fun h => absurd h hbegan) (fun _ _ => ⟨?_, hok⟩) hheard.failed
              hheard.gave
            have hlen := hwaiting.1
            rw [List.length_append, List.length_singleton] at hall ⊢
            omega

/-- The caller of `run` goes on. -/
theorem resumed {h : Handle ℚ (Callback r.size κ)} (K : r.Kept F e (.handle h :: batch))
    (hc : h.callback = .resume) :
    r.Kept F ((r.resume e.clock e.program).2.foldl (AsyncEngine.perform clock)
      (withProgram (r.resume e.clock e.program).1 e)) batch := by
  have haside : h.callback.Aside := by
    rw [hc]
    exact ⟨rfl, rfl, rfl⟩
  have hended : Ended ((ordered r.items).map WorkItem.id) e.program.began e.program.answers
      e.program.outer e.program.returned (e.program.ledger.map Ledger.wallclock) e.done e.clock
      (.resume :: queued e batch) := hc ▸ K.ended
  have hheard := K.heard.pop (c := h.callback) (by rw [hc]; rfl)
  have hstaged := K.staged.pop haside
  have hline : F → e.program.began ≠ none →
      line e.program.started (queued e batch) e.scheduled = List.finRange r.size := fun hF hb =>
    (line_pop haside).symm.trans (K.inOrder hF hb)
  obtain ⟨hdone, hlast⟩ := hended.closing List.mem_cons_self
  unfold resume
  cases houter : e.program.outer with
  | none => exact absurd houter hdone
  | some given =>
      have hgiven := houter ▸ hheard
      rw [houter] at hended hlast
      cases given with
      | error err =>
          exact finishing _ K.guarded_pop hstaged hline hgiven K.booked
            (hended.raise (hgiven.failed err rfl))
      | ok values =>
          have hstamp : ∀ w, (e.program.ledger.map fun l => { l with wallclock := e.clock }).map
              Ledger.wallclock = some w → Closes e.program.began e.program.answers w := by
            intro w hw
            obtain ⟨l', hl', rfl⟩ := Option.map_eq_some_iff.mp hw
            obtain ⟨l, _, rfl⟩ := Option.map_eq_some_iff.mp hl'
            exact ⟨hheard.past, .inl (hlast values rfl)⟩
          exact finishing _ K.guarded_pop hstaged hline hheard
            ((map_unstamped _ _).trans K.booked)
            (Ended.give (queued e batch) houter hstamp fun _ => hlast values rfl)

/-- The alarm of a task's sleep. -/
theorem alarmed {h : Handle ℚ (Callback r.size κ)} (K : r.Kept F e (.handle h :: batch))
    {k : Fin r.size} (hc : h.callback = .alarm k) :
    r.Kept F ([Action.callSoon (.wake k)].foldl (AsyncEngine.perform clock)
      (withProgram e.program e)) batch := by
  have hstaged : Staged r.release e.program.began e.program.started e.clock
      (.alarm k :: queued e batch) e.scheduled := hc ▸ K.staged
  have hline : F → e.program.began ≠ none →
      line e.program.started (.alarm k :: queued e batch) e.scheduled = List.finRange r.size :=
    hc ▸ K.inOrder
  have hfree : h.callback.task .gathered = none ∧ h.callback ≠ .resume := by
    rw [hc]
    exact ⟨rfl, by simp⟩
  refine soon e.program [.wake k] K.guarded_pop hstaged.alarm (fun hF hb => ?_)
    ((K.heard.pop hfree.1).push fun c hc => List.mem_singleton.mp hc ▸ rfl) K.booked
    ((K.ended.pop hfree.2).push (by simp)) K.stops_pop
  exact line_alarm.trans (hline hF hb)

/-- A callback of the items' code. -/
theorem others {h : Handle ℚ (Callback r.size κ)} (K : r.Kept F e (.handle h :: batch)) {x : κ}
    (hc : h.callback = .other x) :
    r.Kept F ((r.step e.program e.clock e.nextId (.other x)).2.foldl (AsyncEngine.perform clock)
      (withProgram (r.step e.program e.clock e.nextId (.other x)).1 e)) batch := by
  let d := r.dispatch.other e.program.code e.clock e.nextId x
  let p : RunState r.size σ ε ρ := { e.program with code := d.1 }
  have K' := K.pop hc
  have hbase : r.Kept F (withProgram p e) batch :=
    still p K'.guarded K'.staged K'.inOrder K'.heard K'.booked K'.ended K'.stops
  have heq := r.asks_eq d.2 (withProgram p e)
  rw [show r.step e.program e.clock e.nextId (.other x) = r.asks e.clock e.nextId p d.2 from rfl]
  refine cast ?_ (hbase.allAsked d.2)
  rw [← heq]
  rfl

/-- **One entry of the batch**: its callback, or that it is cancelled. -/
theorem runEntry {x : Entry ℚ (Callback r.size κ)} (K : r.Kept F e (x :: batch))
    (S : AsyncEngine.Sound e (x :: batch)) :
    r.Kept F (e.runEntry clock ⟨r.step⟩ x) batch := by
  cases x with
  | stop =>
      have hdone := K.stops (.inl List.mem_cons_self)
      exact ⟨K.guarded, K.staged, K.inOrder, K.heard, K.booked, K.ended, fun _ => hdone⟩
  | handle h =>
      by_cases hcancelled : h.id ∈ e.cancelled
      · rw [AsyncEngine.runEntry_skip _ _ hcancelled]
        -- only the items' code cancels, and only what it made
        obtain ⟨x, hx⟩ := (K.guarded.waits h List.mem_cons_self).2
          (K.guarded.flagged _ hcancelled)
        exact K.pop hx
      · let e' : r.Loop := { e with log := .ran h e.clock :: e.log }
        have K' : r.Kept F e' (.handle h :: batch) :=
          ⟨K.guarded, K.staged, K.inOrder, K.heard, K.booked, K.ended, K.stops⟩
        rw [AsyncEngine.runEntry_run _ _ hcancelled]
        show r.Kept F ((r.step e'.program e'.clock e'.nextId h.callback).2.foldl
          (AsyncEngine.perform clock)
          (withProgram (r.step e'.program e'.clock e'.nextId h.callback).1 e')) batch
        cases hc : h.callback with
        | begin k => exact K'.began S.sorted S.numbered hc
        | alarm k => exact K'.alarmed hc
        | wake k =>
            have hstaged : Staged r.release e.program.began e.program.started e.clock
                (.wake k :: queued e batch) e.scheduled := hc ▸ K.staged
            have hline : F → e.program.began ≠ none →
                line e.program.started (.wake k :: queued e batch) e.scheduled
                  = List.finRange r.size := hc ▸ K.inOrder
            exact K'.executed k hstaged.start_wake
              (fun hF hb => (line_wake _).trans (hline hF hb)) (.inr hc)
        | gathered k => exact K'.gathered hc
        | resume => exact K'.resumed hc
        | other x => exact K'.others hc

theorem drain (batch : List (Entry ℚ (Callback r.size κ))) : ∀ {e : r.Loop}, r.Kept F e batch →
    AsyncEngine.Sound e batch →
    r.Kept F (batch.foldl (AsyncEngine.runEntry clock ⟨r.step⟩) e) [] := by
  induction batch with
  | nil => exact fun K _ => K
  | cons x batch ih => exact fun K S => ih (K.runEntry S) (S.runEntry clock ⟨r.step⟩)

/-- Only handles of the items' code are cancelled. -/
theorem dropCancelled (K : r.Kept F e []) : r.Kept F e.dropCancelled [] := by
  have hother : ∀ t ∈ e.scheduled, decide (t.handle.id ∈ e.cancelled) = true →
      t.handle.callback.Aside := by
    intro t ht hc
    have hwait : t.handle ∈ e.waiting [] := List.mem_append_right _ (List.mem_map_of_mem ht)
    obtain ⟨x, hx⟩ := (K.guarded.waits _ hwait).2 (K.guarded.flagged _ (of_decide_eq_true hc))
    rw [hx]
    exact ⟨rfl, rfl, rfl⟩
  refine ⟨K.guarded.sub fun h hh => ?_, K.staged.dropWhile hother, fun hF hb => ?_, K.heard,
    K.booked, K.ended, K.stops⟩
  · unfold AsyncEngine.waiting at hh ⊢
    rcases List.mem_append.mp hh with hh | hh
    · exact List.mem_append_left _ hh
    · exact List.mem_append_right _ (((List.dropWhile_sublist _).map _).subset hh)
  · exact (line_dropWhile fun t ht hc => (hother t ht hc).2.1).trans (K.inOrder hF hb)

/-- With nothing ready, the clock moves on to the first timer. -/
theorem jump (K : r.Kept F e []) (hsorted : e.scheduled.Pairwise Timer.Before)
    (hready : e.ready = []) {t : Timer ℚ (Callback r.size κ)}
    {rest : List (Timer ℚ (Callback r.size κ))} (hs : e.scheduled = t :: rest)
    (hlate : e.clock < t.when_) (log : List (Event ℚ (Callback r.size κ))) :
    r.Kept F { e with clock := t.when_, log := log } [] := by
  have hempty : queued e [] = [] := by
    unfold queued
    rw [hready]
    rfl
  have hfirst : ∀ u ∈ e.scheduled, t.when_ ≤ u.when_ := by
    intro u hu
    rw [hs] at hu hsorted
    rcases List.mem_cons.mp hu with rfl | hu
    · exact le_refl _
    · rcases (List.pairwise_cons.mp hsorted).1 u hu with h | ⟨h, _⟩
      · exact h.le
      · exact h.le
  have hqueue : queued { e with clock := t.when_, log := log } [] = [] := hempty
  have hstaged := K.staged
  have hheard := K.heard
  have hended := K.ended
  rw [hempty] at hstaged hheard hended
  refine ⟨K.guarded, ?_, K.inOrder, ?_, K.booked, ?_, K.stops⟩
  · rw [hqueue]
    exact hstaged.jump hlate.le hfirst
  · rw [hqueue]
    exact hheard.jump hlate.le
  · rw [hqueue]
    exact hended.jump _

/-- What is due becomes ready. -/
theorem moveDue (K : r.Kept F e []) : r.Kept F e.moveDue [] := by
  let due := e.scheduled.takeWhile fun t => t.when_ ≤ e.clock
  have hsplit : due ++ e.moveDue.scheduled = e.scheduled := List.takeWhile_append_dropWhile
  have hqueue : queued e.moveDue [] = queued e [] ++ timed due := by
    have hcall := queued_ready e [] (due.map Timer.handle) e.nextId e.log
    rw [List.map_map, List.map_map] at hcall
    exact hcall
  have hdue : ∀ t ∈ due, t.when_ ≤ e.clock := fun t ht =>
    of_decide_eq_true (List.mem_takeWhile_imp (p := fun t : Timer ℚ (Callback r.size κ) =>
      decide (t.when_ ≤ e.clock)) ht)
  have hstaged := K.staged
  rw [← hsplit] at hstaged
  have hfree : ∀ c ∈ timed due, c.task .gathered = none ∧ c ≠ .resume := by
    intro c hc
    obtain ⟨t, ht, rfl⟩ := List.mem_map.mp hc
    have hin : t ∈ e.scheduled := (List.takeWhile_sublist _).subset ht
    rcases K.staged.scheduled t hin with ⟨_, h⟩ | ⟨_, h⟩ <;> rw [h] <;> exact ⟨rfl, by simp⟩
  refine ⟨?_, hqueue ▸ hstaged.due hdue, fun hF hb => ?_, ?_, K.booked, ?_, fun h => ?_⟩
  · refine K.guarded.sub fun h hh => ?_
    unfold AsyncEngine.waiting at hh ⊢
    rcases List.mem_append.mp hh with hh | hh
    · rw [mem_handles] at hh
      rcases List.mem_append.mp (show _ ∈ e.ready ++ due.map fun t => Entry.handle t.handle from hh)
        with hin | hin
      · exact List.mem_append_left _ (mem_handles.mpr hin)
      · obtain ⟨t, ht, heq⟩ := List.mem_map.mp hin
        injection heq with heq
        subst heq
        exact List.mem_append_right _
          (List.mem_map_of_mem ((List.takeWhile_sublist _).subset ht))
    · exact List.mem_append_right _ (((List.dropWhile_sublist _).map _).subset hh)
  · rw [hqueue, line_due due fun t ht => hstaged.scheduled t (List.mem_append_left _ ht)]
    exact hsplit ▸ K.inOrder hF hb
  · rw [hqueue]
    exact K.heard.push fun c hc => (hfree c hc).1
  · rw [hqueue]
    exact K.ended.push fun hin => (hfree _ hin).2 rfl
  · refine K.stops (h.imp_left fun hin => ?_)
    simpa [AsyncEngine.moveDue] using hin

/-- The batch of a tick, in the tick's order. -/
theorem reorder {order : List (Entry ℚ (Callback r.size κ)) → List (Entry ℚ (Callback r.size κ))}
    (horder : (order e.ready).Perm e.ready) (hfifo : F → order e.ready = e.ready)
    (K : r.Kept F e []) : r.Kept F { e with ready := [] } (order e.ready) := by
  have hperm : (queued e []).Perm (queued { e with ready := [] } (order e.ready)) := by
    refine List.Perm.map _ (List.Perm.filterMap _ ?_)
    rw [List.append_nil]
    exact horder.symm
  refine ⟨K.guarded.sub fun h hh => ?_, K.staged.perm hperm, fun hF hb => ?_, K.heard.perm hperm,
    K.booked, K.ended.queue_of hperm.mem_iff.symm, fun h => ?_⟩
  · unfold AsyncEngine.waiting at hh ⊢
    rcases List.mem_append.mp hh with hh | hh
    · rw [mem_handles, List.append_nil] at hh
      exact List.mem_append_left _ (mem_handles.mpr (horder.mem_iff.mp hh))
    · exact List.mem_append_right _ hh
  · rw [hfifo hF]
    have hsame : queued { e with ready := [] } e.ready = queued e [] := by
      unfold queued
      rw [List.append_nil]
      rfl
    exact hsame ▸ K.inOrder hF hb
  · refine K.stops (h.imp_left fun hin => ?_)
    rw [List.append_nil] at hin
    exact horder.mem_iff.mp hin

/-- **One tick that runs.** -/
theorem runOnce {order : List (Entry ℚ (Callback r.size κ)) → List (Entry ℚ (Callback r.size κ))}
    (horder : ∀ l, (order l).Perm l) (hfifo : F → ∀ l, order l = l) (K : r.Kept F e [])
    (S : AsyncEngine.Sound e []) {e' : r.Loop} (hrun : e.runOnce clock ⟨r.step⟩ order = some e') :
    r.Kept F e' [] := by
  unfold AsyncEngine.runOnce at hrun
  have hdrain : ∀ {d : r.Loop}, r.Kept F d [] → AsyncEngine.Sound d [] →
      r.Kept F (d.moveDue.drain clock ⟨r.step⟩ order) [] := fun {d} K S =>
    (K.moveDue.reorder (horder _) (fun hF => hfifo hF _)).drain _ (S.moveDue.reorder (horder _))
  rcases AsyncEngine.advance_cases e.dropCancelled with
    ⟨_, _, _, hadv⟩ | ⟨hadv, _⟩ | ⟨hready, t, rest, hs, hlate, hadv⟩
  · rw [hadv] at hrun
    cases hrun
  · rw [hadv] at hrun
    injection hrun with hrun
    subst hrun
    exact hdrain K.dropCancelled S.dropCancelled
  · rw [hadv] at hrun
    injection hrun with hrun
    subst hrun
    have hlive : t.handle.id ∉ e.cancelled := by
      have hhead := List.head_dropWhile_not (l := e.scheduled)
        (fun t : Timer ℚ (Callback r.size κ) => decide (t.handle.id ∈ e.cancelled))
        (by rw [show e.scheduled.dropWhile _ = t :: rest from hs]; simp)
      simp only [show e.scheduled.dropWhile _ = t :: rest from hs, List.head_cons] at hhead
      exact of_decide_eq_false hhead
    exact hdrain (K.dropCancelled.jump S.dropCancelled.sorted hready hs hlate _)
      (S.dropCancelled.jump hready hs hlate hlive)

end Kept

/-! ## §3. Every run. -/

variable (code : σ) (main : κ) (shuffle : Shuffle ℚ (Callback r.size κ))

theorem kept_initial (F : Prop) : r.Kept F (r.drive code main shuffle).initial [] := by
  let e : r.Loop := ⟨0, [], [], [], 0, 0, false, false, (r.drive code main shuffle).state, []⟩
  have haside : (Callback.other main : Callback r.size κ).Aside := ⟨rfl, rfl, rfl⟩
  have hstaged : Staged r.release e.program.began e.program.started e.clock (queued e [])
      e.scheduled := by
    refine ⟨fun _ => ⟨rfl, ?_, ?_⟩, ?_, ?_, ?_, ?_, ?_, ?_, ?_⟩
    · exact fun c hc => by cases hc
    · exact fun c hc => by cases hc
    · exact fun t₀ h => by cases h
    · exact fun h => absurd rfl h
    · exact fun k hk => by cases hk
    · exact fun k hk => by rcases hk with hk | hk <;> cases hk
    · exact fun t ht => by cases ht
    · exact fun t ht => by cases ht
    · exact fun x hx => by cases hx
  have hheard : Heard e.program.began e.program.started e.program.answers e.program.finished
      e.program.outer e.clock (queued e []) := by
    refine ⟨fun _ => ⟨rfl, rfl⟩, ?_, ?_, ?_, List.nodup_nil, List.Perm.refl _, ?_, ?_, ?_, ?_⟩
    · exact fun x hx => by cases hx
    · exact fun a ha => by cases ha
    · exact fun a ha => by cases ha
    · exact fun k hk => by cases hk
    · exact fun h => absurd rfl h
    · exact fun err h => by cases h
    · exact fun values h => by cases h
  have hended : Ended ((ordered r.items).map WorkItem.id) e.program.began e.program.answers
      e.program.outer e.program.returned (e.program.ledger.map Ledger.wallclock) e.done e.clock
      (queued e []) := by
    refine ⟨fun h => absurd rfl h, ?_, ?_, ?_, ?_⟩
    · exact fun h => by cases h
    · exact ⟨fun h => (by cases h), fun h => absurd rfl h⟩
    · exact fun err h => by cases h
    · exact fun d h => by cases h
  refine Kept.soon (e := e) e.program [.other main] ⟨?_, ?_, ?_⟩ (hstaged.push haside)
    (fun _ h => absurd rfl h) (hheard.push fun c hc => List.mem_singleton.mp hc ▸ rfl) ?_
    (hended.push (by simp)) ?_
  · exact fun id hid => by cases hid
  · exact fun id hid => by cases hid
  · exact fun h hh => by cases hh
  · show r.ledger.map unstamped = _
    cases r.ledger with
    | none => rfl
    | some l => simp [unstamped, added, e, drive]
  · exact fun h => by rcases h with h | h <;> cases h

/-- **The run lemma**: what holds after every tick. -/
theorem kept {F : Prop} (hfifo : F → ∀ n l, shuffle.batch n l = l) (n : ℕ) :
    r.Kept F ((r.drive code main shuffle).after n) [] := by
  induction n with
  | zero => exact r.kept_initial code main shuffle F
  | succ n ih =>
      have hS := ((r.drive code main shuffle).sound n).1
      unfold EngineRun.after at ih hS ⊢
      show r.Kept F ((r.drive code main shuffle).tick n _).engine []
      cases hst : (r.drive code main shuffle).status n with
      | running e =>
          rw [hst] at ih hS
          rcases (r.drive code main shuffle).tick_cases n e with ⟨_, htick⟩ | ⟨e', hrun, hend⟩
          · rw [htick]
            exact ih
          · have hkept : r.Kept F e' [] :=
              Kept.runOnce (shuffle.perm n) (fun hF => hfifo hF n) ih hS hrun
            rcases hend with ⟨_, htick⟩ | ⟨_, htick⟩ <;> rw [htick] <;> exact hkept
      | stopped e =>
          rw [hst] at ih
          exact ih
      | deadlocked e =>
          rw [hst] at ih
          exact ih

/-! ## §4. When the items start. -/

/-- What is neither executed nor asleep is ready. -/
theorem started_or_asleep {F : Prop} {e : r.Loop} (K : r.Kept F e [])
    (hbegan : e.program.began ≠ none) (hready : e.ready = []) (k : Fin r.size) :
    k ∈ e.program.started.map Prod.fst ∨
      ∃ t ∈ e.scheduled, t.handle.callback = .alarm k := by
  have hempty : queued e [] = [] := by
    unfold queued
    rw [hready]
    rfl
  have hin : k ∈ line e.program.started (queued e []) e.scheduled :=
    (K.staged.once hbegan).mem_iff.mpr (List.mem_finRange k)
  rw [hempty] at hin
  unfold line at hin
  simp only [tasks_nil, List.append_nil] at hin
  rcases List.mem_append.mp hin with hin | hin
  · exact .inl hin
  · obtain ⟨c, hc, hck⟩ := mem_tasks.mp hin
    obtain ⟨t, ht, rfl⟩ := List.mem_map.mp hc
    refine .inr ⟨t, ht, ?_⟩
    rcases K.staged.scheduled t ht with ⟨j, h⟩ | ⟨x, h⟩
    · rw [h] at hck ⊢
      injection hck with hck
      rw [hck]
    · rw [h] at hck
      cases hck

/-- When the clock moves on, what has not started is not released yet. -/
theorem asleep_of_advance {F : Prop} {e e' : r.Loop} (K : r.Kept F e [])
    (S : AsyncEngine.Sound e [])
    {order : List (Entry ℚ (Callback r.size κ)) → List (Entry ℚ (Callback r.size κ))}
    (hrun : e.runOnce clock ⟨r.step⟩ order = some e') (hlt : e.clock < e'.clock)
    (hbegan : e.program.began ≠ none) (k : Fin r.size) :
    k ∈ e.program.started.map Prod.fst ∨ e.clock < r.release k := by
  unfold AsyncEngine.runOnce at hrun
  have hclock : ∀ d : r.Loop, (d.moveDue.drain clock ⟨r.step⟩ order).clock = d.clock := fun d =>
    (AsyncEngine.drain_follows clock ⟨r.step⟩ _ _).clock
  rcases AsyncEngine.advance_cases e.dropCancelled with
    ⟨_, _, _, hadv⟩ | ⟨hadv, _⟩ | ⟨hready, t, rest, hs, hlate, hadv⟩
  · rw [hadv] at hrun
    cases hrun
  · rw [hadv] at hrun
    injection hrun with hrun
    rw [← hrun, hclock] at hlt
    exact absurd hlt (lt_irrefl _)
  · refine (r.started_or_asleep K.dropCancelled hbegan hready k).imp_right fun ⟨u, hu, hk⟩ => ?_
    rw [← (K.dropCancelled.staged.sleeps u hu k hk).1]
    have hsorted := S.dropCancelled.sorted
    rw [hs] at hu hsorted
    rcases List.mem_cons.mp hu with rfl | hu
    · exact hlate
    · rcases (List.pairwise_cons.mp hsorted).1 u hu with h | ⟨h, _⟩
      · exact hlate.trans h
      · exact h ▸ hlate

theorem asleep_of_clock {F : Prop} (n : ℕ) (K : r.Kept F ((r.drive code main shuffle).after n) [])
    (hlt : ((r.drive code main shuffle).after n).clock
      < ((r.drive code main shuffle).after (n + 1)).clock)
    (hbegan : ((r.drive code main shuffle).after n).program.began ≠ none) (k : Fin r.size) :
    k ∈ ((r.drive code main shuffle).after n).program.started.map Prod.fst ∨
      ((r.drive code main shuffle).after n).clock < r.release k := by
  have hS := ((r.drive code main shuffle).sound n).1
  unfold EngineRun.after at K hlt hbegan hS ⊢
  change _ < ((r.drive code main shuffle).tick n _).engine.clock at hlt
  cases hst : (r.drive code main shuffle).status n with
  | running e =>
      rw [hst] at K hlt hbegan hS
      rcases (r.drive code main shuffle).tick_cases n e with ⟨_, htick⟩ | ⟨e', hrun, hend⟩
      · rw [htick] at hlt
        exact absurd hlt (lt_irrefl _)
      · refine r.asleep_of_advance K hS hrun ?_ hbegan k
        rcases hend with ⟨_, htick⟩ | ⟨_, htick⟩ <;> rw [htick] at hlt <;> exact hlt
  | stopped e =>
      rw [hst] at hlt
      exact absurd hlt (lt_irrefl _)
  | deadlocked e =>
      rw [hst] at hlt
      exact absurd hlt (lt_irrefl _)

/-- **Items are released in order, on time.**  Under the default order of the loop, over
every run and whatever the items' code does: what has been executed is a beginning of
the items sorted by `(release_time, id)`, each item at its release time or, if that was
past when `run` was called, at that time; and the clock does not move on before every
item that is released was executed. -/
theorem released_in_order (n : ℕ) :
    let run := r.drive code main (fifo ℚ (Callback r.size κ))
    let s := (run.after n).program
    s.began = none ∧ s.started = [] ∨
    ∃ t₀, s.began = some t₀ ∧
      (s.started.map fun x => (r.item x.1, x.2))
        = ((ordered r.items).take s.started.length).map (fun w => (w, max t₀ w.releaseTime)) ∧
      ((run.after n).clock < (run.after (n + 1)).clock → ∀ k,
        k ∈ s.started.map Prod.fst ↔ max t₀ (r.release k) ≤ (run.after n).clock) := by
  intro run s
  have K := r.kept code main (fifo ℚ (Callback r.size κ)) (F := True) (fun _ _ _ => rfl) n
  cases hbegan : s.began with
  | none => exact .inl ⟨rfl, (K.staged.before hbegan).1⟩
  | some t₀ =>
      have hne : s.began ≠ none := by simp [hbegan]
      have htime : ∀ x ∈ s.started, x.2 = max t₀ (r.release x.1) := by
        intro x hx
        obtain ⟨t, ht, hx⟩ := K.staged.on_time x hx
        rw [show s.began = some t from ht] at hbegan
        injection hbegan with hbegan
        exact hbegan ▸ hx
      refine .inr ⟨t₀, rfl, ?_, fun hlt k => ?_⟩
      · have hline := K.inOrder trivial hne
        unfold line at hline
        simp only [List.append_assoc] at hline
        have htake := congrArg (List.take s.started.length) hline
        rw [List.take_left' (List.length_map ..)] at htake
        have hitems : (List.finRange r.size).map r.item = ordered r.items :=
          List.map_get_finRange _
        calc s.started.map (fun x => (r.item x.1, x.2))
            = s.started.map (fun x => (r.item x.1, max t₀ (r.release x.1))) :=
              List.map_congr_left fun x hx => by rw [htime x hx]
          _ = (s.started.map Prod.fst).map (fun k => (r.item k, max t₀ (r.item k).releaseTime)) := by
              rw [List.map_map]
              rfl
          _ = ((ordered r.items).take s.started.length).map
                (fun w => (w, max t₀ w.releaseTime)) := by
              rw [show s.started.map Prod.fst = _ from htake, ← hitems, ← List.map_take,
                List.map_map]
              rfl
      · constructor
        · intro hk
          obtain ⟨x, hx, rfl⟩ := List.mem_map.mp hk
          rw [← htime x hx]
          exact K.heard.started_le x hx
        · intro hdue
          rcases r.asleep_of_clock code main _ n K hlt hne k with hk | hlate
          · exact hk
          · exact absurd (hlate.trans_le ((le_max_right _ _).trans hdue)) (lt_irrefl _)

/-! ## §5. How a run ends. -/

/-- The loop stopped because something stopped it. -/
theorem stopped_stopping (n : ℕ) : ∀ e, (r.drive code main shuffle).status n = .stopped e →
    e.stopping = true := by
  induction n with
  | zero =>
      intro e he
      cases he
  | succ n ih =>
      intro e he
      have htick : (r.drive code main shuffle).tick n _ = .stopped e := he
      cases hst : (r.drive code main shuffle).status n with
      | running d =>
          rw [hst] at htick
          rcases (r.drive code main shuffle).tick_cases n d with
            ⟨_, heq⟩ | ⟨d', _, ⟨hstop, heq⟩ | ⟨_, heq⟩⟩
          · rw [heq] at htick
            cases htick
          · rw [heq] at htick
            injection htick with htick
            exact htick ▸ hstop
          · rw [heq] at htick
            cases htick
      | stopped d =>
          rw [hst] at htick
          exact ih e (hst.trans htick)
      | deadlocked d =>
          rw [hst] at htick
          cases htick

/-- The deadlock error is raised before the awaited future is done. -/
theorem deadlocked_undone (n : ℕ) : ∀ e, (r.drive code main shuffle).status n = .deadlocked e →
    e.done = false := by
  induction n with
  | zero =>
      intro e he
      cases he
  | succ n ih =>
      intro e he
      have htick : (r.drive code main shuffle).tick n _ = .deadlocked e := he
      obtain ⟨hS, hstopping⟩ := (r.drive code main shuffle).sound n
      cases hst : (r.drive code main shuffle).status n with
      | running d =>
          unfold EngineRun.after at hS
          rw [hst] at htick hS
          rcases (r.drive code main shuffle).tick_cases n d with
            ⟨hnone, heq⟩ | ⟨d', _, ⟨_, heq⟩ | ⟨_, heq⟩⟩
          · rw [heq] at htick
            injection htick with htick
            subst htick
            exact (((r.drive code main shuffle).runOnce_eq_none_iff n hS
              (hstopping d hst)).mp hnone).1
          · rw [heq] at htick
            cases htick
          · rw [heq] at htick
            cases htick
      | stopped d =>
          rw [hst] at htick
          cases htick
      | deadlocked d =>
          rw [hst] at htick
          exact ih e (hst.trans htick)

/-- What a run that returned left behind: the results by id, and in the ledger it was
given one row of each item, the number of items and, as the wallclock, the time at
which the last execution ended. -/
structure Complete (s : RunState r.size σ ε ρ) (values : Fin r.size → ρ) (ended : Fin r.size → ℚ)
    (t₀ : ℚ) : Prop where
  began : s.began = some t₀
  once : (s.started.map Prod.fst).Perm (List.finRange r.size)
  on_time : ∀ x ∈ s.started, x.2 = max t₀ (r.release x.1)
  later : ∀ k, max t₀ (r.release k) ≤ ended k
  answers : s.answers.Perm ((List.finRange r.size).map fun k => (k, .ok (values k), ended k))
  returned : s.returned
    = some (.ok (dictOf ((List.finRange r.size).map fun k => ((r.item k).id, values k))))
  ledger : ∀ l, r.ledger = some l → ∃ rows w, s.ledger = some { l with
      rows := l.rows ++ rows, itemsTotal := l.itemsTotal + r.size, wallclock := w } ∧
    rows.Perm ((List.finRange r.size).map fun k => ⟨(r.item k).id, r.release k, ended k⟩) ∧
    (∀ k, ended k ≤ w) ∧ ((∃ k, ended k = w) ∨ r.size = 0 ∧ w = t₀)

/-- The answers, where all executions returned. -/
theorem answers_perm {m : ℕ} {answers : List (Fin m × Except ε ρ × ℚ)}
    (hapart : (answers.map Prod.fst).Nodup) {values : Fin m → ρ} {ended : Fin m → ℚ}
    (hall : ∀ k, (k, .ok (values k), ended k) ∈ answers) :
    answers.Perm ((List.finRange m).map fun k => (k, .ok (values k), ended k)) := by
  have hnodup : ((List.finRange m).map fun k =>
      ((k, .ok (values k), ended k) : Fin m × Except ε ρ × ℚ)).Nodup :=
    (List.nodup_finRange m).map fun i j h => (Prod.mk.injEq .. ▸ h).1
  refine (List.perm_ext_iff_of_nodup hapart.of_map hnodup).mpr fun a => ?_
  constructor
  · intro ha
    have hone := find_answer hapart ha
    have hother := find_answer hapart (hall a.1)
    have hsame := hone.symm.trans hother
    injection hsame with hsame
    exact List.mem_map.mpr ⟨a.1, List.mem_finRange _, hsame.symm⟩
  · intro ha
    obtain ⟨k, _, rfl⟩ := List.mem_map.mp ha
    exact hall k

/-- The state of a run that returned. -/
theorem complete {F : Prop} {e : r.Loop} (K : r.Kept F e []) {d : Dict String ρ}
    (hreturned : e.program.returned = some (.ok d)) :
    ∃ values ended t₀, r.Complete e.program values ended t₀ := by
  obtain ⟨given, houter, hd, hstamp⟩ := K.ended.gave d hreturned
  obtain ⟨values, hgiven, hall⟩ := K.heard.gave given houter
  choose ended hin using hall
  have hbegan : e.program.began ≠ none := by
    intro hnone
    have := (K.heard.before hnone).2
    rw [houter] at this
    cases this
  obtain ⟨t₀, ht₀⟩ := Option.ne_none_iff_exists'.mp hbegan
  have htime : ∀ x ∈ e.program.started, x.2 = max t₀ (r.release x.1) := by
    intro x hx
    obtain ⟨t, ht, hx⟩ := K.staged.on_time x hx
    rw [ht₀] at ht
    injection ht with ht
    exact ht ▸ hx
  have hstarted : ∀ k, ∃ x ∈ e.program.started, x.1 = k ∧ x.2 ≤ ended k := fun k =>
    K.heard.known _ (hin k)
  have hanswers := answers_perm K.heard.apart hin
  refine ⟨values, ended, t₀, ht₀, ?_, htime, fun k => ?_, hanswers, ?_, fun l hl => ?_⟩
  · have hnodup : (line e.program.started (queued e []) e.scheduled).Nodup :=
      (K.staged.once hbegan).nodup_iff.mpr (List.nodup_finRange _)
    have hsub : (e.program.started.map Prod.fst).Sublist
        (line e.program.started (queued e []) e.scheduled) := by
      unfold line
      simp only [List.append_assoc]
      exact List.sublist_append_left _ _
    refine (List.perm_ext_iff_of_nodup (hnodup.sublist hsub) (List.nodup_finRange _)).mpr fun k => ?_
    obtain ⟨x, hx, hk, _⟩ := hstarted k
    exact ⟨fun _ => List.mem_finRange k, fun _ => List.mem_map.mpr ⟨x, hx, hk⟩⟩
  · obtain ⟨x, hx, hk, hle⟩ := hstarted k
    rw [htime x hx, hk] at hle
    exact hle
  · rw [hreturned, hd, hgiven]
    have hids : (ordered r.items).map WorkItem.id
        = (List.finRange r.size).map fun k => (r.item k).id := by
      have hitems : (List.finRange r.size).map r.item = ordered r.items := List.map_get_finRange _
      rw [← hitems, List.map_map]
      rfl
    rw [hids, List.zip_map']
  · have hbooked := K.booked
    rw [hl] at hbooked
    cases hledger : e.program.ledger with
    | none =>
        rw [hledger] at hbooked
        cases hbooked
    | some l' =>
        rw [hledger] at hbooked hstamp
        injection hbooked with hbooked
        obtain ⟨hle, hlast⟩ := hstamp l'.wallclock rfl
        refine ⟨e.program.answers.filterMap r.row, l'.wallclock, ?_, ?_, fun k => hle _ (hin k), ?_⟩
        · unfold unstamped added at hbooked
          rw [ht₀] at hbooked
          obtain ⟨rows, edges, bytes, origin, w, total, origins⟩ := l'
          injection hbooked with hrows hedges hbytes horigin _ htotal horigins
          subst hrows hedges hbytes horigin htotal horigins
          rfl
        · have hrows := hanswers.filterMap r.row
          rw [List.filterMap_map] at hrows
          refine hrows.trans (List.Perm.of_eq ?_)
          exact congrFun List.filterMap_eq_map _
        · refine hlast.imp (fun ⟨a, ha, hw⟩ => ?_) fun ⟨hzero, hw⟩ => ⟨hzero, ?_⟩
          · obtain ⟨k, _, rfl⟩ := List.mem_map.mp (hanswers.mem_iff.mp ha)
            exact ⟨k, hw⟩
          · rw [ht₀] at hw
            injection hw with hw
            exact hw.symm

/-- **How a run ends.**  Over every run, in any order of the loop and whatever the items'
code does: where the loop stops, `run` raised an exception an execution raised, or it
returned and is complete; and where the run deadlocks, `run` was never called or an
execution that started has not ended. -/
theorem run_ends (n : ℕ) :
    (∀ e, (r.drive code main shuffle).status n = .stopped e →
      (∃ err k t, e.program.returned = some (.error err) ∧
        (k, .error err, t) ∈ e.program.answers) ∨
      ∃ values ended t₀, r.Complete e.program values ended t₀) ∧
    (∀ e, (r.drive code main shuffle).status n = .deadlocked e →
      e.program.began = none ∨
      (e.program.started.map Prod.fst).Perm (List.finRange r.size) ∧
        ∃ k, k ∉ e.program.answers.map Prod.fst) := by
  have K := r.kept code main shuffle (F := False) (fun h => h.elim) n
  unfold EngineRun.after at K
  constructor
  · intro e he
    rw [he] at K
    have hdone := K.stops (.inr (r.stopped_stopping code main shuffle n e he))
    obtain ⟨v, hv⟩ := Option.ne_none_iff_exists'.mp (K.ended.ends.mp hdone)
    cases v with
    | error err =>
        obtain ⟨k, t, hin⟩ := K.ended.failed err hv
        exact .inl ⟨err, k, t, hv, hin⟩
    | ok d => exact .inr (r.complete K hv)
  · intro e he
    rw [he] at K
    change r.Kept False e [] at K
    by_cases hbegan : e.program.began = none
    · exact .inl hbegan
    · obtain ⟨hready, hgone⟩ := (r.drive code main shuffle).deadlocked_idle n e he
      have hempty : queued e [] = [] := by
        unfold queued
        rw [show e.ready = [] from hready]
        rfl
      -- no alarm is left: what is left on the schedule was cancelled by the items' code
      have hasleep : tasks .alarm (timed e.scheduled) = [] := by
        refine List.filterMap_eq_nil_iff.mpr fun c hc => ?_
        obtain ⟨t, ht, rfl⟩ := List.mem_map.mp hc
        have hwait : t.handle ∈ e.waiting [] := List.mem_append_right _ (List.mem_map_of_mem ht)
        obtain ⟨x, hx⟩ := (K.guarded.waits _ hwait).2 (K.guarded.flagged _ (hgone t ht))
        rw [hx]
        rfl
      have honce := K.staged.once hbegan
      unfold line at honce
      rw [hempty, hasleep] at honce
      simp only [tasks_nil, List.append_nil] at honce
      refine .inr ⟨honce, ?_⟩
      by_contra hall
      simp only [not_exists, not_not] at hall
      -- otherwise the gather counted all tasks, and `run` returned
      have hcounted := K.heard.counted
      rw [hempty, tasks_nil, List.append_nil] at hcounted
      have hreturned : e.program.returned ≠ none := by
        by_cases houter : e.program.outer = none
        · have hlen := (K.heard.waiting hbegan houter).1
          have hfull : (List.finRange r.size).length ≤ e.program.finished.length := by
            refine ((List.nodup_finRange _).subperm fun k _ => ?_).length_le
            exact hcounted.mem_iff.mpr (hall k)
          rw [List.length_finRange] at hfull
          omega
        · rcases K.ended.resumes houter with h | h
          · exact h
          · rw [hempty] at h
            cases h
      have hdone := K.ended.ends.mpr hreturned
      rw [r.deadlocked_undone code main shuffle n e he] at hdone
      cases hdone

end Runner

end Toso.Realsim
