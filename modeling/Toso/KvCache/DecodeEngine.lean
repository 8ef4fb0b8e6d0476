/-
  Toso.KvCache.DecodeEngine — the batched decode loop of one host.

  The engine as a machine: admissions append slots, and one step task runs in
  segments between its awaits (the announcement of a step, the wait for it, the
  report of the batch).  What the accelerator and the callbacks do in a segment
  is its `Outcomes`; any of them may raise, and the task then hands its
  exception to every slot it still holds.  A `StopIteration` is told apart: it
  leaves no coroutine, and no future takes it.

  Main results:
    * `body_spec` — what a segment does to the futures, up to its raise.
    * `dropped_finish` — a raise inside `_finish` leaves a future nobody
      resolves.
    * `died_stop` — a `StopIteration` the loop catches leaves every slot held.
    * `settled_iff` — exactly when a dying step loop settles everybody.
    * `noOrphan_of_run` — no future is orphaned before the first such raise.
-/
import Toso.KvCache.Request
import Toso.Lib.Machine
import Mathlib.Data.List.Nodup
import Mathlib.Algebra.Order.Ring.Int

namespace Toso.KvCache

open Lib

/-! ## §1. Slots, futures and the engine. -/

/-- What a decode batch produced for one request: its tokens and its KV. -/
structure Generated (τ β : Type*) where
  tokens : List τ
  kv : List β
  deriving DecidableEq

/-- An exception, with the three kinds the loop and its futures tell apart. -/
inductive Exc (ε : Type*)
  | stopIteration
  | runtimeError
  | typeError
  | other (e : ε)
  deriving DecidableEq

/-- An exception out of a coroutine: a `StopIteration` leaves it a `RuntimeError`. -/
def Exc.leaving {ε : Type*} : Exc ε → Exc ε
  | .stopIteration => .runtimeError
  | e => e

/-- An `asyncio.Future`. -/
inductive Future (α ε : Type*)
  | pending
  | result (a : α)
  | exception (e : ε)
  deriving DecidableEq

/-- `_Active`: one request in, or queued for, a slot.  `done` numbers its future,
which is the slot's identity. -/
structure Active (ν κ τ : Type*) where
  request : Request ν κ
  remaining : ℤ
  lastTokenTime : ℚ
  done : ℕ
  tbtMax : ℚ
  tokens : List τ
  deriving DecidableEq

/-- `_step_task`: none yet, created, or where its coroutine is suspended; a step
in flight carries its frozen members and its end. -/
inductive StepTask (ε : Type*)
  | absent
  | created
  | announcing (members : List ℕ) (stepEnd : ℚ)
  | waiting (members : List ℕ) (stepEnd : ℚ)
  | reporting
  | ended (exc : Option (Exc ε))
  deriving DecidableEq

/-- What an engine is built with: the VRAM cap and the callbacks it was given. -/
structure EngineConfig where
  maxBatch : ℕ
  onFinish : Bool
  onComputeBusy : Bool
  onState : Bool

/-- A `DecodeEngine`.  `futures` holds every future an admission created,
`admitting` those whose admission is suspended in its own report, and `finished`
the `on_finish` calls made. -/
structure DecodeEngine (ν κ τ β ε : Type*) where
  batch : List (Active ν κ τ)
  pending : List (Active ν κ τ)
  futures : List (Future (Generated τ β) (Exc ε))
  task : StepTask ε
  admitting : List ℕ
  finished : List (Request ν κ × ℚ)
  deriving DecidableEq

/-- Where the step loop can raise. -/
inductive Point
  | claim
  | busy
  | wait
  | tokens
  | onFinish
  | generatedKv
  | report
  deriving DecidableEq

/-- The two points inside `_finish`. -/
def Point.inFinish : Point → Prop
  | .onFinish => True
  | .generatedKv => True
  | _ => False

instance : DecidablePred Point.inFinish := fun p => by
  cases p <;> unfold Point.inFinish <;> infer_instance

/-- What the accelerator and the callbacks do in one segment.  `onFinish` and
`generatedKv` are asked per slot. -/
structure Outcomes (τ β ε : Type*) where
  /-- What the await the task was suspended on came back with. -/
  awaited : Except (Exc ε) Unit
  claimStep : Except (Exc ε) ℚ
  stepTokens : Except (Exc ε) (List τ)
  onFinish : ℕ → Except (Exc ε) Unit
  generatedKv : ℕ → ℕ → Except (Exc ε) (List β)
  stepCost : Except (Exc ε) Unit

variable {ν κ τ β ε : Type*}

/-- An engine nobody was admitted to. -/
def DecodeEngine.new : DecodeEngine ν κ τ β ε := ⟨[], [], [], .absent, [], []⟩

namespace DecodeEngine

/-! ## §2. The loop, segment by segment. -/

/-- `_finish`: `on_finish` first, then the KV, then the future. -/
def finish (cfg : EngineConfig) (o : Outcomes τ β ε) (s : DecodeEngine ν κ τ β ε)
    (request : Request ν κ) (tbt : ℚ) (done : ℕ) (tokens : List τ) :
    DecodeEngine ν κ τ β ε × Option (Point × Exc ε) :=
  match (if cfg.onFinish then o.onFinish done else .ok ()) with
  | .error e => (s, some (.onFinish, e))
  | .ok _ =>
      let s := if cfg.onFinish then
        { s with finished := s.finished ++ [(request, tbt)] } else s
      match o.generatedKv done tokens.length with
      | .error e => (s, some (.generatedKv, e))
      | .ok kv => ({ s with futures := s.futures.set done (.result ⟨tokens, kv⟩) }, none)

/-- A slot after a step: one token more, one fewer to go. -/
def stepped (a : Active ν κ τ) (stepEnd : ℚ) (token : τ) : Active ν κ τ :=
  { a with
    tbtMax := max a.tbtMax (stepEnd - a.lastTokenTime)
    lastTokenTime := stepEnd
    remaining := a.remaining - 1
    tokens := a.tokens ++ [token] }

/-- The loop of `_step_complete` over the frozen members and their tokens.  A
slot is found, updated and removed by its future, and leaves the batch before it
is finished. -/
def emit (cfg : EngineConfig) (o : Outcomes τ β ε) (stepEnd : ℚ) :
    List (ℕ × τ) → DecodeEngine ν κ τ β ε → DecodeEngine ν κ τ β ε × Option (Point × Exc ε)
  | [], s => (s, none)
  | (done, token) :: rest, s =>
      match s.batch.find? (·.done = done) with
      | none => emit cfg o stepEnd rest s
      | some a =>
          let b := stepped a stepEnd token
          if b.remaining = 0 then
            match finish cfg o { s with batch := s.batch.filter (·.done ≠ done) }
                b.request b.tbtMax done b.tokens with
            | (s', some raised) => (s', some raised)
            | (s', none) => emit cfg o stepEnd rest s'
          else
            emit cfg o stepEnd rest
              { s with batch := s.batch.map fun c => if c.done = done then b else c }

/-- `while pending and len(batch) < max_batch`: queued slots enter in order. -/
def promote (cfg : EngineConfig) (s : DecodeEngine ν κ τ β ε) : DecodeEngine ν κ τ β ε :=
  { s with
    batch := s.batch ++ s.pending.take (cfg.maxBatch - s.batch.length)
    pending := s.pending.drop (cfg.maxBatch - s.batch.length) }

/-- The head of `_run_steps`' loop: end, or freeze and book the next step. -/
def head (cfg : EngineConfig) (o : Outcomes τ β ε) (s : DecodeEngine ν κ τ β ε) :
    DecodeEngine ν κ τ β ε × Option (Point × Exc ε) :=
  if s.batch = [] then ({ s with task := .ended none }, none)
  else
    match o.claimStep with
    | .error e => (s, some (.claim, e))
    | .ok stepEnd =>
        let members := s.batch.map Active.done
        ({ s with task :=
            if cfg.onComputeBusy then .announcing members stepEnd
            else .waiting members stepEnd }, none)

/-- `_step_complete`, and the loop head again when there is nobody to report to. -/
def stepComplete (cfg : EngineConfig) (o : Outcomes τ β ε) (members : List ℕ)
    (stepEnd : ℚ) (s : DecodeEngine ν κ τ β ε) :
    DecodeEngine ν κ τ β ε × Option (Point × Exc ε) :=
  match o.stepTokens with
  | .error e => (s, some (.tokens, e))
  | .ok emitted =>
      match emit cfg o stepEnd (members.zip emitted) s with
      | (s', some raised) => (s', some raised)
      | (s', none) =>
          let s' := promote cfg s'
          if cfg.onState then
            match o.stepCost with
            | .error e => (s', some (.report, e))
            | .ok _ => ({ s' with task := .reporting }, none)
          else head cfg o s'

/-- One segment of the step task, from where it is suspended to its next await,
its end, or its raise. -/
def body (cfg : EngineConfig) (o : Outcomes τ β ε) (s : DecodeEngine ν κ τ β ε) :
    Option (DecodeEngine ν κ τ β ε × Option (Point × Exc ε)) :=
  match s.task with
  | .absent => none
  | .ended _ => none
  | .created => some (head cfg o s)
  | .announcing members stepEnd => some <|
      match o.awaited with
      | .error e => (s, some (.busy, e))
      | .ok _ => ({ s with task := .waiting members stepEnd }, none)
  | .waiting members stepEnd => some <|
      match o.awaited with
      | .error e => (s, some (.wait, e))
      | .ok _ => stepComplete cfg o members stepEnd s
  | .reporting => some <|
      match o.awaited with
      | .error e => (s, some (.report, e))
      | .ok _ => head cfg o s

/-- The exception as `_run_steps` catches it: `_step_complete` and `_report` are
coroutines of their own. -/
def caught : Point → Exc ε → Exc ε
  | .claim, e => e
  | .busy, e => e
  | .wait, e => e
  | _, e => e.leaving

/-- `Future.set_exception`: a `StopIteration` is refused. -/
def setException : Exc ε → Except (Exc ε) (Future (Generated τ β) (Exc ε))
  | .stopIteration => .error .typeError
  | e => .ok (.exception e)

/-- The loop of `_abandon`, `if not a.done.done()`: the futures and the raise that
ends it early. -/
def fail (e : Exc ε) : List (Active ν κ τ) → List (Future (Generated τ β) (Exc ε)) →
    List (Future (Generated τ β) (Exc ε)) × Option (Exc ε)
  | [], fs => (fs, none)
  | a :: rest, fs =>
      match fs[a.done]? with
      | some .pending =>
          match setException e with
          | .error raised => (fs, some raised)
          | .ok f => fail e rest (fs.set a.done f)
      | _ => fail e rest fs

/-- `_abandon`: the exception to every slot still held, then none is, unless a
future refused it. -/
def abandon (e : Exc ε) (s : DecodeEngine ν κ τ β ε) :
    DecodeEngine ν κ τ β ε × Option (Exc ε) :=
  match fail e (s.batch ++ s.pending) s.futures with
  | (fs, some raised) => ({ s with futures := fs }, some raised)
  | (fs, none) => ({ s with futures := fs, batch := [], pending := [] }, none)

/-- `_run_steps` caught `e`: `_abandon`, and what it raised or else `e` ends the
task. -/
def died (e : Exc ε) (s : DecodeEngine ν κ τ β ε) : DecodeEngine ν κ τ β ε :=
  match abandon e s with
  | (s', some raised) => { s' with task := .ended (some raised.leaving) }
  | (s', none) => { s' with task := .ended (some e.leaving) }

/-- The step task resumed: its segment, under its `except` clause. -/
def resume (cfg : EngineConfig) (o : Outcomes τ β ε) (s : DecodeEngine ν κ τ β ε) :
    Option (DecodeEngine ν κ τ β ε × Option (Point × Exc ε)) :=
  (body cfg o s).map fun
    | (s', none) => (s', none)
    | (s', some (p, e)) => (died (caught p e) s', some (p, e))

/-! ## §3. Admissions. -/

/-- The step task is there and not done. -/
def Stepping (s : DecodeEngine ν κ τ β ε) : Prop :=
  match s.task with
  | .absent => False
  | .ended _ => False
  | _ => True

instance (s : DecodeEngine ν κ τ β ε) : Decidable s.Stepping := by
  unfold Stepping
  split <;> infer_instance

/-- `_ensure_stepping`. -/
def ensureStepping (s : DecodeEngine ν κ τ β ε) : DecodeEngine ν κ τ β ε :=
  if s.Stepping ∨ s.batch = [] then s else { s with task := .created }

/-- A slot for `request`: in the batch when it has room, queued otherwise. -/
def enter (cfg : EngineConfig) (now : ℚ) (request : Request ν κ)
    (s : DecodeEngine ν κ τ β ε) : DecodeEngine ν κ τ β ε :=
  let a : Active ν κ τ := ⟨request, request.decodeTokens, now, s.futures.length, 0, []⟩
  if s.batch.length < cfg.maxBatch then
    { s with batch := s.batch ++ [a], futures := s.futures ++ [.pending] }
  else
    { s with pending := s.pending ++ [a], futures := s.futures ++ [.pending] }

/-- `admit` up to its report, or through when nobody listens.  A request with
nothing to decode is retired here; if that raises, the call raises and its future
goes with it. -/
def admitRequest (cfg : EngineConfig) (o : Outcomes τ β ε) (now : ℚ) (request : Request ν κ)
    (s : DecodeEngine ν κ τ β ε) : DecodeEngine ν κ τ β ε :=
  if request.decodeTokens = 0 then
    match finish cfg o { s with futures := s.futures ++ [Future.pending] } request 0
        s.futures.length [] with
    | (s', none) => s'
    | (s', some _) => { s' with futures := s.futures }
  else if cfg.onState then
    { enter cfg now request s with admitting := s.admitting ++ [s.futures.length] }
  else (enter cfg now request s).ensureStepping

/-- An admission back from its report: on to the loop, unless the report raised
out of `admit`. -/
def admitted (done : ℕ) (report : Except (Exc ε) Unit) (s : DecodeEngine ν κ τ β ε) :
    Option (DecodeEngine ν κ τ β ε) :=
  if done ∈ s.admitting then
    let s' := { s with admitting := s.admitting.erase done }
    match report with
    | .error _ => some s'
    | .ok _ => some s'.ensureStepping
  else none

/-- An admission with nothing between its append and its return to the loop. -/
def admitAtOnce (cfg : EngineConfig) (o : Outcomes τ β ε) (now : ℚ)
    (request : Request ν κ) (s : DecodeEngine ν κ τ β ε) : DecodeEngine ν κ τ β ε :=
  let s' := admitRequest cfg o now request s
  (admitted s.futures.length (.ok ()) s').getD s'

/-! ## §4. The machine. -/

/-- What can run next on one engine. -/
inductive Event (ν κ τ β ε : Type*)
  | admitRequest (o : Outcomes τ β ε) (now : ℚ) (request : Request ν κ)
  | admitted (done : ℕ) (report : Except (Exc ε) Unit)
  | step (o : Outcomes τ β ε)

/-- One segment of one coroutine. -/
def next (cfg : EngineConfig) (s : DecodeEngine ν κ τ β ε) :
    Event ν κ τ β ε → Option (DecodeEngine ν κ τ β ε)
  | .admitRequest o now request => some (admitRequest cfg o now request s)
  | .admitted done report => admitted done report s
  | .step o => (resume cfg o s).map Prod.fst

/-- The runs of a fresh engine. -/
def machine (cfg : EngineConfig) :
    Machine (DecodeEngine ν κ τ β ε) (Event ν κ τ β ε) :=
  .ofPartial (· = new) (next cfg)

/-! ## §5. The slots and their futures. -/

/-- The futures of the slots still held. -/
def slots (s : DecodeEngine ν κ τ β ε) : List ℕ := (s.batch ++ s.pending).map Active.done

/-- A future is still open. -/
def Open (s : DecodeEngine ν κ τ β ε) (id : ℕ) : Prop := s.futures[id]? = some .pending

/-- An open future no slot holds: nothing will resolve it. -/
def Orphan (s : DecodeEngine ν κ τ β ε) (id : ℕ) : Prop := s.Open id ∧ id ∉ s.slots

/-- No future is orphaned. -/
def NoOrphan (s : DecodeEngine ν κ τ β ε) : Prop := ∀ id, ¬ s.Orphan id

/-- What holds between two segments: the slots held are distinct and open, each
has a token to go, and a step in flight froze distinct members. -/
structure WellFormed (cfg : EngineConfig) (s : DecodeEngine ν κ τ β ε) : Prop where
  nodup : s.slots.Nodup
  live : ∀ id ∈ s.slots, s.Open id
  positive : ∀ a ∈ s.batch ++ s.pending, 0 < a.remaining
  room : s.batch ≠ [] ∨ s.Stepping → 0 < cfg.maxBatch
  frozen : ∀ members stepEnd,
    (s.task = .announcing members stepEnd ∨ s.task = .waiting members stepEnd) →
      members.Nodup

/-- What a segment does to the futures up to its end or its raise `r`, where only
the slots of `ids` may retire. -/
structure Effect (cfg : EngineConfig) (ids : List ℕ) (s u : DecodeEngine ν κ τ β ε)
    (r : Option (Point × Exc ε)) : Prop where
  kept : ∀ (id : ℕ) (f : Future (Generated τ β) (Exc ε)),
    s.futures[id]? = some f → f ≠ .pending → u.futures[id]? = some f
  /-- An open future stays open, or its slot emitted its last token. -/
  retired : ∀ id, s.Open id → u.Open id ∨
    (id ∈ ids ∧ ∃ a ∈ s.batch, a.done = id ∧ a.remaining = 1 ∧
      ∃ token kv, u.futures[id]? = some (.result ⟨a.tokens ++ [token], kv⟩))
  opened : ∀ id, u.Open id → s.Open id
  orphan_mono : ∀ id, s.Orphan id → u.Orphan id
  orphan_back : (∀ p e, r = some (p, e) → ¬ p.inFinish) → ∀ id, u.Orphan id → s.Orphan id
  orphan_lost : ∀ p e, r = some (p, e) → p.inFinish → ∃ id, u.Orphan id
  wellFormed : (∀ p e, r = some (p, e) → ¬ p.inFinish) → WellFormed cfg u

/-- A segment that moves no future and no slot. -/
theorem Effect.of_same {cfg : EngineConfig} {s u : DecodeEngine ν κ τ β ε}
    {r : Option (Point × Exc ε)} (hf : u.futures = s.futures) (hs : u.slots = s.slots)
    (hr : ∀ p e, r = some (p, e) → ¬ p.inFinish) (hw : WellFormed cfg u) :
    Effect cfg [] s u r := by
  have hopen : ∀ id, u.Open id ↔ s.Open id := fun id => by unfold Open; rw [hf]
  have horph : ∀ id, u.Orphan id ↔ s.Orphan id := fun id => by
    unfold Orphan
    rw [hopen, hs]
  refine ⟨fun id f hid _ => by rw [hf]; exact hid, fun id hid => .inl ((hopen id).mpr hid),
    fun id => (hopen id).mp, fun id => (horph id).mpr, fun _ id => (horph id).mp, ?_,
    fun _ => hw⟩
  intro p e hpe hin
  exact absurd hin (hr p e hpe)

/-- One segment after another, when the second retires nobody. -/
theorem Effect.trans {cfg : EngineConfig} {ids : List ℕ} {s u v : DecodeEngine ν κ τ β ε}
    {r : Option (Point × Exc ε)} (h : Effect cfg ids s u none) (h' : Effect cfg [] u v r) :
    Effect cfg ids s v r := by
  refine ⟨fun id f hid hf => h'.kept id f (h.kept id f hid hf) hf, ?_,
    fun id hid => h.opened id (h'.opened id hid),
    fun id hid => h'.orphan_mono id (h.orphan_mono id hid), ?_, h'.orphan_lost,
    h'.wellFormed⟩
  · intro id hid
    rcases h.retired id hid with hopen | ⟨hmem, a, ha, hda, hra, token, kv, hres⟩
    · rcases h'.retired id hopen with hopen' | ⟨hnil, _⟩
      · exact .inl hopen'
      · simp at hnil
    · exact .inr ⟨hmem, a, ha, hda, hra, token, kv,
        h'.kept id _ hres (by simp)⟩
  · intro hr id hid
    exact h.orphan_back (by simp) id (h'.orphan_back hr id hid)

/-- Removing the slot of `done` from the batch. -/
theorem slots_remove {s : DecodeEngine ν κ τ β ε} (hn : s.slots.Nodup) {a : Active ν κ τ}
    (ha : a ∈ s.batch) (id : ℕ) :
    id ∈ ({ s with batch := s.batch.filter (·.done ≠ a.done) } :
        DecodeEngine ν κ τ β ε).slots
      ↔ id ∈ s.slots ∧ id ≠ a.done := by
  unfold slots at hn ⊢
  simp only [List.map_append, List.nodup_append, List.mem_append, List.mem_map,
    List.mem_filter, decide_eq_true_eq] at hn ⊢
  constructor
  · rintro (⟨b, ⟨hb, hne⟩, rfl⟩ | ⟨b, hb, rfl⟩)
    · exact ⟨.inl ⟨b, hb, rfl⟩, hne⟩
    · refine ⟨.inr ⟨b, hb, rfl⟩, fun heq => ?_⟩
      exact hn.2.2 a.done ⟨a, ha, rfl⟩ b.done ⟨b, hb, rfl⟩ heq.symm
  · rintro ⟨⟨b, hb, rfl⟩ | ⟨b, hb, rfl⟩, hne⟩
    · exact .inl ⟨b, ⟨hb, hne⟩, rfl⟩
    · exact .inr ⟨b, hb, rfl⟩

/-- The futures of the slots after one slot's update are the ones before. -/
theorem slots_update (s : DecodeEngine ν κ τ β ε) (done : ℕ) (b : Active ν κ τ)
    (hb : b.done = done) :
    ({ s with batch := s.batch.map fun c => if c.done = done then b else c } :
        DecodeEngine ν κ τ β ε).slots = s.slots := by
  unfold slots
  simp only [List.map_append, List.map_map]
  congr 1
  apply List.map_congr_left
  intro c _
  show (if c.done = done then b else c).done = c.done
  split
  · rename_i hc
    rw [hb, hc]
  · rfl

/-! ## §6. What one segment does. -/

/-- `_finish` of a slot that has left the batch: a result for its future, or a
raise that leaves it open. -/
theorem finish_cases (cfg : EngineConfig) (o : Outcomes τ β ε)
    (s : DecodeEngine ν κ τ β ε) (request : Request ν κ) (tbt : ℚ) (done : ℕ)
    (tokens : List τ) :
    ∃ log : List (Request ν κ × ℚ),
      (∃ p e, p.inFinish ∧
        finish cfg o s request tbt done tokens = ({ s with finished := log }, some (p, e))) ∨
      (∃ kv, finish cfg o s request tbt done tokens
        = ({ s with finished := log,
                    futures := s.futures.set done (.result ⟨tokens, kv⟩) }, none)) := by
  unfold finish
  cases hf : (if cfg.onFinish then o.onFinish done else .ok ()) with
  | error e => exact ⟨s.finished, .inl ⟨.onFinish, e, trivial, rfl⟩⟩
  | ok _ =>
      cases hk : o.generatedKv done tokens.length with
      | error e =>
          by_cases hc : cfg.onFinish = true
          · exact ⟨s.finished ++ [(request, tbt)], .inl ⟨.generatedKv, e, trivial, by simp [hc]⟩⟩
          · exact ⟨s.finished, .inl ⟨.generatedKv, e, trivial, by simp [hc]⟩⟩
      | ok kv =>
          by_cases hc : cfg.onFinish = true
          · exact ⟨s.finished ++ [(request, tbt)], .inr ⟨kv, by simp [hc]⟩⟩
          · exact ⟨s.finished, .inr ⟨kv, by simp [hc]⟩⟩

/-- A slot that emitted its last token and was handed its result. -/
theorem effect_retire {cfg : EngineConfig} {s : DecodeEngine ν κ τ β ε}
    (h : WellFormed cfg s) {a : Active ν κ τ} (ha : a ∈ s.batch) (hone : a.remaining = 1)
    (token : τ) (kv : List β) (log : List (Request ν κ × ℚ)) :
    Effect cfg [a.done] s
      { s with batch := s.batch.filter (·.done ≠ a.done)
               finished := log
               futures := s.futures.set a.done (.result ⟨a.tokens ++ [token], kv⟩) }
      none := by
  have hslot : a.done ∈ s.slots :=
    List.mem_map_of_mem (List.mem_append_left _ ha)
  have hlive : s.futures[a.done]? = some .pending := h.live _ hslot
  have hlen : a.done < s.futures.length := (List.getElem?_eq_some_iff.mp hlive).1
  have hread : ∀ id, (s.futures.set a.done (.result ⟨a.tokens ++ [token], kv⟩))[id]?
      = if id = a.done then some (.result ⟨a.tokens ++ [token], kv⟩) else s.futures[id]? := by
    intro id
    by_cases hid : id = a.done
    · subst hid
      simp [hlen]
    · rw [if_neg hid, List.getElem?_set_ne (Ne.symm hid)]
  have hslots := slots_remove h.nodup ha
  -- only its own future moved, and only its own slot went
  have hopen : ∀ id, id ≠ a.done →
      ((s.futures.set a.done (.result ⟨a.tokens ++ [token], kv⟩))[id]? = some .pending
        ↔ s.Open id) := fun id hid => by rw [hread, if_neg hid]; rfl
  have hback : ∀ id, (s.futures.set a.done (.result ⟨a.tokens ++ [token], kv⟩))[id]?
      = some .pending → id ≠ a.done := by
    rintro _ hid rfl
    rw [hread, if_pos rfl] at hid
    simp at hid
  refine ⟨?_, ?_, fun id hid => (hopen id (hback id hid)).mp hid, ?_, ?_, by simp,
    fun _ => ?_⟩
  · intro id f hid hf
    have hne : id ≠ a.done := by
      rintro rfl
      rw [hlive] at hid
      exact hf (Option.some.inj hid).symm
    show (s.futures.set _ _)[id]? = some f
    rw [hread, if_neg hne]
    exact hid
  · intro id hid
    by_cases hne : id = a.done
    · refine .inr ⟨by simp [hne], a, ha, hne.symm, hone, token, kv, ?_⟩
      show (s.futures.set _ _)[id]? = _
      rw [hread, if_pos hne]
    · exact .inl ((hopen id hne).mpr hid)
  · rintro id ⟨hid, hns⟩
    have hne : id ≠ a.done := fun heq => hns (heq ▸ hslot)
    exact ⟨(hopen id hne).mpr hid, fun hs => hns ((hslots id).mp hs).1⟩
  · rintro - id ⟨hid, hns⟩
    have hne := hback id hid
    exact ⟨(hopen id hne).mp hid, fun hs => hns ((hslots id).mpr ⟨hs, hne⟩)⟩
  · refine ⟨?_, ?_, ?_, ?_, h.frozen⟩
    · exact h.nodup.sublist ((List.filter_sublist.append_right _).map _)
    · intro id hid
      obtain ⟨hs, hne⟩ := (hslots id).mp hid
      exact (hopen id hne).mpr (h.live id hs)
    · intro b hb
      refine h.positive b ?_
      rcases List.mem_append.mp hb with hb | hb
      · exact List.mem_append_left _ (List.mem_of_mem_filter hb)
      · exact List.mem_append_right _ hb
    · rintro (hb | hst)
      · exact h.room (.inl (List.ne_nil_of_mem ha))
      · exact h.room (.inr hst)

/-- A slot that emitted a token and has more to go. -/
theorem wellFormed_update {cfg : EngineConfig} {s : DecodeEngine ν κ τ β ε}
    (h : WellFormed cfg s) {a : Active ν κ τ} (ha : a ∈ s.batch) (hgo : a.remaining ≠ 1)
    (stepEnd : ℚ) (token : τ) :
    WellFormed cfg
      { s with batch := s.batch.map fun c =>
          if c.done = a.done then stepped a stepEnd token else c } := by
  have hslots := slots_update s a.done (stepped a stepEnd token) rfl
  constructor
  case nodup =>
    rw [hslots]
    exact h.nodup
  case live =>
    intro id hid
    rw [hslots] at hid
    exact h.live id hid
  case positive =>
    intro b hb
    have hpos := h.positive a (List.mem_append_left _ ha)
    rcases List.mem_append.mp hb with hb | hb
    · obtain ⟨c, hc, rfl⟩ := List.mem_map.mp hb
      split
      · show 0 < a.remaining - 1
        omega
      · exact h.positive c (List.mem_append_left _ hc)
    · exact h.positive b (List.mem_append_right _ hb)
  case room =>
    rintro (_ | hst)
    · exact h.room (.inl (List.ne_nil_of_mem ha))
    · exact h.room (.inr hst)
  case frozen => exact h.frozen

/-- **The loop over the members**, by induction on them: each retires with its
own tokens, and a raise leaves the slot it was retiring without a batch. -/
theorem emit_spec (cfg : EngineConfig) (o : Outcomes τ β ε) (stepEnd : ℚ) :
    ∀ (pairs : List (ℕ × τ)) (s u : DecodeEngine ν κ τ β ε) (r : Option (Point × Exc ε)),
      (pairs.map Prod.fst).Nodup → WellFormed cfg s → emit cfg o stepEnd pairs s = (u, r) →
      Effect cfg (pairs.map Prod.fst) s u r ∧ (∀ p e, r = some (p, e) → p.inFinish) ∧
        u.task = s.task
  | [], s, u, r, _, hw, he => by
      cases he
      exact ⟨Effect.of_same rfl rfl (by simp) hw, by simp, rfl⟩
  | (done, token) :: rest, s, u, r, hn, hw, he => by
      simp only [List.map_cons, List.nodup_cons] at hn
      unfold emit at he
      cases hfind : s.batch.find? (·.done = done) with
      | none =>
          simp only [hfind] at he
          obtain ⟨heff, hrest⟩ := emit_spec cfg o stepEnd rest s u r hn.2 hw he
          refine ⟨⟨heff.kept, fun id hid => ?_, heff.opened, heff.orphan_mono,
            heff.orphan_back, heff.orphan_lost, heff.wellFormed⟩, hrest⟩
          exact (heff.retired id hid).imp_right fun hret =>
            ⟨List.mem_cons_of_mem _ hret.1, hret.2⟩
      | some a =>
          have ha : a ∈ s.batch := List.mem_of_find?_eq_some hfind
          have hdone : a.done = done := by simpa using List.find?_some hfind
          subst hdone
          simp only [hfind] at he
          by_cases hlast : (stepped a stepEnd token).remaining = 0
          · -- its last token: out of the batch, then `_finish`
            have hone : a.remaining = 1 := by
              have hrem : a.remaining - 1 = 0 := hlast
              omega
            rw [if_pos hlast] at he
            obtain ⟨log, ⟨p, e, hin, hfin⟩ | ⟨kv, hfin⟩⟩ := finish_cases cfg o
              { s with batch := s.batch.filter (·.done ≠ a.done) }
              (stepped a stepEnd token).request (stepped a stepEnd token).tbtMax a.done
              (stepped a stepEnd token).tokens
            · rw [hfin] at he
              cases he
              have hslot : a.done ∈ s.slots :=
                List.mem_map_of_mem (List.mem_append_left _ ha)
              have hslots := slots_remove hw.nodup ha
              refine ⟨⟨fun id f hid _ => hid, fun id hid => .inl hid, fun id hid => hid, ?_,
                ?_, ?_, fun hnot => absurd hin (hnot p e rfl)⟩, ?_, rfl⟩
              · rintro id ⟨hid, hns⟩
                exact ⟨hid, fun hs => hns ((hslots id).mp hs).1⟩
              · intro hnot
                exact absurd hin (hnot p e rfl)
              · intro _ _ _ _
                exact ⟨a.done, hw.live _ hslot, fun hs => ((hslots a.done).mp hs).2 rfl⟩
              · intro p' e' hpe
                cases hpe
                exact hin
            · rw [hfin] at he
              have hret := effect_retire hw ha hone token kv log
              obtain ⟨heff, hin, htask⟩ := emit_spec cfg o stepEnd rest _ u r hn.2
                (hret.wellFormed (by simp)) he
              refine ⟨⟨fun id f hid hf => heff.kept id f (hret.kept id f hid hf) hf, ?_,
                fun id hid => hret.opened id (heff.opened id hid),
                fun id hid => heff.orphan_mono id (hret.orphan_mono id hid),
                fun hr id hid => hret.orphan_back (by simp) id (heff.orphan_back hr id hid),
                heff.orphan_lost, heff.wellFormed⟩, hin, htask⟩
              intro id hid
              rcases hret.retired id hid with hopen | ⟨hmem, b, hb, hbd, hbr, tok, kv', hres⟩
              · refine (heff.retired id hopen).imp_right ?_
                rintro ⟨hmem, b, hb, hrest⟩
                exact ⟨List.mem_cons_of_mem _ hmem, b, List.mem_of_mem_filter hb, hrest⟩
              · refine .inr ⟨?_, b, hb, hbd, hbr, tok, kv', heff.kept id _ hres (by simp)⟩
                simp only [List.mem_singleton] at hmem
                simp [hmem]
          · rw [if_neg hlast] at he
            have hgo : a.remaining ≠ 1 := by
              have hrem : a.remaining - 1 ≠ 0 := hlast
              omega
            obtain ⟨heff, hin, htask⟩ := emit_spec cfg o stepEnd rest _ u r hn.2
              (wellFormed_update hw ha hgo stepEnd token) he
            have hslots := slots_update s a.done (stepped a stepEnd token) rfl
            have horph : ∀ id, (({ s with batch := s.batch.map fun c =>
                if c.done = a.done then stepped a stepEnd token else c } :
                  DecodeEngine ν κ τ β ε).Orphan id ↔ s.Orphan id) := fun id => by
              unfold Orphan
              rw [hslots]
              rfl
            refine ⟨⟨heff.kept, fun id hid => ?_, heff.opened,
              fun id hid => heff.orphan_mono id ((horph id).mpr hid),
              fun hr id hid => (horph id).mp (heff.orphan_back hr id hid),
              heff.orphan_lost, heff.wellFormed⟩, hin, htask⟩
            refine (heff.retired id hid).imp_right ?_
            rintro ⟨hmem, b, hb, hbd, hrest⟩
            -- the updated slot is not among the members still to come
            obtain ⟨c, hc, hcb⟩ := List.mem_map.mp hb
            by_cases hca : c.done = a.done
            · rw [if_pos hca] at hcb
              have hida : id = a.done := by rw [← hbd, ← hcb]; rfl
              exact absurd (hida ▸ hmem) hn.1
            · rw [if_neg hca] at hcb
              exact ⟨List.mem_cons_of_mem _ hmem, b, hcb ▸ hc, hbd, hrest⟩

/-- Promotion only moves slots from the queue to the batch. -/
theorem promote_slots (cfg : EngineConfig) (s : DecodeEngine ν κ τ β ε) :
    (promote cfg s).batch ++ (promote cfg s).pending = s.batch ++ s.pending := by
  unfold promote
  rw [List.append_assoc, List.take_append_drop]

theorem promote_spec {cfg : EngineConfig} {s : DecodeEngine ν κ τ β ε}
    (h : WellFormed cfg s) : WellFormed cfg (promote cfg s) := by
  have hsame := promote_slots cfg s
  have hslots : (promote cfg s).slots = s.slots := by
    unfold slots
    rw [hsame]
  refine ⟨by rw [hslots]; exact h.nodup, ?_, by rw [hsame]; exact h.positive, ?_, h.frozen⟩
  · intro id hid
    rw [hslots] at hid
    exact h.live id hid
  · rintro (hb | hst)
    · by_cases hcap : cfg.maxBatch = 0
      · have hbatch : (promote cfg s).batch = s.batch := by
          unfold promote
          simp [hcap]
        exact h.room (.inl (hbatch ▸ hb))
      · omega
    · exact h.room (.inr hst)

/-- The loop head moves no future and no slot. -/
theorem head_spec {cfg : EngineConfig} {o : Outcomes τ β ε} {s u : DecodeEngine ν κ τ β ε}
    {r : Option (Point × Exc ε)} (hw : WellFormed cfg s) (he : head cfg o s = (u, r)) :
    Effect cfg [] s u r ∧ (∀ p e, r = some (p, e) → p = .claim) := by
  unfold head at he
  split at he
  · rename_i hempty
    cases he
    refine ⟨Effect.of_same rfl rfl (by simp) ?_, by simp⟩
    exact ⟨hw.nodup, hw.live, hw.positive,
      fun hor => hor.elim (fun hb => absurd hempty hb) (fun hst => hst.elim), by simp⟩
  · rename_i hne
    cases hclaim : o.claimStep with
    | error e =>
        simp only [hclaim] at he
        cases he
        refine ⟨Effect.of_same rfl rfl ?_ hw, ?_⟩
        · rintro p e' hpe
          cases hpe
          exact fun hf => hf.elim
        · rintro p e' hpe
          cases hpe
          rfl
    | ok stepEnd =>
        simp only [hclaim] at he
        cases he
        refine ⟨Effect.of_same rfl rfl (by simp) ?_, by simp⟩
        refine ⟨hw.nodup, hw.live, hw.positive, fun _ => hw.room (.inl hne), ?_⟩
        intro members e htask
        have hmembers : members = s.batch.map Active.done := by
          by_cases hb : cfg.onComputeBusy = true <;> simp [hb] at htask <;>
            exact htask.1.symm
        rw [hmembers]
        exact (hw.nodup.sublist (((List.sublist_append_left _ _).map _)))

/-- Members without a token are cut off the end. -/
theorem zip_fst_sublist (members : List ℕ) :
    ∀ emitted : List τ, ((members.zip emitted).map Prod.fst).Sublist members := by
  induction members with
  | nil => intro emitted; simp
  | cons m members ih =>
      intro emitted
      cases emitted with
      | nil => simp
      | cons token emitted => simpa using ih emitted

/-- `_step_complete`, and what follows it in the same segment. -/
theorem stepComplete_spec {cfg : EngineConfig} {o : Outcomes τ β ε} {members : List ℕ}
    {stepEnd : ℚ} {s u : DecodeEngine ν κ τ β ε} {r : Option (Point × Exc ε)}
    (hw : WellFormed cfg s) (hm : members.Nodup) (hst : s.Stepping)
    (he : stepComplete cfg o members stepEnd s = (u, r)) :
    ∃ ids, Effect cfg ids s u r := by
  unfold stepComplete at he
  cases htok : o.stepTokens with
  | error e =>
      simp only [htok] at he
      cases he
      refine ⟨[], Effect.of_same rfl rfl ?_ hw⟩
      rintro p e' hpe
      cases hpe
      exact fun hf => hf.elim
  | ok emitted =>
      simp only [htok] at he
      have hn : ((members.zip emitted).map Prod.fst).Nodup :=
        hm.sublist (zip_fst_sublist members emitted)
      cases hemit : emit cfg o stepEnd (members.zip emitted) s with
      | mk s' r' =>
          obtain ⟨heff, -, htask⟩ := emit_spec cfg o stepEnd _ s s' r' hn hw hemit
          rw [hemit] at he
          cases r' with
          -- a token that raises ends the segment; else those that wait are promoted
          | some raised =>
              cases he
              exact ⟨_, heff⟩
          | none =>
              refine ⟨_, heff.trans ?_⟩
              have hwp := promote_spec (heff.wellFormed (by simp))
              have hps : (promote cfg s').slots = s'.slots := by
                unfold slots
                rw [promote_slots]
              have hroom : 0 < cfg.maxBatch := hw.room (.inr hst)
              have hpromoted : Effect cfg [] s' (promote cfg s') (none : Option (Point × Exc ε)) :=
                Effect.of_same rfl hps (by simp) hwp
              by_cases hstate : cfg.onState = true
              · simp only [hstate, if_true] at he
                cases hcost : o.stepCost with
                | error e =>
                    simp only [hcost] at he
                    cases he
                    refine Effect.of_same rfl hps ?_ hwp
                    rintro p e' hpe
                    cases hpe
                    exact fun hf => hf.elim
                | ok _ =>
                    simp only [hcost] at he
                    cases he
                    refine Effect.of_same rfl hps (by simp) ?_
                    exact ⟨hwp.nodup, hwp.live, hwp.positive, fun _ => hroom, by simp⟩
              · simp only [hstate] at he
                exact hpromoted.trans (head_spec hwp he).1

/-- **One segment of the step task.** -/
theorem body_spec {cfg : EngineConfig} {o : Outcomes τ β ε} {s u : DecodeEngine ν κ τ β ε}
    {r : Option (Point × Exc ε)} (hw : WellFormed cfg s) (he : body cfg o s = some (u, r)) :
    s.Stepping ∧ ∃ ids, Effect cfg ids s u r := by
  -- a raise outside a retirement ends the task and touches no slot
  have hraise : ∀ (p : Point) (e : Exc ε), ¬ p.inFinish → (s, some (p, e)) = (u, r) →
      ∃ ids, Effect cfg ids s u r := by
    intro p e hp heq
    cases heq
    refine ⟨[], Effect.of_same rfl rfl ?_ hw⟩
    rintro p' e' hpe
    cases hpe
    exact hp
  unfold body at he
  unfold Stepping
  cases htask : s.task with
  | absent => simp [htask] at he
  | ended exc => simp [htask] at he
  | created =>
      simp only [htask, Option.some.injEq] at he
      exact ⟨trivial, [], (head_spec hw he).1⟩
  | announcing members stepEnd =>
      simp only [htask, Option.some.injEq] at he
      refine ⟨trivial, ?_⟩
      cases haw : o.awaited with
      | error e =>
          rw [haw] at he
          exact hraise _ _ (by simp [Point.inFinish]) he
      | ok _ =>
          rw [haw] at he
          cases he
          refine ⟨[], Effect.of_same rfl rfl (by simp) ?_⟩
          refine ⟨hw.nodup, hw.live, hw.positive, fun _ => hw.room (.inr ?_), ?_⟩
          · unfold Stepping
            rw [htask]
            trivial
          · intro members' e' hmem
            rcases hmem with hmem | hmem
            · cases hmem
            · cases hmem
              exact hw.frozen members stepEnd (.inl htask)
  | waiting members stepEnd =>
      simp only [htask, Option.some.injEq] at he
      refine ⟨trivial, ?_⟩
      cases haw : o.awaited with
      | error e =>
          rw [haw] at he
          exact hraise _ _ (by simp [Point.inFinish]) he
      | ok _ =>
          rw [haw] at he
          refine stepComplete_spec hw (hw.frozen members stepEnd (.inr htask)) ?_ he
          unfold Stepping
          rw [htask]
          trivial
  | reporting =>
      simp only [htask, Option.some.injEq] at he
      refine ⟨trivial, ?_⟩
      cases haw : o.awaited with
      | error e =>
          rw [haw] at he
          exact hraise _ _ (by simp [Point.inFinish]) he
      | ok _ =>
          rw [haw] at he
          exact ⟨[], (head_spec hw he).1⟩

/-! ## §7. What a raise leaves. -/

theorem leaving_ne_stop (e : Exc ε) : e.leaving ≠ .stopIteration := by
  cases e <;> simp [Exc.leaving]

theorem leaving_eq {e : Exc ε} (h : e ≠ .stopIteration) : e.leaving = e := by
  cases e <;> first | rfl | exact absurd rfl h

theorem caught_eq (p : Point) {e : Exc ε} (h : e ≠ .stopIteration) : caught p e = e := by
  cases p <;> first | rfl | exact leaving_eq h

/-- Only the loop's own calls hand it a `StopIteration`. -/
theorem caught_stop {p : Point} {e : Exc ε} (h : caught p e = .stopIteration) :
    ¬ p.inFinish := by
  cases p with
  | onFinish => exact absurd h (leaving_ne_stop e)
  | generatedKv => exact absurd h (leaving_ne_stop e)
  | _ => exact fun hf => hf.elim

theorem setException_eq {e : Exc ε} (h : e ≠ .stopIteration) :
    (setException e : Except (Exc ε) (Future (Generated τ β) (Exc ε)))
      = .ok (.exception e) := by
  cases e <;> first | rfl | exact absurd rfl h

/-- **The exception to every slot**, by induction on them: an open future takes it,
any other keeps what it has. -/
theorem fail_spec {e : Exc ε} (he : e ≠ .stopIteration) :
    ∀ (l : List (Active ν κ τ)) (fs : List (Future (Generated τ β) (Exc ε))),
      (fail e l fs).2 = none ∧
      (∀ id ∈ l.map Active.done, fs[id]? = some .pending →
        (fail e l fs).1[id]? = some (.exception e)) ∧
      (∀ id, id ∉ l.map Active.done ∨ fs[id]? ≠ some .pending →
        (fail e l fs).1[id]? = fs[id]?)
  | [], fs => ⟨rfl, fun id hid => absurd hid (List.not_mem_nil), fun _ _ => rfl⟩
  | a :: rest, fs => by
      by_cases hopen : fs[a.done]? = some .pending
      · have hstep : fail e (a :: rest) fs = fail e rest (fs.set a.done (.exception e)) := by
          simp only [fail, hopen, setException_eq he]
        have hlen : a.done < fs.length := (List.getElem?_eq_some_iff.mp hopen).1
        have hset : (fs.set a.done (.exception e))[a.done]? = some (.exception e) := by
          simp [hlen]
        obtain ⟨hnone, htold, hkept⟩ := fail_spec he rest (fs.set a.done (.exception e))
        rw [hstep]
        refine ⟨hnone, fun id hid hpend => ?_, fun id hid => ?_⟩
        · by_cases hida : id = a.done
          · subst hida
            rw [hkept _ (.inr (by rw [hset]; simp)), hset]
          · refine htold id ((List.mem_cons.mp hid).resolve_left hida) ?_
            rw [List.getElem?_set_ne (Ne.symm hida)]
            exact hpend
        · have hida : id ≠ a.done := by
            rintro rfl
            exact hid.elim (fun hns => hns (by simp)) fun hne => hne hopen
          have hsame : (fs.set a.done (.exception e))[id]? = fs[id]? :=
            List.getElem?_set_ne (Ne.symm hida)
          rw [hkept id, hsame]
          exact hid.imp (fun hns hmem => hns (List.mem_cons_of_mem _ hmem))
            fun hne => by rw [hsame]; exact hne
      · have hstep : fail e (a :: rest) fs = fail e rest fs := by
          rw [fail]
          split
          · rename_i hpend
            exact absurd hpend hopen
          · rfl
        obtain ⟨hnone, htold, hkept⟩ := fail_spec he rest fs
        rw [hstep]
        refine ⟨hnone, fun id hid hpend => ?_, fun id hid => ?_⟩
        · have hida : id ≠ a.done := fun hida => hopen (hida ▸ hpend)
          exact htold id ((List.mem_cons.mp hid).resolve_left hida) hpend
        · exact hkept id (hid.imp_left fun hns hmem => hns (List.mem_cons_of_mem _ hmem))

/-- What a future takes leaves the loop with no slot. -/
theorem died_eq {e : Exc ε} (he : e ≠ .stopIteration) (u : DecodeEngine ν κ τ β ε) :
    died e u = { u with
      futures := (fail e (u.batch ++ u.pending) u.futures).1
      batch := []
      pending := []
      task := .ended (some e) } := by
  have hnone := (fail_spec he (u.batch ++ u.pending) u.futures).1
  unfold died abandon
  cases hf : fail e (u.batch ++ u.pending) u.futures with
  | mk fs raised =>
      rw [hf] at hnone
      cases hnone
      simp only [leaving_eq he]

/-- **A `StopIteration` the loop catches** is refused by the first future: every slot
stays held and every future open. -/
theorem died_stop {cfg : EngineConfig} {u : DecodeEngine ν κ τ β ε} (hw : WellFormed cfg u)
    (hheld : u.batch ++ u.pending ≠ []) :
    died .stopIteration u = { u with task := .ended (some .typeError) } := by
  have hfail : fail (β := β) .stopIteration (u.batch ++ u.pending) u.futures
      = (u.futures, some .typeError) := by
    cases hl : u.batch ++ u.pending with
    | nil => exact absurd hl hheld
    | cons a rest =>
        have hopen : u.futures[a.done]? = some .pending :=
          hw.live a.done (List.mem_map_of_mem (hl ▸ List.mem_cons_self))
        simp only [fail, hopen, setException]
  unfold died abandon
  rw [hfail]
  rfl

/-- With no slot held there is nobody to refuse it. -/
theorem died_stop_nil {u : DecodeEngine ν κ τ β ε} (hheld : u.batch ++ u.pending = []) :
    died .stopIteration u = { u with task := .ended (some .runtimeError) } := by
  obtain ⟨hb, hp⟩ := List.append_eq_nil_iff.mp hheld
  unfold died abandon
  rw [hheld]
  simp only [fail, Exc.leaving, hb, hp]

/-- No task ends with a `StopIteration`. -/
theorem died_task (e : Exc ε) (u : DecodeEngine ν κ τ β ε) :
    ∃ exc, exc ≠ .stopIteration ∧ (died e u).task = .ended (some exc) := by
  unfold died
  split
  · exact ⟨_, leaving_ne_stop _, rfl⟩
  · exact ⟨_, leaving_ne_stop _, rfl⟩

theorem died_told {e : Exc ε} (he : e ≠ .stopIteration) {u : DecodeEngine ν κ τ β ε}
    {id : ℕ} (hslot : id ∈ u.slots) (hopen : u.Open id) :
    (died e u).futures[id]? = some (.exception e) := by
  rw [died_eq he]
  exact (fail_spec he (u.batch ++ u.pending) u.futures).2.1 id hslot hopen

theorem died_kept {e : Exc ε} (he : e ≠ .stopIteration) {u : DecodeEngine ν κ τ β ε}
    {id : ℕ} (h : id ∉ u.slots ∨ ¬ u.Open id) :
    (died e u).futures[id]? = u.futures[id]? := by
  rw [died_eq he]
  exact (fail_spec he (u.batch ++ u.pending) u.futures).2.2 id h

/-- The futures a dead loop leaves open are the orphans. -/
theorem died_open {e : Exc ε} (he : e ≠ .stopIteration) (u : DecodeEngine ν κ τ β ε)
    (id : ℕ) : (died e u).Open id ↔ u.Orphan id := by
  constructor
  · intro hopen
    unfold Open at hopen
    by_cases hid : u.Orphan id
    · exact hid
    · by_cases hu : u.Open id
      · have hslot : id ∈ u.slots := by
          by_contra hns
          exact hid ⟨hu, hns⟩
        rw [died_told he hslot hu] at hopen
        simp at hopen
      · rw [died_kept he (.inr hu)] at hopen
        exact absurd hopen hu
  · rintro ⟨hopen, hns⟩
    unfold Open
    rw [died_kept he (.inl hns)]
    exact hopen

theorem resume_raise {cfg : EngineConfig} {o : Outcomes τ β ε}
    {s t : DecodeEngine ν κ τ β ε} {p : Point} {e : Exc ε}
    (h : resume cfg o s = some (t, some (p, e))) :
    ∃ u, body cfg o s = some (u, some (p, e)) ∧ t = died (caught p e) u := by
  obtain ⟨⟨u, r⟩, hb, hr⟩ := Option.map_eq_some_iff.mp h
  cases r with
  | none => simp at hr
  | some raised =>
      obtain ⟨p', e'⟩ := raised
      simp only [Prod.mk.injEq, Option.some.injEq] at hr
      obtain ⟨rfl, rfl, rfl⟩ := hr
      exact ⟨u, hb, rfl⟩

/-- **What a dying step loop promises**: everybody admitted has an answer (the
result of a slot that emitted its last token first, the exception otherwise), no
slot is held, and a later admission starts a fresh loop. -/
structure Settled (cfg : EngineConfig) (s t : DecodeEngine ν κ τ β ε) (e : Exc ε) : Prop where
  handed : ∀ id, s.Open id → t.futures[id]? = some (.exception e) ∨
    ∃ a ∈ s.batch, a.done = id ∧ a.remaining = 1 ∧
      ∃ token kv, t.futures[id]? = some (.result ⟨a.tokens ++ [token], kv⟩)
  kept : ∀ (id : ℕ) (f : Future (Generated τ β) (Exc ε)),
    s.futures[id]? = some f → f ≠ .pending → t.futures[id]? = some f
  empty : t.batch = [] ∧ t.pending = []
  ended : t.task = .ended (some e)
  fresh : ∀ (o : Outcomes τ β ε) (now : ℚ) (request : Request ν κ),
    request.decodeTokens ≠ 0 → (admitAtOnce cfg o now request t).task = .created

theorem ensureStepping_created {s : DecodeEngine ν κ τ β ε} (hb : s.batch ≠ [])
    (ht : ¬ s.Stepping) : s.ensureStepping.task = .created := by
  unfold ensureStepping
  rw [if_neg fun hor => hor.elim ht hb]

/-- A second look at a loop that is already there changes nothing. -/
theorem created_admitted {s : DecodeEngine ν κ τ β ε} (done : ℕ)
    (h : s.task = .created) :
    ((admitted done (.ok () : Except (Exc ε) Unit) s).getD s).task = .created := by
  unfold admitted
  by_cases hd : done ∈ s.admitting
  · rw [if_pos hd]
    show (ensureStepping { s with admitting := s.admitting.erase done }).task = _
    unfold ensureStepping
    split <;> simp [h]
  · rw [if_neg hd]
    exact h

/-- An admission to an engine without a loop starts one. -/
theorem fresh_loop {cfg : EngineConfig} (hroom : 0 < cfg.maxBatch)
    {t : DecodeEngine ν κ τ β ε} (hb : t.batch = []) (ht : ¬ t.Stepping)
    (o : Outcomes τ β ε) (now : ℚ) {request : Request ν κ}
    (hreq : request.decodeTokens ≠ 0) : (admitAtOnce cfg o now request t).task = .created := by
  have henter : (enter cfg now request t).batch ≠ [] := by
    unfold enter
    simp [hb, hroom]
  have htask : (enter cfg now request t).task = t.task := by
    unfold enter
    split <;> rfl
  have hnot : ¬ (enter cfg now request t).Stepping := by
    unfold Stepping at ht ⊢
    rw [htask]
    exact ht
  unfold admitAtOnce admitRequest
  rw [if_neg hreq]
  by_cases hstate : cfg.onState = true
  · rw [if_pos hstate]
    unfold admitted
    simp only [List.mem_append, List.mem_singleton, or_true, if_true, Option.getD_some]
    exact ensureStepping_created henter hnot
  · rw [if_neg hstate]
    exact created_admitted _ (ensureStepping_created henter hnot)

/-- A dying loop, from a well-formed state. -/
theorem settled_of_wellFormed {cfg : EngineConfig} {s t : DecodeEngine ν κ τ β ε}
    (hw : WellFormed cfg s) {o : Outcomes τ β ε} {p : Point} {e : Exc ε}
    (h : resume cfg o s = some (t, some (p, e))) :
    Settled cfg s t e ↔ s.NoOrphan ∧ ¬ p.inFinish ∧ e ≠ .stopIteration := by
  obtain ⟨u, hb, rfl⟩ := resume_raise h
  obtain ⟨hst, ids, heff⟩ := body_spec hw hb
  constructor
  · intro hs
    have he : e ≠ .stopIteration := by
      rintro rfl
      obtain ⟨exc, hexc, htask⟩ := died_task (caught p .stopIteration) u
      have hended := hs.ended
      rw [htask] at hended
      simp only [StepTask.ended.injEq, Option.some.injEq] at hended
      exact hexc hended
    rw [caught_eq p he] at hs
    -- whatever stays open was open before, and had to be answered
    have hclosed : ∀ id, ¬ u.Orphan id := by
      intro id hid
      have hopen := (died_open he u id).mpr hid
      have hread : (died e u).futures[id]? = some .pending := hopen
      rcases hs.handed id (heff.opened id hid.1) with hexc | ⟨a, _, _, _, tok, kv, hres⟩
      · rw [hread] at hexc
        simp at hexc
      · rw [hread] at hres
        simp at hres
    refine ⟨fun id hid => hclosed id (heff.orphan_mono id hid), fun hin => ?_, he⟩
    obtain ⟨id, hid⟩ := heff.orphan_lost p e rfl hin
    exact hclosed id hid
  · rintro ⟨hno, hnot, he⟩
    rw [caught_eq p he]
    have hback : ∀ id, ¬ u.Orphan id := fun id hid =>
      hno id (heff.orphan_back (by rintro p' e' hpe; cases hpe; exact hnot) id hid)
    have hdied := died_eq he u
    refine ⟨?_, ?_, ⟨by rw [hdied], by rw [hdied]⟩, by rw [hdied], ?_⟩
    · intro id hid
      rcases heff.retired id hid with hopen | ⟨_, a, ha, had, har, tok, kv, hres⟩
      · have hslot : id ∈ u.slots := by
          by_contra hns
          exact hback id ⟨hopen, hns⟩
        refine .inl ?_
        exact died_told he hslot hopen
      · refine .inr ⟨a, ha, had, har, tok, kv, ?_⟩
        have hclosed : ¬ u.Open id := fun hopen => by
          unfold Open at hopen
          rw [hres] at hopen
          simp at hopen
        rw [died_kept he (.inr hclosed), hres]
    · intro id f hid hf
      have hkept := heff.kept id f hid hf
      have hclosed : ¬ u.Open id := fun hopen => by
        unfold Open at hopen
        rw [hkept] at hopen
        exact hf (Option.some.inj hopen)
      rw [died_kept he (.inr hclosed), hkept]
    · intro o' now request hreq
      refine fresh_loop (hw.room (.inr hst)) (by rw [hdied]) ?_ o' now hreq
      rw [hdied]
      exact fun hstep => hstep

/-! ## §8. Whole runs. -/

theorem wellFormed_new (cfg : EngineConfig) :
    WellFormed cfg (new : DecodeEngine ν κ τ β ε) where
  nodup := List.nodup_nil
  live id hid := by simp [slots, new] at hid
  positive a ha := by simp [new] at ha
  room hor := by simp [new, Stepping] at hor
  frozen members stepEnd hor := by simp [new] at hor

theorem wellFormed_died {cfg : EngineConfig} {e : Exc ε} {u : DecodeEngine ν κ τ β ε}
    (hw : e = .stopIteration → WellFormed cfg u) : WellFormed cfg (died e u) := by
  by_cases he : e = .stopIteration
  · subst he
    have hu := hw rfl
    -- refused, with every slot held: the task is all that moved
    have hended : ∀ exc, WellFormed cfg { u with task := .ended (some exc) } := fun exc =>
      ⟨hu.nodup, hu.live, hu.positive,
        fun hor => hor.elim (fun hb => hu.room (.inl hb)) fun hst => hst.elim, by simp⟩
    by_cases hheld : u.batch ++ u.pending = []
    · rw [died_stop_nil hheld]
      exact hended _
    · rw [died_stop hu hheld]
      exact hended _
  · rw [died_eq he]
    exact ⟨List.nodup_nil, fun id hid => by simp [slots] at hid,
      fun a ha => by simp at ha,
      fun hor => hor.elim (fun hb => absurd rfl hb) fun hst => hst.elim, by simp⟩

/-- Only the slots, their futures and the task matter; a task may start over a
held batch. -/
theorem WellFormed.congr {cfg : EngineConfig} {s u : DecodeEngine ν κ τ β ε}
    (h : WellFormed cfg s) (hb : u.batch = s.batch) (hp : u.pending = s.pending)
    (hf : ∀ id ∈ s.slots, s.Open id → u.Open id)
    (ht : u.task = s.task ∨ u.task = .created ∧ u.batch ≠ []) : WellFormed cfg u := by
  have hslots : u.slots = s.slots := by
    unfold slots
    rw [hb, hp]
  refine ⟨by rw [hslots]; exact h.nodup, ?_, by rw [hb, hp]; exact h.positive, ?_, ?_⟩
  · intro id hid
    rw [hslots] at hid
    exact hf id hid (h.live id hid)
  · rcases ht with ht | ⟨_, hne⟩
    · rintro (hne | hst)
      · exact h.room (.inl (hb ▸ hne))
      · refine h.room (.inr ?_)
        unfold Stepping at hst ⊢
        rw [ht] at hst
        exact hst
    · exact fun _ => h.room (.inl (hb ▸ hne))
  · rcases ht with ht | ⟨ht, _⟩
    · rw [ht]
      exact h.frozen
    · intro members stepEnd hor
      simp [ht] at hor

theorem WellFormed.ensureStepping {cfg : EngineConfig} {s : DecodeEngine ν κ τ β ε}
    (h : WellFormed cfg s) : WellFormed cfg s.ensureStepping := by
  unfold DecodeEngine.ensureStepping
  split
  · exact h
  · rename_i hnot
    exact h.congr rfl rfl (fun _ _ hopen => hopen)
      (.inr ⟨rfl, fun hb => hnot (.inr hb)⟩)

/-- A fresh future is no slot's yet. -/
theorem WellFormed.fresh {cfg : EngineConfig} {s : DecodeEngine ν κ τ β ε}
    (h : WellFormed cfg s) {id : ℕ} (hid : id ∈ s.slots) : id < s.futures.length :=
  (List.getElem?_eq_some_iff.mp (h.live id hid)).1

theorem enter_slots (cfg : EngineConfig) (now : ℚ) (request : Request ν κ)
    (s : DecodeEngine ν κ τ β ε) :
    (enter cfg now request s).slots.Perm (s.futures.length :: s.slots) := by
  unfold enter slots
  split
  · simp only [List.append_assoc, List.map_append, List.map_cons, List.singleton_append]
    exact List.perm_middle
  · simp only [List.map_append, List.map_cons, List.map_nil, ← List.append_assoc]
    exact List.perm_append_singleton _ _

theorem enter_futures (cfg : EngineConfig) (now : ℚ) (request : Request ν κ)
    (s : DecodeEngine ν κ τ β ε) :
    (enter cfg now request s).futures = s.futures ++ [.pending] := by
  unfold enter
  split <;> rfl

theorem WellFormed.enter {cfg : EngineConfig} {s : DecodeEngine ν κ τ β ε}
    (h : WellFormed cfg s) (now : ℚ) {request : Request ν κ}
    (hreq : request.decodeTokens ≠ 0) :
    WellFormed cfg (DecodeEngine.enter cfg now request s) := by
  have hperm := enter_slots cfg now request s
  have htask : (DecodeEngine.enter cfg now request s).task = s.task := by
    unfold DecodeEngine.enter
    split <;> rfl
  have hpos : 0 < request.decodeTokens :=
    lt_of_le_of_ne (le_max_left _ _) (Ne.symm hreq)
  constructor
  case nodup =>
    refine (hperm.nodup_iff).mpr (List.nodup_cons.mpr ⟨fun hid => ?_, h.nodup⟩)
    exact absurd (h.fresh hid) (lt_irrefl _)
  case live =>
    intro id hid
    unfold Open
    rw [enter_futures]
    rcases List.mem_cons.mp (hperm.mem_iff.mp hid) with rfl | hid
    · simp
    · rw [List.getElem?_append_left (h.fresh hid)]
      exact h.live id hid
  case positive =>
    intro b hb
    have hold : b ∈ s.batch ++ s.pending ∨ b.remaining = request.decodeTokens := by
      unfold DecodeEngine.enter at hb
      split at hb <;> simp only [List.mem_append, List.mem_singleton] at hb ⊢
      · rcases hb with (hb | rfl) | hb
        · exact .inl (.inl hb)
        · exact .inr rfl
        · exact .inl (.inr hb)
      · rcases hb with hb | hb | rfl
        · exact .inl (.inl hb)
        · exact .inl (.inr hb)
        · exact .inr rfl
    rcases hold with hold | hold
    · exact h.positive b hold
    · omega
  case room =>
    unfold Stepping
    rw [htask]
    rintro (hne | hst)
    · unfold DecodeEngine.enter at hne
      split at hne
      · omega
      · exact h.room (.inl hne)
    · exact h.room (.inr hst)
  case frozen =>
    rw [htask]
    exact h.frozen

/-- Everything an admission up to its report can do. -/
theorem admit_cases (cfg : EngineConfig) (o : Outcomes τ β ε) (now : ℚ)
    (request : Request ν κ) (s : DecodeEngine ν κ τ β ε) :
    (∃ log, admitRequest cfg o now request s = { s with finished := log }) ∨
    (∃ log g, admitRequest cfg o now request s
      = { s with finished := log, futures := s.futures ++ [.result g] }) ∨
    (request.decodeTokens ≠ 0 ∧
      (admitRequest cfg o now request s = { enter cfg now request s with
          admitting := s.admitting ++ [s.futures.length] } ∨
        admitRequest cfg o now request s = (enter cfg now request s).ensureStepping)) := by
  unfold admitRequest
  by_cases hreq : request.decodeTokens = 0
  · rw [if_pos hreq]
    obtain ⟨log, ⟨p, e, _, hfin⟩ | ⟨kv, hfin⟩⟩ := finish_cases cfg o
      { s with futures := s.futures ++ [Future.pending] } request 0 s.futures.length []
    · exact .inl ⟨log, by rw [hfin]⟩
    · exact .inr (.inl ⟨log, ⟨[], kv⟩, by rw [hfin]; simp⟩)
  · rw [if_neg hreq]
    refine .inr (.inr ⟨hreq, ?_⟩)
    by_cases hstate : cfg.onState = true
    · exact .inl (if_pos hstate)
    · exact .inr (if_neg hstate)

/-- An admission that returned from its report, or raised out of it. -/
theorem admitted_cases {done : ℕ} {report : Except (Exc ε) Unit} {s t : DecodeEngine ν κ τ β ε}
    (h : admitted done report s = some t) :
    t = { s with admitting := s.admitting.erase done } ∨
      t = ensureStepping { s with admitting := s.admitting.erase done } := by
  unfold admitted at h
  by_cases hd : done ∈ s.admitting
  · rw [if_pos hd] at h
    cases report with
    | error e =>
        cases h
        exact .inl rfl
    | ok _ =>
        cases h
        exact .inr rfl
  · rw [if_neg hd] at h
    cases h

theorem wellFormed_step {cfg : EngineConfig} {s t : DecodeEngine ν κ τ β ε}
    {ev : Event ν κ τ β ε} (h : WellFormed cfg s) (hs : next cfg s ev = some t) :
    WellFormed cfg t := by
  cases ev with
  | admitRequest o now request =>
      cases hs
      rcases admit_cases cfg o now request s with ⟨log, ha⟩ | ⟨log, g, ha⟩ | ⟨hreq, ha | ha⟩
      · rw [ha]
        exact h.congr rfl rfl (fun _ _ hopen => hopen) (.inl rfl)
      · rw [ha]
        refine h.congr rfl rfl (fun id hid hopen => ?_) (.inl rfl)
        show (s.futures ++ [.result g])[id]? = some .pending
        rw [List.getElem?_append_left (h.fresh hid)]
        exact hopen
      · rw [ha]
        exact (h.enter now hreq).congr rfl rfl (fun _ _ hopen => hopen) (.inl rfl)
      · rw [ha]
        exact (h.enter now hreq).ensureStepping
  | admitted done report =>
      have hw : WellFormed cfg { s with admitting := s.admitting.erase done } :=
        h.congr rfl rfl (fun _ _ hopen => hopen) (.inl rfl)
      rcases admitted_cases hs with rfl | rfl
      · exact hw
      · exact hw.ensureStepping
  | step o =>
      obtain ⟨⟨t', r⟩, hres, rfl⟩ := Option.map_eq_some_iff.mp hs
      cases r with
      | some raised =>
          obtain ⟨p, e⟩ := raised
          obtain ⟨u, hb, rfl⟩ := resume_raise hres
          obtain ⟨_, _, heff⟩ := body_spec h hb
          refine wellFormed_died fun hstop => heff.wellFormed ?_
          rintro p' e' hpe
          cases hpe
          exact caught_stop hstop
      | none =>
          obtain ⟨⟨u, r⟩, hb, hr⟩ := Option.map_eq_some_iff.mp hres
          cases r with
          | some raised => simp at hr
          | none =>
              cases hr
              obtain ⟨_, _, heff⟩ := body_spec h hb
              exact heff.wellFormed (by simp)

theorem wellFormed_of_run {cfg : EngineConfig} {s : DecodeEngine ν κ τ β ε}
    (h : (machine cfg).Reachable s) : WellFormed cfg s := by
  refine h.invariant (P := WellFormed cfg) ?_ fun _ _ _ hw hs => wellFormed_step hw hs
  rintro _ rfl
  exact wellFormed_new cfg

/-- **Exactly when a dying step loop settles everybody**: nobody was orphaned
before, the raise is not inside `_finish`, and it is no `StopIteration`. -/
theorem settled_iff (cfg : EngineConfig) {s t : DecodeEngine ν κ τ β ε}
    (hr : (machine cfg).Reachable s) {o : Outcomes τ β ε} {p : Point} {e : Exc ε}
    (h : resume cfg o s = some (t, some (p, e))) :
    Settled cfg s t e ↔ s.NoOrphan ∧ ¬ p.inFinish ∧ e ≠ .stopIteration :=
  settled_of_wellFormed (wellFormed_of_run hr) h

/-! ### A batch of one, with two ways to die -/

/-- A host that records its rows and reports to nobody. -/
def soloConfig : EngineConfig := ⟨1, true, false, false⟩

/-- A request with one token to decode. -/
def soloRequest : Request ℕ ℕ := ⟨0, 0, [], 0, 2, 0, "", rfl⟩

/-- A segment in which nothing raises. -/
def smooth : Outcomes Unit Unit Unit :=
  ⟨.ok (), .ok 1, .ok [()], fun _ => .ok (), fun _ _ => .ok [], .ok ()⟩

/-- The request of the one slot, waiting for its only step to end. -/
def soloWaiting : DecodeEngine ℕ ℕ Unit Unit Unit :=
  ⟨[⟨soloRequest, 1, 0, 0, 0, []⟩], [], [.pending], .waiting [0] 1, [], []⟩

theorem soloWaiting_reachable : (machine soloConfig).Reachable soloWaiting :=
  Machine.Reachable.of_replay (fun _ _ _ hst => hst)
    [.admitRequest smooth 0 soloRequest, .step smooth] (.init rfl) (by decide +kernel)

/-- **The dropped future**: `on_finish` raises while the slot it reports is
between the batch and its result. -/
theorem dropped_finish :
    ¬ ∀ (s t : DecodeEngine ℕ ℕ Unit Unit Unit) (o : Outcomes Unit Unit Unit) (p : Point)
        (e : Exc Unit), (machine soloConfig).Reachable s →
        resume soloConfig o s = some (t, some (p, e)) → Settled soloConfig s t e := by
  intro hall
  have hraise : resume soloConfig { smooth with onFinish := fun _ => .error (.other ()) }
      soloWaiting
      = some (⟨[], [], [.pending], .ended (some (.other ())), [], []⟩,
          some (.onFinish, .other ())) := by
    decide +kernel
  rcases (hall _ _ _ _ _ soloWaiting_reachable hraise).handed 0 (by rfl) with
    h | ⟨_, _, _, _, _, _, h⟩
  · simp at h
  · simp at h

/-- A host with two slots that reports to somebody. -/
def pairConfig : EngineConfig := ⟨2, true, false, true⟩

/-- A request with `n` tokens to decode. -/
def asking (n : ℕ) : Request ℕ ℕ := ⟨0, 0, [], 0, n + 1, 0, "", rfl⟩

/-- A segment of a step that ends at `stepEnd`, with a token for either slot. -/
def stepTo (stepEnd : ℚ) : Outcomes Unit Unit Unit :=
  { smooth with claimStep := .ok stepEnd, stepTokens := .ok [(), ()] }

/-- The second step of a full batch: the first request retired after the first step,
and the fourth is queued. -/
def pairWaiting : DecodeEngine ℕ ℕ Unit Unit Unit :=
  ⟨[⟨asking 3, 2, 1, 1, 1, [()]⟩, ⟨asking 1, 1, 0, 2, 0, []⟩], [⟨asking 2, 2, 0, 3, 0, []⟩],
    [.result ⟨[()], []⟩, .pending, .pending, .pending], .waiting [1, 2] 2, [],
    [(asking 1, 1)]⟩

theorem pairWaiting_reachable : (machine pairConfig).Reachable pairWaiting :=
  Machine.Reachable.of_replay (fun _ _ _ hst => hst)
    [.admitRequest smooth 0 (asking 1), .admitted 0 (.ok ()),
      .admitRequest smooth 0 (asking 3), .admitted 1 (.ok ()),
      .admitRequest smooth 0 (asking 1), .admitted 2 (.ok ()),
      .admitRequest smooth 0 (asking 2), .admitted 3 (.ok ()),
      .step (stepTo 1), .step (stepTo 1), .step (stepTo 2)] (.init rfl) (by decide +kernel)

/-- A report that raises after the third request retired and the fourth took its slot
leaves nobody behind. -/
theorem settled_report :
    Settled pairConfig pairWaiting
      ⟨[], [], [.result ⟨[()], []⟩, .exception (.other ()), .result ⟨[()], []⟩,
        .exception (.other ())], .ended (some (.other ())), [],
        [(asking 1, 1), (asking 1, 2)]⟩ (.other ()) := by
  refine (settled_iff pairConfig pairWaiting_reachable
    (o := { stepTo 2 with stepCost := .error (.other ()) }) (p := .report) (e := .other ())
    (by decide +kernel)).mpr ⟨?_, by decide, by decide⟩
  rintro id ⟨hopen, hns⟩
  have hlt : id < 4 := (List.getElem?_eq_some_iff.mp hopen).1
  obtain rfl | hslot : id = 0 ∨ id ∈ pairWaiting.slots := by
    simp only [pairWaiting, slots, List.map, List.cons_append, List.nil_append,
      List.mem_cons, List.not_mem_nil, or_false]
    omega
  · simp [Open, pairWaiting] at hopen
  · exact hns hslot

/-- A step whose raise, if any, is outside `_finish`. -/
def Unharmed (cfg : EngineConfig) (s : DecodeEngine ν κ τ β ε) :
    Event ν κ τ β ε → Prop
  | .step o => ∀ t p e, resume cfg o s = some (t, some (p, e)) → ¬ p.inFinish
  | _ => True

theorem noOrphan_step {cfg : EngineConfig} {s t : DecodeEngine ν κ τ β ε}
    {ev : Event ν κ τ β ε} (hw : WellFormed cfg s) (hno : s.NoOrphan)
    (hok : Unharmed cfg s ev) (hs : next cfg s ev = some t) : t.NoOrphan := by
  -- an unmoved slot list over unmoved open futures
  have hsame : ∀ u : DecodeEngine ν κ τ β ε, u.slots = s.slots →
      (∀ id, u.Open id → s.Open id) → u.NoOrphan := by
    intro u hslots hopen id hid
    exact hno id ⟨hopen id hid.1, hslots ▸ hid.2⟩
  have henter : ∀ (now : ℚ) (request : Request ν κ), (enter cfg now request s).NoOrphan := by
    rintro now request id ⟨hopen, hns⟩
    have hmem := (enter_slots cfg now request s).mem_iff (a := id)
    unfold Open at hopen
    rw [enter_futures] at hopen
    have hne : id ≠ s.futures.length := fun heq =>
      hns (hmem.mpr (by simp [heq]))
    have hlt : id < s.futures.length := by
      have hlen := (List.getElem?_eq_some_iff.mp hopen).1
      simp only [List.length_append, List.length_singleton] at hlen
      omega
    rw [List.getElem?_append_left hlt] at hopen
    exact hno id ⟨hopen, fun hid => hns (hmem.mpr (List.mem_cons_of_mem _ hid))⟩
  have hensure : ∀ u : DecodeEngine ν κ τ β ε, u.NoOrphan → u.ensureStepping.NoOrphan := by
    intro u hu
    unfold ensureStepping
    split
    · exact hu
    · exact hu
  cases ev with
  | admitRequest o now request =>
      cases hs
      rcases admit_cases cfg o now request s with ⟨log, ha⟩ | ⟨log, g, ha⟩ | ⟨_, ha | ha⟩
      · rw [ha]
        exact hsame _ rfl fun _ hid => hid
      · rw [ha]
        refine hsame _ rfl fun id hid => ?_
        have hid' : (s.futures ++ [.result g])[id]? = some .pending := hid
        by_cases hlt : id < s.futures.length
        · rw [List.getElem?_append_left hlt] at hid'
          exact hid'
        · rw [List.getElem?_append_right (not_lt.mp hlt)] at hid'
          cases hz : id - s.futures.length <;> simp [hz] at hid'
      · rw [ha]
        exact henter now request
      · rw [ha]
        exact hensure _ (henter now request)
  | admitted done report =>
      rcases admitted_cases hs with rfl | rfl
      · exact hsame _ rfl fun _ hid => hid
      · exact hensure _ (hsame _ rfl fun _ hid => hid)
  | step o =>
      obtain ⟨⟨t', r⟩, hres, rfl⟩ := Option.map_eq_some_iff.mp hs
      cases r with
      | some raised =>
          obtain ⟨p, e⟩ := raised
          have hp : ∀ p' e', some (p, e) = some (p', e') → ¬ p'.inFinish := by
            rintro p' e' hpe
            cases hpe
            exact hok _ p e hres
          obtain ⟨u, hb, rfl⟩ := resume_raise hres
          obtain ⟨_, _, heff⟩ := body_spec hw hb
          intro id hid
          refine hno id (heff.orphan_back hp id ?_)
          by_cases hstop : caught p e = .stopIteration
          · -- refused: the slots and their futures are as they were
            rw [hstop] at hid
            by_cases hheld : u.batch ++ u.pending = []
            · rw [died_stop_nil hheld] at hid
              exact hid
            · rw [died_stop (heff.wellFormed hp) hheld] at hid
              exact hid
          · exact (died_open hstop u id).mp hid.1
      | none =>
          obtain ⟨⟨u, r⟩, hb, hr⟩ := Option.map_eq_some_iff.mp hres
          cases r with
          | some raised => simp at hr
          | none =>
              cases hr
              obtain ⟨_, _, heff⟩ := body_spec hw hb
              exact fun id hid => hno id (heff.orphan_back (by simp) id hid)

/-- **No future is orphaned** in a run whose raises are all outside `_finish`. -/
theorem noOrphan_of_run {cfg : EngineConfig} {s : DecodeEngine ν κ τ β ε}
    (h : ((machine cfg).guarded (Unharmed cfg)).Reachable s) : s.NoOrphan := by
  have hboth : WellFormed cfg s ∧ s.NoOrphan := by
    refine h.guarded_invariant (P := fun s => WellFormed cfg s ∧ s.NoOrphan) ?_ ?_
    · rintro _ rfl
      refine ⟨wellFormed_new cfg, fun id hid => ?_⟩
      have hopen := hid.1
      unfold Open new at hopen
      simp at hopen
    · rintro _ _ _ ⟨hw, hno⟩ hok hs
      exact ⟨wellFormed_step hw hs, noOrphan_step hw hno hok hs⟩
  exact hboth.2

end DecodeEngine

end Toso.KvCache
