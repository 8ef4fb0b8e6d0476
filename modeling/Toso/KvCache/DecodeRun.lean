/-
  Toso.KvCache.DecodeRun — whole runs of one decode engine in which nothing raises.

  The engine's machine with the clock its segments are stamped with and four
  records of what happened: who was admitted and when, the steps that ended with
  the tokens they emitted, who entered the batch in which order, and whose future
  was resolved in which order.

  Main results:
    * `emit_smooth` — what the loop of a step does to the members it froze.
    * `accounted_of_run` — the batch, the queue, the loop and the books of every
      state such a run reaches.
    * `served_of_fair` — nobody waits forever for a last token.
    * `decode_served` — what every admission gets.
-/
import Toso.KvCache.DecodeEngine
import Toso.Lib.Progress
import Mathlib.Order.Bounds.Basic
import Mathlib.Algebra.Order.BigOperators.Group.List
import Mathlib.Data.List.Sort

namespace Toso.KvCache

open Lib

/-! ## §1. The records of a run. -/

/-- A step that ended: the members it froze, its end, and the tokens it emitted. -/
structure Step (τ : Type*) where
  members : List ℕ
  stepEnd : ℚ
  tokens : List τ
  deriving DecidableEq

/-- The token a step emitted for one of its members. -/
def Step.tokenFor {τ : Type*} (st : Step τ) (id : ℕ) : Option τ :=
  ((st.members.zip st.tokens).find? fun p => p.1 = id).map Prod.snd

/-- The time between two tokens, the first counted from `last`. -/
def gaps : ℚ → List ℚ → List ℚ
  | _, [] => []
  | last, t :: ts => (t - last) :: gaps t ts

/-- The largest of them, `0.0` where there are none. -/
def worstGap (last : ℚ) (ts : List ℚ) : ℚ := (gaps last ts).foldl max 0

/-- A run of a `DecodeEngine`.  Futures are numbered in the order of their admissions:
`arrivals` gives the request and the instant of each. -/
structure DecodeRun (ν κ τ β ε : Type*) where
  engine : DecodeEngine ν κ τ β ε
  clock : ℚ
  arrivals : List (Request ν κ × ℚ)
  steps : List (Step τ)
  /-- Who entered the batch, in the order they did. -/
  entered : List ℕ
  /-- Whose future was resolved, in the order they were. -/
  retired : List ℕ
  deriving DecidableEq

variable {ν κ τ β ε : Type*}

/-- A segment in which nothing raises: the end `claim_step` answers with, the tokens of
the step, and the KV of whoever retires. -/
def Outcomes.smooth (stepEnd : ℚ) (tokens : List τ) (kv : ℕ → ℕ → List β) : Outcomes τ β ε where
  awaited := .ok ()
  claimStep := .ok stepEnd
  stepTokens := .ok tokens
  onFinish _ := .ok ()
  generatedKv done positions := .ok (kv done positions)
  stepCost := .ok ()

/-- A future holds a result. -/
def Future.Resolved {α : Type*} : Option (Future α ε) → Prop
  | some (.result _) => True
  | _ => False

instance {α : Type*} (f : Option (Future α ε)) : Decidable (Future.Resolved f) := by
  unfold Future.Resolved
  split <;> infer_instance

namespace DecodeRun

/-! ## §2. The machine. -/

/-- The engine is `t` from `now` on; what its batch and its futures gained goes on
record. -/
def follow (s : DecodeRun ν κ τ β ε) (now : ℚ) (t : DecodeEngine ν κ τ β ε) :
    DecodeRun ν κ τ β ε :=
  { s with
    engine := t
    clock := now
    entered := s.entered ++ (t.batch.map Active.done).filter
      (· ∉ s.engine.batch.map Active.done)
    retired := s.retired ++ (List.range t.futures.length).filter fun id =>
      Future.Resolved t.futures[id]? ∧ ¬ Future.Resolved s.engine.futures[id]? }

/-- The step that ends in a segment, if one does. -/
def ending (s : DecodeRun ν κ τ β ε) (tokens : List τ) : List (Step τ) :=
  match s.engine.task with
  | .waiting members stepEnd => [⟨members, stepEnd, tokens⟩]
  | _ => []

/-- What the accelerator promises of a segment at `now`: `claim_step` answers with a time
not before it, `wait_until` returns no earlier than asked, and `step_tokens` emits one
token per member. -/
def Kept (s : DecodeRun ν κ τ β ε) (now stepEnd : ℚ) (tokens : List τ) : Prop :=
  now ≤ stepEnd ∧
    match s.engine.task with
    | .waiting members due => due ≤ now ∧ tokens.length = members.length
    | _ => True

instance (s : DecodeRun ν κ τ β ε) (now stepEnd : ℚ) (tokens : List τ) :
    Decidable (s.Kept now stepEnd tokens) := by
  unfold Kept
  split <;> infer_instance

/-- What can happen next, and when. -/
inductive Event (ν κ β τ : Type*)
  /-- `admit` up to its report. -/
  | admission (now : ℚ) (request : Request ν κ) (kv : ℕ → ℕ → List β)
  /-- An admission comes back from its report. -/
  | admitted (now : ℚ) (done : ℕ)
  /-- One segment of the step task. -/
  | step (now stepEnd : ℚ) (tokens : List τ) (kv : ℕ → ℕ → List β)

/-- One segment of one coroutine, at an instant no earlier than the last. -/
def next (cfg : EngineConfig) (s : DecodeRun ν κ τ β ε) :
    Event ν κ β τ → Option (DecodeRun ν κ τ β ε)
  | .admission now request kv =>
      if s.clock ≤ now then
        (DecodeEngine.next cfg s.engine
          (.admitRequest (.smooth now [] kv) now request)).map fun t =>
            { s.follow now t with arrivals := s.arrivals ++ [(request, now)] }
      else none
  | .admitted now done =>
      if s.clock ≤ now then
        (DecodeEngine.next cfg s.engine (.admitted done (.ok ()))).map fun t => s.follow now t
      else none
  | .step now stepEnd tokens kv =>
      if s.clock ≤ now ∧ s.Kept now stepEnd tokens then
        (DecodeEngine.next cfg s.engine (.step (.smooth stepEnd tokens kv))).map fun t =>
          { s.follow now t with steps := s.steps ++ s.ending tokens }
      else none

/-- The runs of a fresh engine. -/
def machine (cfg : EngineConfig) : Machine (DecodeRun ν κ τ β ε) (Event ν κ β τ) :=
  .ofPartial (fun s => ∃ now, s = ⟨.new, now, [], [], [], []⟩) (next cfg)

/-! ## §3. What was emitted for whom. -/

/-- The ends of the steps `id` was a member of. -/
def times (s : DecodeRun ν κ τ β ε) (id : ℕ) : List ℚ :=
  s.steps.filterMap fun st => if id ∈ st.members then some st.stepEnd else none

/-- The tokens those steps emitted for it. -/
def tokens (s : DecodeRun ν κ τ β ε) (id : ℕ) : List τ :=
  s.steps.filterMap fun st => st.tokenFor id

/-- What `on_finish` should be told of `id`. -/
def report (s : DecodeRun ν κ τ β ε) (id : ℕ) : Option (Request ν κ × ℚ) :=
  s.arrivals[id]?.map fun arrival => (arrival.1, worstGap arrival.2 (s.times id))

end DecodeRun

/-! ## §4. The loop of a step. -/

namespace DecodeEngine

/-- A slot retired: reported, and its future resolved. -/
def settle (cfg : EngineConfig) (kv : ℕ → ℕ → List β) (s : DecodeEngine ν κ τ β ε)
    (a : Active ν κ τ) : DecodeEngine ν κ τ β ε :=
  { s with
    finished := if cfg.onFinish then s.finished ++ [(a.request, a.tbtMax)] else s.finished
    futures := s.futures.set a.done (.result ⟨a.tokens, kv a.done a.tokens.length⟩) }

/-- The members of a step, each with its token. -/
def landing (stepEnd : ℚ) (members : List (Active ν κ τ)) (tokens : List τ) :
    List (Active ν κ τ) :=
  List.zipWith (fun a token => stepped a stepEnd token) members tokens

/-- Whoever emitted its last token. -/
def leaving (stepEnd : ℚ) (members : List (Active ν κ τ)) (tokens : List τ) :
    List (Active ν κ τ) :=
  (landing stepEnd members tokens).filter (·.remaining = 0)

/-- Whoever has more to go. -/
def staying (stepEnd : ℚ) (members : List (Active ν κ τ)) (tokens : List τ) :
    List (Active ν κ τ) :=
  (landing stepEnd members tokens).filter (·.remaining ≠ 0)

theorem finish_smooth (cfg : EngineConfig) (stepEnd : ℚ) (tks : List τ) (kv : ℕ → ℕ → List β)
    (s : DecodeEngine ν κ τ β ε) (a : Active ν κ τ) :
    finish cfg (.smooth stepEnd tks kv) s a.request a.tbtMax a.done a.tokens
      = (settle cfg kv s a, none) := by
  unfold finish settle Outcomes.smooth
  cases hf : cfg.onFinish
  · simp
  · simp

theorem find?_of_nodup {kept rest : List (Active ν κ τ)} {a : Active ν κ τ}
    (h : ((kept ++ a :: rest).map Active.done).Nodup) :
    (kept ++ a :: rest).find? (fun c => decide (c.done = a.done)) = some a := by
  rw [List.map_append, List.nodup_append] at h
  rw [List.find?_append]
  have hkept : kept.find? (fun c => decide (c.done = a.done)) = none := by
    rw [List.find?_eq_none]
    intro c hc heq
    rw [decide_eq_true_iff] at heq
    exact h.2.2 c.done (List.mem_map_of_mem hc) a.done (by simp) heq
  rw [hkept]
  simp

theorem filter_of_nodup {kept rest : List (Active ν κ τ)} {a : Active ν κ τ}
    (h : ((kept ++ a :: rest).map Active.done).Nodup) :
    (kept ++ a :: rest).filter (fun c => decide (c.done ≠ a.done)) = kept ++ rest := by
  rw [List.map_append, List.map_cons, List.nodup_append, List.nodup_cons] at h
  obtain ⟨_, ⟨ha, _⟩, hapart⟩ := h
  have hkept : kept.filter (fun c => decide (c.done ≠ a.done)) = kept := by
    rw [List.filter_eq_self]
    intro c hc
    rw [decide_eq_true_iff]
    exact hapart c.done (List.mem_map_of_mem hc) a.done List.mem_cons_self
  have hrest : rest.filter (fun c => decide (c.done ≠ a.done)) = rest := by
    rw [List.filter_eq_self]
    intro c hc
    rw [decide_eq_true_iff]
    intro heq
    exact ha (heq ▸ List.mem_map_of_mem hc)
  rw [List.filter_append, hkept, List.filter_cons, hrest]
  simp

theorem map_of_nodup {kept rest : List (Active ν κ τ)} {a b : Active ν κ τ}
    (h : ((kept ++ a :: rest).map Active.done).Nodup) :
    (kept ++ a :: rest).map (fun c => if c.done = a.done then b else c) = kept ++ b :: rest := by
  rw [List.map_append, List.map_cons, List.nodup_append, List.nodup_cons] at h
  obtain ⟨_, ⟨ha, _⟩, hapart⟩ := h
  have hother : ∀ l : List (Active ν κ τ), (∀ c ∈ l, c.done ≠ a.done) →
      l.map (fun c => if c.done = a.done then b else c) = l := by
    intro l hl
    conv_rhs => rw [← List.map_id l]
    exact List.map_congr_left fun c hc => if_neg (hl c hc)
  have hkept := hother kept fun c hc =>
    hapart c.done (List.mem_map_of_mem hc) a.done List.mem_cons_self
  have hrest := hother rest fun c hc heq => ha (heq ▸ List.mem_map_of_mem hc)
  rw [List.map_append, List.map_cons, hkept, hrest, if_pos rfl]

/-- Settling reads no batch. -/
theorem foldl_settle_batch (cfg : EngineConfig) (kv : ℕ → ℕ → List β)
    (batch : List (Active ν κ τ)) (l : List (Active ν κ τ)) :
    ∀ s : DecodeEngine ν κ τ β ε, l.foldl (settle cfg kv) { s with batch := batch }
      = { l.foldl (settle cfg kv) s with batch := batch } := by
  induction l with
  | nil => exact fun s => rfl
  | cons a l ih => exact fun s => ih (settle cfg kv s a)

/-- **The loop of a step**: each member lands with its token, in order; whoever has no
more to go is settled and leaves, and the rest of the batch stands. -/
theorem emit_smooth (cfg : EngineConfig) (claim stepEnd : ℚ) (tks : List τ)
    (kv : ℕ → ℕ → List β) (post : List (Active ν κ τ)) :
    ∀ (pre : List (Active ν κ τ)) (ts : List τ) (kept : List (Active ν κ τ))
      (s : DecodeEngine ν κ τ β ε), ts.length = pre.length → s.batch = kept ++ (pre ++ post) →
      (s.batch.map Active.done).Nodup →
      emit cfg (.smooth claim tks kv) stepEnd ((pre.map Active.done).zip ts) s =
        ({ (leaving stepEnd pre ts).foldl (settle cfg kv) s with
            batch := kept ++ (staying stepEnd pre ts ++ post) }, none) := by
  intro pre
  induction pre with
  | nil =>
      intro ts kept s hlen hb _
      cases List.eq_nil_of_length_eq_zero hlen
      show emit cfg (.smooth claim tks kv) stepEnd [] s = _
      unfold emit
      show (s, none) = ({ s with batch := kept ++ ([] ++ post) }, none)
      rw [show kept ++ ([] ++ post) = s.batch from hb.symm]
  | cons a pre ih =>
      intro ts kept s hlen hb hnd
      cases ts with
      | nil => cases hlen
      | cons t ts =>
          have hlen' : ts.length = pre.length := Nat.succ.inj hlen
          rw [hb, List.cons_append] at hnd
          show emit cfg (.smooth claim tks kv) stepEnd
            ((a.done, t) :: (pre.map Active.done).zip ts) s = _
          unfold emit
          rw [hb, List.cons_append, find?_of_nodup hnd]
          simp only
          by_cases hz : (stepped a stepEnd t).remaining = 0
          · -- it emitted its last token: off the batch, then settled
            rw [if_pos hz]
            rw [filter_of_nodup hnd]
            have hfin := finish_smooth cfg claim tks kv { s with batch := kept ++ (pre ++ post) }
              (stepped a stepEnd t)
            rw [show (stepped a stepEnd t).done = a.done from rfl] at hfin
            rw [hfin]
            simp only
            have hnd' : ((kept ++ (pre ++ post)).map Active.done).Nodup :=
              hnd.sublist ((List.sublist_cons_self _ _).append_left kept |>.map _)
            have hleave : leaving stepEnd (a :: pre) (t :: ts)
                = stepped a stepEnd t :: leaving stepEnd pre ts :=
              List.filter_cons_of_pos (decide_eq_true hz)
            have hstay : staying stepEnd (a :: pre) (t :: ts) = staying stepEnd pre ts :=
              List.filter_cons_of_neg (by simpa using hz)
            have hbatch := foldl_settle_batch cfg kv (kept ++ (pre ++ post))
              (leaving stepEnd pre ts) (settle cfg kv s (stepped a stepEnd t))
            rw [ih ts kept _ hlen' rfl hnd', hleave, hstay, List.foldl_cons]
            exact congrArg (fun u : DecodeEngine ν κ τ β ε => ({ u with
              batch := kept ++ (staying stepEnd pre ts ++ post) },
              (none : Option (Point × Exc ε)))) hbatch
          · rw [if_neg hz, map_of_nodup hnd]
            have hnd' :
                ((kept ++ [stepped a stepEnd t] ++ (pre ++ post)).map Active.done).Nodup := by
              rw [List.append_assoc]
              simpa [stepped] using hnd
            have hleave : leaving stepEnd (a :: pre) (t :: ts) = leaving stepEnd pre ts :=
              List.filter_cons_of_neg (by simpa using hz)
            have hstay : staying stepEnd (a :: pre) (t :: ts)
                = stepped a stepEnd t :: staying stepEnd pre ts :=
              List.filter_cons_of_pos (by simpa using hz)
            rw [ih ts (kept ++ [stepped a stepEnd t]) _ hlen' (by simp) (by simpa using hnd'),
              hleave, hstay, foldl_settle_batch]
            simp

/-- What settling leaves of the futures and of the report. -/
theorem foldl_settle (cfg : EngineConfig) (kv : ℕ → ℕ → List β) (l : List (Active ν κ τ)) :
    ∀ s : DecodeEngine ν κ τ β ε,
      (l.foldl (settle cfg kv) s).futures.length = s.futures.length ∧
      (l.foldl (settle cfg kv) s).pending = s.pending ∧
      (l.foldl (settle cfg kv) s).admitting = s.admitting ∧
      (cfg.onFinish → (l.foldl (settle cfg kv) s).finished
        = s.finished ++ l.map fun a => (a.request, a.tbtMax)) ∧
      (∀ id, id ∉ l.map Active.done →
        (l.foldl (settle cfg kv) s).futures[id]? = s.futures[id]?) := by
  induction l with
  | nil => exact fun s => ⟨rfl, rfl, rfl, fun _ => by simp, fun _ _ => rfl⟩
  | cons a l ih =>
      intro s
      obtain ⟨hlen, hpend, hadm, hfin, hother⟩ := ih (settle cfg kv s a)
      rw [List.foldl_cons]
      refine ⟨hlen.trans (by simp [settle]), hpend, hadm, fun hon => ?_, fun id hid => ?_⟩
      · rw [hfin hon]
        simp [settle, hon]
      · rw [List.map_cons, List.mem_cons, not_or] at hid
        rw [hother id hid.2]
        exact List.getElem?_set_ne (Ne.symm hid.1)

/-- Each slot settled has its own result. -/
theorem foldl_settle_result (cfg : EngineConfig) (kv : ℕ → ℕ → List β)
    {l : List (Active ν κ τ)} (hnd : (l.map Active.done).Nodup) {a : Active ν κ τ} (ha : a ∈ l) :
    ∀ s : DecodeEngine ν κ τ β ε, a.done < s.futures.length →
      (l.foldl (settle cfg kv) s).futures[a.done]?
        = some (.result ⟨a.tokens, kv a.done a.tokens.length⟩) := by
  induction l with
  | nil => cases ha
  | cons b l ih =>
      intro s hlt
      rw [List.map_cons, List.nodup_cons] at hnd
      rw [List.foldl_cons]
      cases ha with
      | head =>
          rw [(foldl_settle cfg kv l _).2.2.2.2 a.done hnd.1]
          exact List.getElem?_set_self hlt
      | tail _ ha => exact ih hnd.2 ha _ (by simpa [settle] using hlt)

/-- Where the head of the loop leaves the task. -/
def looped (cfg : EngineConfig) (claim : ℚ) (batch : List (Active ν κ τ)) : StepTask ε :=
  if batch = [] then StepTask.ended none
  else if cfg.onComputeBusy then StepTask.announcing (batch.map Active.done) claim
  else StepTask.waiting (batch.map Active.done) claim

/-- The head of the loop touches its own task only. -/
theorem head_smooth (cfg : EngineConfig) (claim : ℚ) (tks : List τ) (kv : ℕ → ℕ → List β)
    (s : DecodeEngine ν κ τ β ε) :
    head cfg (.smooth claim tks kv) s = ({ s with task := looped cfg claim s.batch }, none) := by
  unfold head looped Outcomes.smooth
  split
  · rfl
  · rfl

/-- The batch and the queue after a step: whoever stays, then whoever waited longest. -/
def landed (cfg : EngineConfig) (due : ℚ) (kv : ℕ → ℕ → List β)
    (pre post : List (Active ν κ τ)) (tks : List τ) (s : DecodeEngine ν κ τ β ε) :
    DecodeEngine ν κ τ β ε :=
  promote cfg { (leaving due pre tks).foldl (settle cfg kv) s with
    batch := staying due pre tks ++ post }

theorem resume_of_body {cfg : EngineConfig} {o : Outcomes τ β ε} {s t : DecodeEngine ν κ τ β ε}
    (h : body cfg o s = some (t, none)) : resume cfg o s = some (t, none) := by
  unfold resume
  rw [h]
  rfl

/-- The loop starts, or goes round after a report. -/
theorem resume_head (cfg : EngineConfig) (claim : ℚ) (tks : List τ) (kv : ℕ → ℕ → List β)
    {s : DecodeEngine ν κ τ β ε} (h : s.task = .created ∨ s.task = .reporting) :
    resume cfg (.smooth claim tks kv) s
      = some ({ s with task := looped cfg claim s.batch }, none) := by
  refine resume_of_body ?_
  unfold body
  rw [← head_smooth cfg claim tks kv s]
  rcases h with h | h
  · rw [h]
  · rw [h]
    rfl

/-- A step announced is waited for. -/
theorem resume_announced (cfg : EngineConfig) (claim : ℚ) (tks : List τ)
    (kv : ℕ → ℕ → List β) {s : DecodeEngine ν κ τ β ε} {members : List ℕ} {due : ℚ}
    (h : s.task = .announcing members due) :
    resume cfg (.smooth claim tks kv) s
      = some ({ s with task := .waiting members due }, none) := by
  refine resume_of_body ?_
  unfold body
  rw [h]
  rfl

/-- A step that ended: its members land, the batch fills up, and the loop goes round or
reports first. -/
theorem resume_waited (cfg : EngineConfig) (claim : ℚ) {tks : List τ} (kv : ℕ → ℕ → List β)
    {s : DecodeEngine ν κ τ β ε} {members : List ℕ} {due : ℚ} (h : s.task = .waiting members due)
    {pre post : List (Active ν κ τ)} (hb : s.batch = pre ++ post)
    (hpre : pre.map Active.done = members) (hlen : tks.length = members.length)
    (hnd : (s.batch.map Active.done).Nodup) :
    resume cfg (.smooth claim tks kv) s = some ({ landed cfg due kv pre post tks s with
      task := if cfg.onState then StepTask.reporting
        else looped cfg claim (landed cfg due kv pre post tks s).batch }, none) := by
  refine resume_of_body ?_
  have hemit := emit_smooth cfg claim due tks kv post pre tks [] s
    (by rw [hlen, ← hpre, List.length_map]) hb hnd
  rw [hpre, List.nil_append] at hemit
  have hhead := head_smooth cfg claim tks kv (landed cfg due kv pre post tks s)
  unfold body
  rw [h]
  show some (stepComplete cfg (.smooth claim tks kv) members due s) = _
  refine congrArg some ?_
  unfold stepComplete
  dsimp only [Outcomes.smooth] at hemit ⊢
  rw [hemit]
  show (if cfg.onState then
      ({ landed cfg due kv pre post tks s with task := StepTask.reporting }, none)
    else head cfg (.smooth claim tks kv) (landed cfg due kv pre post tks s)) = _
  rw [hhead]
  split
  · rfl
  · rfl

end DecodeEngine

/-! ## §5. Gaps and tokens, step by step. -/

theorem gaps_concat (t : ℚ) : ∀ (ts : List ℚ) (last : ℚ),
    gaps last (ts ++ [t]) = gaps last ts ++ [t - ts.getLastD last] := by
  intro ts
  induction ts with
  | nil => exact fun last => rfl
  | cons u ts ih =>
      intro last
      show (u - last) :: gaps u (ts ++ [t]) = (u - last) :: (gaps u ts ++ _)
      rw [ih u, List.getLastD_cons]

theorem worstGap_concat (last : ℚ) (ts : List ℚ) (t : ℚ) :
    worstGap last (ts ++ [t]) = max (worstGap last ts) (t - ts.getLastD last) := by
  unfold worstGap
  rw [gaps_concat, List.foldl_append]
  rfl

/-- A running maximum is at least what it started from and what it ran over, and is one
of these. -/
theorem foldl_max (l : List ℚ) : ∀ m : ℚ,
    m ≤ l.foldl max m ∧ (∀ g ∈ l, g ≤ l.foldl max m) ∧ (l.foldl max m = m ∨ l.foldl max m ∈ l) := by
  induction l with
  | nil => exact fun m => ⟨le_rfl, by simp, .inl rfl⟩
  | cons g l ih =>
      intro m
      obtain ⟨hstart, hall, hone⟩ := ih (max m g)
      rw [List.foldl_cons]
      refine ⟨(le_max_left m g).trans hstart, fun x hx => ?_, ?_⟩
      · cases hx with
        | head => exact (le_max_right m g).trans hstart
        | tail _ hx => exact hall x hx
      · rcases hone with heq | hmem
        · rcases max_choice m g with hm | hg
          · exact .inl (heq.trans hm)
          · exact .inr (by rw [heq, hg]; exact List.mem_cons_self)
        · exact .inr (List.mem_cons_of_mem g hmem)

/-- Where time does not run backwards, the worst gap is the largest. -/
theorem worstGap_isGreatest {last : ℚ} {ts : List ℚ} (hne : ts ≠ [])
    (hpos : ∀ g ∈ gaps last ts, 0 ≤ g) :
    IsGreatest {g | g ∈ gaps last ts} (worstGap last ts) := by
  obtain ⟨hzero, hall, hone⟩ := foldl_max (gaps last ts) 0
  refine ⟨?_, fun g hg => hall g hg⟩
  rcases hone with heq | hmem
  · -- the maximum is the zero it started from, so the first gap is no larger
    cases ts with
    | nil => exact absurd rfl hne
    | cons t ts =>
        have hfirst : t - last ∈ gaps last (t :: ts) := List.mem_cons_self
        have hle : t - last ≤ worstGap last (t :: ts) := hall _ hfirst
        have hge := hpos _ hfirst
        have hz : worstGap last (t :: ts) = t - last := by
          unfold worstGap at hle ⊢
          rw [heq] at hle ⊢
          exact le_antisymm hge hle
        rw [hz]
        exact hfirst
  · exact hmem

/-- Nobody else's token. -/
theorem Step.tokenFor_eq_none {st : Step τ} {id : ℕ} (h : id ∉ st.members) :
    st.tokenFor id = none := by
  unfold Step.tokenFor
  rw [List.find?_eq_none.mpr, Option.map_none]
  rintro ⟨m, t⟩ hmem heq
  rw [decide_eq_true_iff] at heq
  exact h (heq ▸ (List.of_mem_zip hmem).1)

/-- The token beside a member is the one emitted for it. -/
theorem Step.tokenFor_eq_some {st : Step τ} {id : ℕ} {t : τ} (hnd : st.members.Nodup)
    (h : (id, t) ∈ st.members.zip st.tokens) : st.tokenFor id = some t := by
  unfold Step.tokenFor
  obtain ⟨p, hp⟩ : ∃ p, (st.members.zip st.tokens).find? (fun p => decide (p.1 = id)) = some p :=
    Option.isSome_iff_exists.mp (List.find?_isSome.mpr ⟨_, h, by simp⟩)
  have hpid : p.1 = id := by simpa using List.find?_some hp
  have hinj : p = (id, t) := by
    have hkeys : ((st.members.zip st.tokens).map Prod.fst).Nodup :=
      hnd.sublist (DecodeEngine.zip_fst_sublist st.members st.tokens)
    exact List.inj_on_of_nodup_map hkeys (List.mem_of_find?_eq_some hp) h hpid
  rw [hp, hinj]
  rfl

/-! ## §6. The books. -/

/-- The admissions with something to decode, in order. -/
def decoders (arrivals : List (Request ν κ × ℚ)) : List ℕ :=
  (List.range arrivals.length).filter fun id =>
    (arrivals[id]?).any fun arrival => arrival.1.decodeTokens ≠ 0

theorem decoders_concat (arrivals : List (Request ν κ × ℚ)) (request : Request ν κ) (now : ℚ) :
    decoders (arrivals ++ [(request, now)]) = decoders arrivals ++
      if request.decodeTokens = 0 then [] else [arrivals.length] := by
  unfold decoders
  rw [List.length_append, List.length_singleton, List.range_succ, List.filter_append]
  refine congrArg₂ _ (List.filter_congr fun id hid => ?_) ?_
  · rw [List.getElem?_append_left (List.mem_range.mp hid)]
  · rw [List.filter_cons, List.getElem?_concat_length]
    by_cases hz : request.decodeTokens = 0
    · simp [hz]
    · simp [hz]

theorem decoders_lt {arrivals : List (Request ν κ × ℚ)} {id : ℕ} (h : id ∈ decoders arrivals) :
    id < arrivals.length :=
  List.mem_range.mp (List.mem_filter.mp h).1

theorem decoders_pairwise (arrivals : List (Request ν κ × ℚ)) :
    (decoders arrivals).Pairwise (· < ·) :=
  List.pairwise_lt_range.sublist List.filter_sublist

namespace DecodeRun

/-- A slot as the records have its request: the gaps so far, the tokens so far, and how
many are left. -/
structure Recorded (s : DecodeRun ν κ τ β ε) (a : Active ν κ τ) : Prop where
  arrived : ∃ now, s.arrivals[a.done]? = some (a.request, now) ∧
    a.lastTokenTime = (s.times a.done).getLastD now ∧
    a.tbtMax = worstGap now (s.times a.done) ∧ ∀ g ∈ gaps now (s.times a.done), 0 ≤ g
  tokens : s.tokens a.done = a.tokens
  paired : (s.times a.done).length = a.tokens.length
  count : a.remaining + a.tokens.length = a.request.decodeTokens
  past : a.lastTokenTime ≤ s.clock

/-- An admission that was answered: with the tokens of its steps, as many as it asked
for. -/
structure Answered (s : DecodeRun ν κ τ β ε) (id : ℕ) : Prop where
  result : ∃ kv, s.engine.futures[id]? = some (.result ⟨s.tokens id, kv⟩)
  paired : (s.times id).length = (s.tokens id).length
  arrived : ∃ request now, s.arrivals[id]? = some (request, now) ∧
    ((s.tokens id).length : ℤ) = request.decodeTokens ∧ ∀ g ∈ gaps now (s.times id), 0 ≤ g

/-- What the records say of the engine. -/
structure Books (cfg : EngineConfig) (s : DecodeRun ν κ τ β ε) : Prop where
  capped : s.engine.batch.length ≤ cfg.maxBatch
  full : s.engine.pending ≠ [] → s.engine.batch.length = cfg.maxBatch
  /-- Who entered, then who is queued: everybody with something to decode, in order. -/
  fifo : s.entered ++ s.engine.pending.map Active.done = decoders s.arrivals
  held : (s.engine.batch.map Active.done).Sublist s.entered
  aligned : s.engine.futures.length = s.arrivals.length
  slot : ∀ a ∈ s.engine.batch ++ s.engine.pending, s.Recorded a
  settled : ∀ id < s.arrivals.length, id ∉ s.engine.slots → s.Answered id
  retired : ∀ id, id ∈ s.retired ↔ Future.Resolved s.engine.futures[id]?
  once : s.retired.Nodup
  reported : cfg.onFinish → s.engine.finished.map some = s.retired.map s.report
  members : ∀ st ∈ s.steps, ∀ id ∈ st.members, id < s.arrivals.length

theorem Books.slots_sublist {cfg : EngineConfig} {s : DecodeRun ν κ τ β ε} (h : s.Books cfg) :
    s.engine.slots.Sublist (decoders s.arrivals) := by
  unfold DecodeEngine.slots
  rw [List.map_append, ← h.fifo]
  exact h.held.append_right _

/-- Slots are held in the order of their admissions. -/
theorem Books.slots_pairwise {cfg : EngineConfig} {s : DecodeRun ν κ τ β ε} (h : s.Books cfg) :
    s.engine.slots.Pairwise (· < ·) :=
  (decoders_pairwise s.arrivals).sublist h.slots_sublist

theorem Books.slots_lt {cfg : EngineConfig} {s : DecodeRun ν κ τ β ε} (h : s.Books cfg) {id : ℕ}
    (hid : id ∈ s.engine.slots) : id < s.arrivals.length :=
  decoders_lt (h.slots_sublist.subset hid)

theorem Recorded.mono {s u : DecodeRun ν κ τ β ε} {a : Active ν κ τ} (h : s.Recorded a)
    (hsteps : u.times a.done = s.times a.done ∧ u.tokens a.done = s.tokens a.done)
    (harr : ∀ x, s.arrivals[a.done]? = some x → u.arrivals[a.done]? = some x)
    (hclock : s.clock ≤ u.clock) : u.Recorded a := by
  obtain ⟨now, harrived, hlast, htbt, hpos⟩ := h.arrived
  constructor
  case arrived => exact ⟨now, harr _ harrived, by rw [hsteps.1]; exact ⟨hlast, htbt, hpos⟩⟩
  case tokens => exact hsteps.2.trans h.tokens
  case paired => rw [hsteps.1]; exact h.paired
  case count => exact h.count
  case past => exact h.past.trans hclock

theorem Answered.mono {s u : DecodeRun ν κ τ β ε} {id : ℕ} (h : s.Answered id)
    (hsteps : u.times id = s.times id ∧ u.tokens id = s.tokens id)
    (harr : ∀ x, s.arrivals[id]? = some x → u.arrivals[id]? = some x)
    (hfut : ∀ x, s.engine.futures[id]? = some x → u.engine.futures[id]? = some x) :
    u.Answered id := by
  obtain ⟨kv, hkv⟩ := h.result
  obtain ⟨request, now, harrived, hlen, hpos⟩ := h.arrived
  constructor
  case result => exact ⟨kv, by rw [hsteps.2]; exact hfut _ hkv⟩
  case paired => rw [hsteps.1, hsteps.2]; exact h.paired
  case arrived =>
    exact ⟨request, now, harr _ harrived, by rw [hsteps.1, hsteps.2]; exact ⟨hlen, hpos⟩⟩

/-- The books do not depend on the task, nor on who is reporting. -/
theorem Books.frame {cfg : EngineConfig} {s : DecodeRun ν κ τ β ε} (h : s.Books cfg) {now : ℚ}
    (hnow : s.clock ≤ now) {t : DecodeEngine ν κ τ β ε} (hb : t.batch = s.engine.batch)
    (hp : t.pending = s.engine.pending) (hf : t.futures = s.engine.futures)
    (hfin : t.finished = s.engine.finished) :
    Books cfg { s with engine := t, clock := now } := by
  have hslots : t.slots = s.engine.slots := by
    unfold DecodeEngine.slots
    rw [hb, hp]
  constructor
  case capped => rw [hb]; exact h.capped
  case full => rw [hb, hp]; exact h.full
  case fifo => rw [hp]; exact h.fifo
  case held => rw [hb]; exact h.held
  case aligned => rw [hf]; exact h.aligned
  case slot =>
    rw [hb, hp]
    exact fun a ha => (h.slot a ha).mono ⟨rfl, rfl⟩ (fun _ hx => hx) hnow
  case settled =>
    intro id hid hns
    refine (h.settled id hid (hslots ▸ hns)).mono ⟨rfl, rfl⟩ (fun _ hx => hx) ?_
    rw [hf]
    exact fun _ hx => hx
  case retired => rw [hf]; exact h.retired
  case once => exact h.once
  case reported => rw [hfin]; exact h.reported
  case members => exact h.members

/-- A batch and futures that stand put nothing on record. -/
theorem follow_frame (s : DecodeRun ν κ τ β ε) (now : ℚ) {t : DecodeEngine ν κ τ β ε}
    (hb : t.batch = s.engine.batch) (hf : t.futures = s.engine.futures) :
    s.follow now t = { s with engine := t, clock := now } := by
  unfold follow
  rw [hb, hf, List.filter_eq_nil_iff.mpr, List.filter_eq_nil_iff.mpr, List.append_nil,
    List.append_nil]
  · exact fun id _ => by simp
  · exact fun id hid => by simpa using hid

/-- Who enters: those the batch did not hold. -/
theorem follow_entered {s : DecodeRun ν κ τ β ε} (now : ℚ) {t : DecodeEngine ν κ τ β ε}
    {old new : List ℕ} (hb : t.batch.map Active.done = old ++ new)
    (hold : ∀ id ∈ old, id ∈ s.engine.batch.map Active.done)
    (hnew : ∀ id ∈ new, id ∉ s.engine.batch.map Active.done) :
    (s.follow now t).entered = s.entered ++ new := by
  show s.entered ++ (t.batch.map Active.done).filter _ = s.entered ++ new
  rw [hb, List.filter_append, List.filter_eq_nil_iff.mpr, List.filter_eq_self.mpr,
    List.nil_append]
  · exact fun id hid => by simpa using hnew id hid
  · exact fun id hid => by simpa using hold id hid

/-- Nobody enters a batch that is left as it was. -/
theorem follow_entered_nil {s : DecodeRun ν κ τ β ε} (now : ℚ) {t : DecodeEngine ν κ τ β ε}
    (hb : t.batch = s.engine.batch) : (s.follow now t).entered = s.entered := by
  have hsplit : t.batch.map Active.done = s.engine.batch.map Active.done ++ [] := by
    rw [hb, List.append_nil]
  rw [follow_entered now hsplit (fun _ hid => hid) (fun _ hid => nomatch hid), List.append_nil]

/-- Futures resolved before stay on record, those resolved now join them. -/
theorem follow_retired {s : DecodeRun ν κ τ β ε} (now : ℚ) {t : DecodeEngine ν κ τ β ε}
    (h : ∀ id, id ∈ s.retired ↔ Future.Resolved s.engine.futures[id]?) (honce : s.retired.Nodup)
    (hkeep : ∀ id : ℕ, Future.Resolved s.engine.futures[id]? → Future.Resolved t.futures[id]?) :
    (∀ id, id ∈ (s.follow now t).retired ↔ Future.Resolved t.futures[id]?) ∧
      (s.follow now t).retired.Nodup := by
  have hmem : ∀ id : ℕ, id ∈ (List.range t.futures.length).filter (fun id : ℕ => decide
      (Future.Resolved t.futures[id]? ∧ ¬ Future.Resolved s.engine.futures[id]?)) ↔
      Future.Resolved t.futures[id]? ∧ ¬ Future.Resolved s.engine.futures[id]? := by
    intro id
    rw [List.mem_filter, List.mem_range, decide_eq_true_iff]
    refine ⟨fun hid => hid.2, fun hid => ⟨?_, hid⟩⟩
    by_contra hge
    rw [List.getElem?_eq_none (not_lt.mp hge)] at hid
    exact hid.1
  refine ⟨fun id => ?_, ?_⟩
  · show id ∈ s.retired ++ _ ↔ _
    rw [List.mem_append, h, hmem]
    by_cases hres : Future.Resolved s.engine.futures[id]?
    · exact ⟨fun _ => hkeep id hres, fun _ => .inl hres⟩
    · exact ⟨fun hor => hor.elim (absurd · hres) And.left, fun hid => .inr ⟨hid, hres⟩⟩
  · refine List.nodup_append.mpr ⟨honce, List.nodup_range.filter _, ?_⟩
    rintro id hid _ hnew rfl
    exact ((hmem id).mp hnew).2 ((h id).mp hid)

/-! ### Admissions -/

/-- Nobody emitted anything for an admission that is only now arriving. -/
theorem Books.nothing {cfg : EngineConfig} {s : DecodeRun ν κ τ β ε} (h : s.Books cfg) :
    s.times s.arrivals.length = [] ∧ s.tokens s.arrivals.length = [] := by
  have hout : ∀ st ∈ s.steps, s.arrivals.length ∉ st.members := fun st hst hid =>
    absurd (h.members st hst _ hid) (lt_irrefl _)
  refine ⟨List.filterMap_eq_nil_iff.mpr fun st hst => if_neg (hout st hst),
    List.filterMap_eq_nil_iff.mpr fun st hst => Step.tokenFor_eq_none (hout st hst)⟩

theorem arrivals_append {arrivals : List (Request ν κ × ℚ)} (y : Request ν κ × ℚ) {id : ℕ}
    {x : Request ν κ × ℚ} (hx : arrivals[id]? = some x) : (arrivals ++ [y])[id]? = some x := by
  rw [List.getElem?_append_left (List.getElem?_eq_some_iff.mp hx).1]
  exact hx

theorem Books.retired_lt {cfg : EngineConfig} {s : DecodeRun ν κ τ β ε} (h : s.Books cfg) {id : ℕ}
    (hid : Future.Resolved s.engine.futures[id]?) : id < s.arrivals.length := by
  by_contra hge
  have haligned := h.aligned
  rw [List.getElem?_eq_none (by omega)] at hid
  exact hid

/-- What an arrival leaves as it was: the earlier futures, answers and reports. -/
theorem Books.older {cfg : EngineConfig} {s : DecodeRun ν κ τ β ε} (h : s.Books cfg) (now : ℚ)
    (request : Request ν κ) {t : DecodeEngine ν κ τ β ε} {f : Future (Generated τ β) (Exc ε)}
    (hf : t.futures = s.engine.futures ++ [f]) :
    (∀ id < s.arrivals.length, t.futures[id]? = s.engine.futures[id]?) ∧
    t.futures[s.arrivals.length]? = some f ∧
    (∀ id < s.arrivals.length, id ∉ s.engine.slots →
      Answered { s.follow now t with arrivals := s.arrivals ++ [(request, now)] } id) ∧
    s.retired.map (report { s.follow now t with arrivals := s.arrivals ++ [(request, now)] })
      = s.retired.map s.report := by
  have hold : ∀ id < s.arrivals.length, t.futures[id]? = s.engine.futures[id]? := by
    intro id hid
    rw [hf, List.getElem?_append_left (h.aligned ▸ hid)]
  refine ⟨hold, by rw [hf, ← h.aligned, List.getElem?_concat_length], fun id hid hns => ?_,
    List.map_congr_left fun id hid => ?_⟩
  · refine (h.settled id hid hns).mono ⟨rfl, rfl⟩ (fun _ hx => arrivals_append _ hx) ?_
    show ∀ x, _ → t.futures[id]? = some x
    rw [hold id hid]
    exact fun _ hx => hx
  · show ((s.arrivals ++ [(request, now)])[id]?).map _ = (s.arrivals[id]?).map _
    rw [List.getElem?_append_left (h.retired_lt ((h.retired id).mp hid))]
    rfl

theorem Books.members_lt {cfg : EngineConfig} {s : DecodeRun ν κ τ β ε} (h : s.Books cfg)
    (x : Request ν κ × ℚ) :
    ∀ st ∈ s.steps, ∀ id ∈ st.members, id < (s.arrivals ++ [x]).length := by
  intro st hst id hid
  rw [List.length_append, List.length_singleton]
  exact (h.members st hst id hid).trans (Nat.lt_succ_self _)

/-- **A request with nothing to decode** is answered as it arrives. -/
theorem Books.answerAtOnce {cfg : EngineConfig} {s : DecodeRun ν κ τ β ε} (h : s.Books cfg)
    {now : ℚ} (hnow : s.clock ≤ now) {request : Request ν κ} (hz : request.decodeTokens = 0)
    (kv : List β) {t : DecodeEngine ν κ τ β ε} (hb : t.batch = s.engine.batch)
    (hp : t.pending = s.engine.pending)
    (hf : t.futures = s.engine.futures ++ [Future.result ⟨[], kv⟩])
    (hfin : cfg.onFinish → t.finished = s.engine.finished ++ [(request, 0)]) :
    Books cfg { s.follow now t with arrivals := s.arrivals ++ [(request, now)] } := by
  have hslots : t.slots = s.engine.slots := by
    unfold DecodeEngine.slots
    rw [hb, hp]
  obtain ⟨hold, hself, hanswered, hreports⟩ := h.older now request hf
  have hret := follow_retired now (t := t) h.retired h.once fun id hid => by
    rw [hold id (h.retired_lt hid)]
    exact hid
  have hent : (s.follow now t).entered = s.entered := by
    exact follow_entered_nil now hb
  -- the one future resolved in this segment is the new one
  have hretired : (s.follow now t).retired = s.retired ++ [s.arrivals.length] := by
    show s.retired ++ (List.range t.futures.length).filter _ = _
    rw [show t.futures.length = s.arrivals.length + 1 by rw [hf]; simp [h.aligned],
      List.range_succ, List.filter_append, List.filter_eq_nil_iff.mpr, List.nil_append,
      List.filter_cons_of_pos, List.filter_nil]
    · rw [decide_eq_true_iff, hself]
      exact ⟨trivial, fun hres => absurd (h.retired_lt hres) (lt_irrefl _)⟩
    · intro id hid
      rw [hold id (List.mem_range.mp hid)]
      simp
  constructor
  case capped =>
    show t.batch.length ≤ _
    rw [hb]
    exact h.capped
  case full =>
    show t.pending ≠ [] → t.batch.length = _
    rw [hb, hp]
    exact h.full
  case fifo =>
    show (s.follow now t).entered ++ t.pending.map Active.done = _
    rw [hent, hp, decoders_concat, if_pos hz, List.append_nil]
    exact h.fifo
  case held =>
    show (t.batch.map Active.done).Sublist (s.follow now t).entered
    rw [hb, hent]
    exact h.held
  case aligned =>
    show t.futures.length = _
    rw [hf]
    simp [h.aligned]
  case slot =>
    show ∀ a ∈ t.batch ++ t.pending, _
    rw [hb, hp]
    exact fun a ha => (h.slot a ha).mono ⟨rfl, rfl⟩ (fun _ hx => arrivals_append _ hx) hnow
  case settled =>
    intro id hid hns
    rw [List.length_append, List.length_singleton] at hid
    by_cases hlast : id = s.arrivals.length
    · subst hlast
      obtain ⟨htimes, htokens⟩ := h.nothing
      constructor
      case result =>
        refine ⟨kv, ?_⟩
        show t.futures[s.arrivals.length]? = some (Future.result ⟨s.tokens _, kv⟩)
        rw [hself, htokens]
      case paired =>
        show (s.times _).length = (s.tokens _).length
        rw [htimes, htokens]
        rfl
      case arrived =>
        refine ⟨request, now, List.getElem?_concat_length, ?_, ?_⟩
        · show ((s.tokens _).length : ℤ) = _
          rw [htokens, hz]
          rfl
        · show ∀ g ∈ gaps now (s.times _), 0 ≤ g
          rw [htimes]
          exact fun g hg => absurd hg (by simp [gaps])
    · exact hanswered id (by omega) (hslots ▸ hns)
  case retired => exact hret.1
  case once => exact hret.2
  case reported =>
    intro hon
    show t.finished.map some = (s.follow now t).retired.map _
    rw [hfin hon, hretired, List.map_append, List.map_append, h.reported hon, hreports]
    refine congrArg _ ?_
    show [some (request, (0 : ℚ))] = [((s.arrivals ++ [(request, now)])[s.arrivals.length]?).map
      fun arrival => (arrival.1, worstGap arrival.2 (s.times s.arrivals.length))]
    rw [List.getElem?_concat_length, h.nothing.1]
    rfl
  case members => exact h.members_lt _

/-- The slot a request is admitted with. -/
def opened (request : Request ν κ) (now : ℚ) (id : ℕ) : Active ν κ τ :=
  ⟨request, request.decodeTokens, now, id, 0, []⟩

/-- Where a slot goes that enters: into the batch with room in it, or behind whoever waits
already. -/
inductive Entry (cfg : EngineConfig) (s : DecodeRun ν κ τ β ε) (now : ℚ)
    (t : DecodeEngine ν κ τ β ε) (a : Active ν κ τ) : Prop
  | batch (batch : t.batch = s.engine.batch ++ [a]) (pending : t.pending = [])
      (nobody : s.engine.pending = []) (room : s.engine.batch.length < cfg.maxBatch)
      (entered : (s.follow now t).entered = s.entered ++ [a.done])
  | queue (batch : t.batch = s.engine.batch) (pending : t.pending = s.engine.pending ++ [a])
      (full : s.engine.batch.length = cfg.maxBatch)
      (entered : (s.follow now t).entered = s.entered)

section Enter

variable {cfg : EngineConfig} {s : DecodeRun ν κ τ β ε} {now : ℚ} {request : Request ν κ}
  {t : DecodeEngine ν κ τ β ε} {a : Active ν κ τ}

/-- The slots after an entry. -/
theorem Entry.mem_iff (h : s.Entry cfg now t a) {x : Active ν κ τ} :
    x ∈ t.batch ++ t.pending ↔ x ∈ s.engine.batch ++ s.engine.pending ∨ x = a := by
  cases h with
  | batch hb hp hnobody _ _ =>
      rw [hb, hp, hnobody, List.append_nil, List.append_nil, List.mem_append, List.mem_singleton]
  | queue hb hp _ _ =>
      rw [hb, hp, ← List.append_assoc, List.mem_append, List.mem_singleton]

/-- **`enter`** is an entry of the slot it opens. -/
theorem Books.entry (h : s.Books cfg)
    (hb : t.batch = (DecodeEngine.enter cfg now request s.engine).batch)
    (hp : t.pending = (DecodeEngine.enter cfg now request s.engine).pending) :
    s.Entry cfg now t (opened request now s.engine.futures.length) := by
  have hnew : s.engine.futures.length ∉ s.engine.batch.map Active.done := by
    intro hid
    have hslot : s.engine.futures.length ∈ s.engine.slots := by
      unfold DecodeEngine.slots
      rw [List.map_append]
      exact List.mem_append_left _ hid
    exact absurd (h.slots_lt hslot) (by have := h.aligned; omega)
  unfold DecodeEngine.enter at hb hp
  by_cases hlt : s.engine.batch.length < cfg.maxBatch
  · rw [if_pos hlt] at hb hp
    have hempty : s.engine.pending = [] := by
      by_contra hne
      exact absurd (h.full hne) (by omega)
    refine .batch hb (hp.trans hempty) hempty hlt ?_
    exact follow_entered now (by rw [hb, List.map_append]; rfl) (fun _ hid => hid)
      (by simpa [opened] using hnew)
  · rw [if_neg hlt] at hb hp
    exact .queue hb hp (le_antisymm h.capped (not_lt.mp hlt)) (follow_entered_nil now hb)

/-- An admission that is not answered resolves nothing. -/
theorem Books.retired_enter (h : s.Books cfg) (request : Request ν κ)
    (hf : t.futures = s.engine.futures ++ [Future.pending]) :
    (s.follow now t).retired = s.retired := by
  obtain ⟨hold, hself, _, _⟩ := h.older now request hf
  show s.retired ++ (List.range t.futures.length).filter _ = _
  rw [List.filter_eq_nil_iff.mpr, List.append_nil]
  intro id hid
  rw [decide_eq_true_iff]
  rintro ⟨hres, hnot⟩
  by_cases hlt : id < s.arrivals.length
  · exact hnot (hold id hlt ▸ hres)
  · have hlast : id = s.arrivals.length := by
      have hlen := List.mem_range.mp hid
      rw [hf, List.length_append, List.length_singleton, h.aligned] at hlen
      omega
    rw [hlast, hself] at hres
    exact hres

/-- The record of a slot just opened. -/
theorem Books.recorded_opened (h : s.Books cfg) :
    Recorded { s.follow now t with arrivals := s.arrivals ++ [(request, now)] }
      (opened request now s.engine.futures.length) := by
  obtain ⟨htimes, htokens⟩ := h.nothing
  rw [← h.aligned] at htimes htokens
  constructor
  case arrived =>
    refine ⟨now, ?_, ?_⟩
    · show (s.arrivals ++ [(request, now)])[s.engine.futures.length]? = _
      rw [h.aligned, List.getElem?_concat_length]
      rfl
    · show now = (s.times s.engine.futures.length).getLastD now ∧
        0 = worstGap now (s.times s.engine.futures.length) ∧
        ∀ g ∈ gaps now (s.times s.engine.futures.length), 0 ≤ g
      rw [htimes]
      exact ⟨rfl, rfl, fun g hg => absurd hg (by simp [gaps])⟩
  case tokens => exact htokens
  case paired => exact congrArg List.length htimes
  case count => exact add_zero _
  case past => exact le_rfl

/-- **A request with something to decode** enters the batch, or queues for it. -/
theorem Books.enter (h : s.Books cfg) (hnow : s.clock ≤ now) (hz : request.decodeTokens ≠ 0)
    (hb : t.batch = (DecodeEngine.enter cfg now request s.engine).batch)
    (hp : t.pending = (DecodeEngine.enter cfg now request s.engine).pending)
    (hf : t.futures = s.engine.futures ++ [Future.pending])
    (hfin : t.finished = s.engine.finished) :
    Books cfg { s.follow now t with arrivals := s.arrivals ++ [(request, now)] } := by
  obtain ⟨hold, _, hanswered, hreports⟩ := h.older now request hf
  have hret := follow_retired now (t := t) h.retired h.once fun id hid => by
    rw [hold id (h.retired_lt hid)]
    exact hid
  have hretired : (s.follow now t).retired = s.retired := h.retired_enter request hf
  have hentry := h.entry hb hp
  constructor
  case capped =>
    show t.batch.length ≤ _
    cases hentry with
    | batch hb _ _ hroom _ =>
        rw [hb, List.length_append, List.length_singleton]
        omega
    | queue hb _ _ _ =>
        rw [hb]
        exact h.capped
  case full =>
    show t.pending ≠ [] → t.batch.length = _
    cases hentry with
    | batch _ hp _ _ _ => exact fun hne => absurd hp hne
    | queue hb _ hfull _ =>
        rw [hb]
        exact fun _ => hfull
  case fifo =>
    show (s.follow now t).entered ++ t.pending.map Active.done = _
    rw [decoders_concat, if_neg hz, ← h.fifo, ← h.aligned]
    cases hentry with
    | batch _ hp hnobody _ hent =>
        rw [hent, hp, hnobody]
        simp [opened]
    | queue _ hp _ hent =>
        rw [hent, hp]
        simp [opened]
  case held =>
    show (t.batch.map Active.done).Sublist (s.follow now t).entered
    cases hentry with
    | batch hb _ _ _ hent =>
        rw [hb, hent, List.map_append]
        exact h.held.append_right _
    | queue hb _ _ hent =>
        rw [hb, hent]
        exact h.held
  case aligned =>
    show t.futures.length = _
    rw [hf]
    simp [h.aligned]
  case slot =>
    intro a ha
    rcases hentry.mem_iff.mp ha with ha | rfl
    · exact (h.slot a ha).mono ⟨rfl, rfl⟩ (fun _ hx => arrivals_append _ hx) hnow
    · exact h.recorded_opened
  case settled =>
    intro id hid hns
    rw [List.length_append, List.length_singleton] at hid
    have hslot : ∀ x, x ∈ s.engine.batch ++ s.engine.pending ∨
        x = opened request now s.engine.futures.length → id ≠ x.done :=
      fun x hx heq => hns (List.mem_map.mpr ⟨x, hentry.mem_iff.mpr hx, heq.symm⟩)
    refine hanswered id ?_ fun hin => ?_
    · have hlast : id ≠ s.engine.futures.length := hslot _ (.inr rfl)
      have haligned := h.aligned
      omega
    · obtain ⟨a, ha, had⟩ := List.mem_map.mp hin
      exact hslot a (.inl ha) had.symm
  case retired => exact hret.1
  case once => exact hret.2
  case reported =>
    intro hon
    show t.finished.map some = (s.follow now t).retired.map _
    rw [hfin, hretired, h.reported hon, hreports]
  case members => exact h.members_lt _

end Enter

/-! ### Steps -/

/-- A member of a step that landed, with the token that came with it. -/
theorem mem_landing {due : ℚ} {b : Active ν κ τ} : ∀ {pre : List (Active ν κ τ)} {tks : List τ},
    b ∈ DecodeEngine.landing due pre tks → ∃ a ∈ pre, ∃ t,
      (a.done, t) ∈ (pre.map Active.done).zip tks ∧ b = DecodeEngine.stepped a due t := by
  intro pre
  induction pre with
  | nil => exact fun hb => absurd hb (by simp [DecodeEngine.landing])
  | cons a pre ih =>
      intro tks hb
      cases tks with
      | nil => exact absurd hb (by simp [DecodeEngine.landing])
      | cons t tks =>
          cases hb with
          | head => exact ⟨a, List.mem_cons_self, t, List.mem_cons_self, rfl⟩
          | tail _ hb =>
              obtain ⟨c, hc, u, hu, rfl⟩ := ih hb
              exact ⟨c, List.mem_cons_of_mem _ hc, u, List.mem_cons_of_mem _ hu, rfl⟩

/-- Everybody lands, in order. -/
theorem landing_done (due : ℚ) : ∀ {pre : List (Active ν κ τ)} {tks : List τ},
    tks.length = pre.length →
      (DecodeEngine.landing due pre tks).map Active.done = pre.map Active.done := by
  intro pre
  induction pre with
  | nil => exact fun _ => rfl
  | cons a pre ih =>
      intro tks hlen
      cases tks with
      | nil => cases hlen
      | cons t tks => exact congrArg (a.done :: ·) (ih (Nat.succ.inj hlen))

theorem leaving_sublist (due : ℚ) {pre : List (Active ν κ τ)} {tks : List τ}
    (hlen : tks.length = pre.length) :
    ((DecodeEngine.leaving due pre tks).map Active.done).Sublist (pre.map Active.done) := by
  rw [← landing_done due hlen]
  exact List.filter_sublist.map _

theorem staying_sublist (due : ℚ) {pre : List (Active ν κ τ)} {tks : List τ}
    (hlen : tks.length = pre.length) :
    ((DecodeEngine.staying due pre tks).map Active.done).Sublist (pre.map Active.done) := by
  rw [← landing_done due hlen]
  exact List.filter_sublist.map _

/-- Whoever landed stays or leaves. -/
theorem leaving_or_staying (due : ℚ) {pre : List (Active ν κ τ)} {tks : List τ}
    (hlen : tks.length = pre.length) {id : ℕ} (hid : id ∈ pre.map Active.done) :
    id ∈ (DecodeEngine.leaving due pre tks).map Active.done ∨
      id ∈ (DecodeEngine.staying due pre tks).map Active.done := by
  rw [← landing_done due hlen] at hid
  obtain ⟨b, hb, rfl⟩ := List.mem_map.mp hid
  by_cases hz : b.remaining = 0
  · exact .inl (List.mem_map_of_mem (List.mem_filter.mpr ⟨hb, decide_eq_true hz⟩))
  · exact .inr (List.mem_map_of_mem (List.mem_filter.mpr ⟨hb, decide_eq_true hz⟩))

theorem times_concat (s : DecodeRun ν κ τ β ε) (t : DecodeEngine ν κ τ β ε) (now : ℚ)
    (st : Step τ) (id : ℕ) :
    times { s.follow now t with steps := s.steps ++ [st] } id
      = s.times id ++ (if id ∈ st.members then [st.stepEnd] else []) := by
  unfold times
  rw [List.filterMap_append]
  refine congrArg _ ?_
  by_cases hid : id ∈ st.members
  · simp [hid]
  · simp [hid]

theorem tokens_concat (s : DecodeRun ν κ τ β ε) (t : DecodeEngine ν κ τ β ε) (now : ℚ)
    (st : Step τ) (id : ℕ) :
    tokens { s.follow now t with steps := s.steps ++ [st] } id
      = s.tokens id ++ (st.tokenFor id).toList := by
  unfold tokens
  rw [List.filterMap_append]
  refine congrArg _ ?_
  cases htok : st.tokenFor id
  · simp [htok]
  · simp [htok]

/-- Nothing changes for whoever was not in the step. -/
theorem unchanged_of_not_mem (s : DecodeRun ν κ τ β ε) (t : DecodeEngine ν κ τ β ε) (now : ℚ)
    {st : Step τ} {id : ℕ} (h : id ∉ st.members) :
    times { s.follow now t with steps := s.steps ++ [st] } id = s.times id ∧
      tokens { s.follow now t with steps := s.steps ++ [st] } id = s.tokens id := by
  refine ⟨?_, ?_⟩
  · rw [times_concat, if_neg h, List.append_nil]
  · rw [tokens_concat, Step.tokenFor_eq_none h]
    exact List.append_nil _

/-- **A member's record after the step**: one gap and one token more. -/
theorem Recorded.stepped {s : DecodeRun ν κ τ β ε} {a : Active ν κ τ} (h : s.Recorded a)
    {t : DecodeEngine ν κ τ β ε} {now : ℚ} {st : Step τ} (hnd : st.members.Nodup) {token : τ}
    (htoken : (a.done, token) ∈ st.members.zip st.tokens) (hdue : st.stepEnd ≤ now)
    (hlast : a.lastTokenTime ≤ st.stepEnd) :
    Recorded { s.follow now t with steps := s.steps ++ [st] }
      (DecodeEngine.stepped a st.stepEnd token) := by
  have hmem : a.done ∈ st.members := (List.of_mem_zip htoken).1
  have htimes := times_concat s t now st a.done
  have htokens := tokens_concat s t now st a.done
  rw [if_pos hmem] at htimes
  rw [Step.tokenFor_eq_some hnd htoken] at htokens
  obtain ⟨admitted, harrived, hlast', htbt, hpos⟩ := h.arrived
  constructor
  case arrived =>
    refine ⟨admitted, harrived, ?_⟩
    show st.stepEnd = (times _ a.done).getLastD admitted ∧
      max a.tbtMax (st.stepEnd - a.lastTokenTime) = worstGap admitted (times _ a.done) ∧
      ∀ g ∈ gaps admitted (times _ a.done), 0 ≤ g
    rw [htimes, List.getLastD_concat, worstGap_concat, gaps_concat, ← hlast', ← htbt]
    refine ⟨rfl, rfl, fun g hg => ?_⟩
    rcases List.mem_append.mp hg with hg | hg
    · exact hpos g hg
    · rw [List.mem_singleton.mp hg]
      exact sub_nonneg.mpr hlast
  case tokens => exact htokens.trans (congrArg (· ++ [token]) h.tokens)
  case paired =>
    show (times _ a.done).length = (a.tokens ++ [token]).length
    rw [htimes, List.length_append, List.length_append, h.paired]
    rfl
  case count =>
    have hcount := h.count
    show a.remaining - 1 + ((a.tokens ++ [token]).length : ℤ) = a.request.decodeTokens
    rw [List.length_append, List.length_singleton]
    omega
  case past => exact hdue

/-- The engine `t` after a step landed, over the batch `pre ++ post`, as its parts. -/
structure Landing (cfg : EngineConfig) (s t : DecodeEngine ν κ τ β ε) (due : ℚ)
    (kv : ℕ → ℕ → List β) (pre post : List (Active ν κ τ)) (tks : List τ) : Prop where
  batch : t.batch = DecodeEngine.staying due pre tks ++ post ++
    s.pending.take (cfg.maxBatch - (DecodeEngine.staying due pre tks ++ post).length)
  pending : t.pending =
    s.pending.drop (cfg.maxBatch - (DecodeEngine.staying due pre tks ++ post).length)
  length : t.futures.length = s.futures.length
  finished : cfg.onFinish → t.finished
    = s.finished ++ (DecodeEngine.leaving due pre tks).map fun a => (a.request, a.tbtMax)
  other : ∀ id, id ∉ (DecodeEngine.leaving due pre tks).map Active.done →
    t.futures[id]? = s.futures[id]?
  result : ∀ a ∈ DecodeEngine.leaving due pre tks,
    t.futures[a.done]? = some (.result ⟨a.tokens, kv a.done a.tokens.length⟩)

theorem landing_of_landed {cfg : EngineConfig} {s t : DecodeEngine ν κ τ β ε} {due : ℚ}
    {kv : ℕ → ℕ → List β} {pre post : List (Active ν κ τ)} {tks : List τ}
    (hlen : tks.length = pre.length) (hnd : (pre.map Active.done).Nodup)
    (hlt : ∀ a ∈ pre, a.done < s.futures.length) {task : StepTask ε}
    (ht : t = { DecodeEngine.landed cfg due kv pre post tks s with task := task }) :
    Landing cfg s t due kv pre post tks := by
  obtain ⟨hlength, hpending, _, hfinished, hother⟩ :=
    DecodeEngine.foldl_settle cfg kv (DecodeEngine.leaving due pre tks) s
  have hsub := leaving_sublist due hlen
  subst ht
  constructor
  case batch =>
    show _ ++ ((DecodeEngine.leaving due pre tks).foldl _ s).pending.take _ = _
    rw [hpending]
  case pending =>
    show ((DecodeEngine.leaving due pre tks).foldl _ s).pending.drop _ = _
    rw [hpending]
  case length => exact hlength
  case finished => exact hfinished
  case other => exact hother
  case result =>
    intro a ha
    refine DecodeEngine.foldl_settle_result cfg kv (hnd.sublist hsub) ha s ?_
    obtain ⟨c, hc, hcd⟩ := List.mem_map.mp (hsub.subset (List.mem_map_of_mem ha))
    exact hcd ▸ hlt c hc

/-- **A step that ends** at `now`, over the batch it froze and whoever joined since. -/
structure Ends (cfg : EngineConfig) (s : DecodeRun ν κ τ β ε) (now due : ℚ)
    (kv : ℕ → ℕ → List β) (pre post : List (Active ν κ τ)) (tks : List τ)
    (t : DecodeEngine ν κ τ β ε) : Prop where
  wellFormed : s.engine.WellFormed cfg
  clock : s.clock ≤ now
  past : due ≤ now
  batch : s.engine.batch = pre ++ post
  length : tks.length = pre.length
  last : ∀ a ∈ pre, a.lastTokenTime ≤ due
  landing : Landing cfg s.engine t due kv pre post tks

section Ends

variable {cfg : EngineConfig} {s : DecodeRun ν κ τ β ε} {now due : ℚ} {kv : ℕ → ℕ → List β}
  {pre post : List (Active ν κ τ)} {tks : List τ} {t : DecodeEngine ν κ τ β ε}

/-- The run after it. -/
abbrev after (s : DecodeRun ν κ τ β ε) (now due : ℚ) (pre : List (Active ν κ τ)) (tks : List τ)
    (t : DecodeEngine ν κ τ β ε) : DecodeRun ν κ τ β ε :=
  { s.follow now t with steps := s.steps ++ [⟨pre.map Active.done, due, tks⟩] }

theorem Ends.slots (he : s.Ends cfg now due kv pre post tks t) : s.engine.slots
    = pre.map Active.done ++ (post.map Active.done ++ s.engine.pending.map Active.done) := by
  unfold DecodeEngine.slots
  rw [he.batch, List.map_append, List.map_append, List.append_assoc]

/-- The slots after it: whoever stays, and everybody that was not in the step. -/
theorem Ends.mem_slots (he : s.Ends cfg now due kv pre post tks t) {a : Active ν κ τ} :
    a ∈ t.batch ++ t.pending ↔
      a ∈ DecodeEngine.staying due pre tks ∨ a ∈ post ++ s.engine.pending := by
  rw [he.landing.batch, he.landing.pending, List.append_assoc, List.take_append_drop,
    List.append_assoc, List.mem_append]

theorem Ends.slot (he : s.Ends cfg now due kv pre post tks t) {a : Active ν κ τ} (ha : a ∈ pre) :
    a ∈ s.engine.batch ++ s.engine.pending := by
  rw [he.batch]
  exact List.mem_append_left _ (List.mem_append_left _ ha)

/-- Nobody is in the step twice. -/
theorem Ends.apart (he : s.Ends cfg now due kv pre post tks t) :
    (pre.map Active.done).Nodup ∧
      ∀ a ∈ post ++ s.engine.pending, a.done ∉ pre.map Active.done := by
  have hnodup : s.engine.slots.Nodup := he.wellFormed.nodup
  rw [he.slots] at hnodup
  obtain ⟨hpre, _, hapart⟩ := List.nodup_append.mp hnodup
  refine ⟨hpre, fun a ha hin => hapart _ hin a.done ?_ rfl⟩
  rw [← List.map_append]
  exact List.mem_map_of_mem ha

/-- The future of a member is open until the step ends. -/
theorem Ends.unresolved (he : s.Ends cfg now due kv pre post tks t) {id : ℕ}
    (hid : id ∈ pre.map Active.done) : ¬ Future.Resolved s.engine.futures[id]? := by
  obtain ⟨a, ha, rfl⟩ := List.mem_map.mp hid
  have hopen : s.engine.futures[a.done]? = some .pending :=
    he.wellFormed.live _ (List.mem_map_of_mem (he.slot ha))
  rw [hopen]
  exact fun hres => hres

/-- A future resolved before stands. -/
theorem Ends.resolved (he : s.Ends cfg now due kv pre post tks t) {id : ℕ}
    (hid : Future.Resolved s.engine.futures[id]?) : t.futures[id]? = s.engine.futures[id]? :=
  he.landing.other id fun hleft =>
    he.unresolved ((leaving_sublist due he.length).subset hleft) hid

/-- **The record of a member** that landed. -/
theorem Ends.landed (he : s.Ends cfg now due kv pre post tks t) (h : s.Books cfg)
    {b : Active ν κ τ} (hb : b ∈ DecodeEngine.landing due pre tks) :
    (s.after now due pre tks t).Recorded b := by
  obtain ⟨a, ha, token, htoken, rfl⟩ := mem_landing hb
  exact (h.slot a (he.slot ha)).stepped he.apart.1 htoken he.past (he.last a ha)

/-- **The record of anybody else** stands. -/
theorem Ends.stood (he : s.Ends cfg now due kv pre post tks t) (h : s.Books cfg)
    {a : Active ν κ τ} (ha : a ∈ post ++ s.engine.pending) :
    (s.after now due pre tks t).Recorded a := by
  refine (h.slot a ?_).mono (unchanged_of_not_mem s t now (he.apart.2 a ha)) (fun _ hx => hx)
    he.clock
  rw [he.batch, List.append_assoc]
  exact List.mem_append_right _ ha

/-- The futures resolved now are those of whoever left, and in their order. -/
theorem Ends.retired (he : s.Ends cfg now due kv pre post tks t) (h : s.Books cfg) :
    (s.follow now t).retired
      = s.retired ++ (DecodeEngine.leaving due pre tks).map Active.done := by
  have hleave := leaving_sublist (ν := ν) (κ := κ) due he.length
  show s.retired ++ (List.range t.futures.length).filter _ = _
  refine congrArg _ (List.Pairwise.eq_of_mem_iff
    (List.pairwise_lt_range.sublist List.filter_sublist)
    (h.slots_pairwise.sublist (hleave.trans ?_)) fun id => ?_)
  · rw [he.slots]
    exact List.sublist_append_left _ _
  · rw [List.mem_filter, List.mem_range, decide_eq_true_iff]
    constructor
    · rintro ⟨_, hres, hnot⟩
      by_contra hstays
      rw [he.landing.other id hstays] at hres
      exact hnot hres
    · intro hid
      obtain ⟨a, ha, rfl⟩ := List.mem_map.mp hid
      refine ⟨?_, ?_, he.unresolved (hleave.subset hid)⟩
      · obtain ⟨c, hc, hcd⟩ := List.mem_map.mp (hleave.subset hid)
        rw [he.landing.length, h.aligned, ← hcd]
        exact h.slots_lt (List.mem_map_of_mem (he.slot hc))
      · rw [he.landing.result a ha]
        trivial

/-- Whoever is taken from the queue enters. -/
theorem Ends.entered (he : s.Ends cfg now due kv pre post tks t) :
    (s.follow now t).entered = s.entered ++ (s.engine.pending.take (cfg.maxBatch
      - (DecodeEngine.staying due pre tks ++ post).length)).map Active.done := by
  refine follow_entered now (by rw [he.landing.batch, List.map_append]) (fun id hid => ?_) ?_
  · rw [he.batch, List.map_append]
    rw [List.map_append] at hid
    exact ((staying_sublist due he.length).append_right _).subset hid
  · intro id hid hin
    have hqueued := ((List.take_sublist _ s.engine.pending).map Active.done).subset hid
    have hnodup := he.wellFormed.nodup
    unfold DecodeEngine.slots at hnodup
    rw [List.map_append, List.nodup_append] at hnodup
    exact hnodup.2.2 id hin id hqueued rfl

/-- **Whoever left** was answered with the tokens of its steps. -/
theorem Ends.answered (he : s.Ends cfg now due kv pre post tks t) (h : s.Books cfg)
    {a : Active ν κ τ} (ha : a ∈ DecodeEngine.leaving due pre tks) :
    (s.after now due pre tks t).Answered a.done := by
  obtain ⟨hlanded, hz⟩ := List.mem_filter.mp ha
  have hrec := he.landed h hlanded
  obtain ⟨admitted, harrived, _, _, hpos⟩ := hrec.arrived
  constructor
  case result =>
    refine ⟨kv a.done a.tokens.length, ?_⟩
    rw [hrec.tokens]
    exact he.landing.result a ha
  case paired => rw [hrec.tokens]; exact hrec.paired
  case arrived =>
    refine ⟨a.request, admitted, harrived, ?_, hpos⟩
    have hcount := hrec.count
    rw [of_decide_eq_true hz, zero_add] at hcount
    rw [hrec.tokens]
    exact hcount

/-- What is reported of whoever was resolved before stands, and of whoever left it is the
gap its slot has. -/
theorem Ends.reports (he : s.Ends cfg now due kv pre post tks t) (h : s.Books cfg) :
    s.retired.map (s.after now due pre tks t).report = s.retired.map s.report ∧
      ((DecodeEngine.leaving due pre tks).map Active.done).map (s.after now due pre tks t).report
        = (DecodeEngine.leaving due pre tks).map fun a => some (a.request, a.tbtMax) := by
  constructor
  · refine List.map_congr_left fun id hid => ?_
    have hout : id ∉ pre.map Active.done := fun hin => he.unresolved hin ((h.retired id).mp hid)
    show (s.arrivals[id]?).map _ = (s.arrivals[id]?).map _
    rw [(unchanged_of_not_mem s t now hout).1]
  · rw [List.map_map]
    refine List.map_congr_left fun a ha => ?_
    obtain ⟨admitted, harrived, _, htbt, _⟩ := (he.landed h (List.mem_filter.mp ha).1).arrived
    show (s.arrivals[a.done]?).map (fun arrival =>
      (arrival.1, worstGap arrival.2 (times _ a.done))) = some (a.request, a.tbtMax)
    rw [show s.arrivals[a.done]? = some (a.request, admitted) from harrived, htbt]
    rfl

/-- **The end of a step** keeps the books. -/
theorem Books.landed (h : s.Books cfg) (he : s.Ends cfg now due kv pre post tks t) :
    Books cfg (s.after now due pre tks t) := by
  have hret := follow_retired now (t := t) h.retired h.once fun id hid => by
    rw [he.resolved hid]
    exact hid
  have hcap := h.capped
  have hstay := staying_sublist (ν := ν) (κ := κ) due he.length
  have hstaylen : (DecodeEngine.staying due pre tks ++ post).length ≤ s.engine.batch.length := by
    have hle := hstay.length_le
    rw [List.length_map, List.length_map] at hle
    rw [he.batch, List.length_append, List.length_append]
    omega
  constructor
  case capped =>
    show t.batch.length ≤ _
    rw [he.landing.batch, List.length_append, List.length_take]
    omega
  case full =>
    show t.pending ≠ [] → t.batch.length = _
    intro hne
    rw [he.landing.pending] at hne
    have hlong : cfg.maxBatch - (DecodeEngine.staying due pre tks ++ post).length
        < s.engine.pending.length := by
      by_contra hle
      exact hne (List.drop_eq_nil_of_le (not_lt.mp hle))
    rw [he.landing.batch, List.length_append, List.length_take]
    omega
  case fifo =>
    show (s.follow now t).entered ++ t.pending.map Active.done = decoders s.arrivals
    rw [he.entered, he.landing.pending, List.append_assoc, ← List.map_append,
      List.take_append_drop]
    exact h.fifo
  case held =>
    show (t.batch.map Active.done).Sublist (s.follow now t).entered
    rw [he.entered, he.landing.batch, List.map_append, List.map_append]
    have hheld := h.held
    rw [he.batch, List.map_append] at hheld
    exact ((hstay.append_right _).trans hheld).append_right _
  case aligned => exact he.landing.length.trans h.aligned
  case slot =>
    intro a ha
    rcases he.mem_slots.mp ha with ha | ha
    · exact he.landed h (List.mem_filter.mp ha).1
    · exact he.stood h ha
  case settled =>
    intro id hid hns
    have hnot : ∀ a, a ∈ DecodeEngine.staying due pre tks ∨ a ∈ post ++ s.engine.pending →
        a.done ≠ id := fun a ha heq => hns (List.mem_map.mpr ⟨a, he.mem_slots.mpr ha, heq⟩)
    by_cases hin : id ∈ pre.map Active.done
    · rcases leaving_or_staying due he.length hin with hleft | hstayed
      · obtain ⟨a, ha, rfl⟩ := List.mem_map.mp hleft
        exact he.answered h ha
      · obtain ⟨a, ha, had⟩ := List.mem_map.mp hstayed
        exact absurd had (hnot a (.inl ha))
    · have hold : id ∉ s.engine.slots := by
        rw [he.slots, List.mem_append, ← List.map_append, not_or]
        refine ⟨hin, fun hmem => ?_⟩
        obtain ⟨a, ha, had⟩ := List.mem_map.mp hmem
        exact hnot a (.inr ha) had
      refine (h.settled id hid hold).mono (unchanged_of_not_mem s t now hin) (fun _ hx => hx) ?_
      show ∀ x, _ → t.futures[id]? = some x
      rw [he.landing.other id fun hleft => hin ((leaving_sublist due he.length).subset hleft)]
      exact fun _ hx => hx
  case retired => exact hret.1
  case once => exact hret.2
  case reported =>
    intro hon
    show t.finished.map some = (s.follow now t).retired.map _
    obtain ⟨hbefore, hleft⟩ := he.reports h
    rw [he.landing.finished hon, he.retired h, List.map_append, List.map_append, h.reported hon]
    rw [hbefore, hleft, List.map_map]
    rfl
  case members =>
    intro st hst id hid
    rcases List.mem_append.mp hst with hold | hnew
    · exact h.members st hold id hid
    · rw [List.mem_singleton.mp hnew] at hid
      obtain ⟨a, ha, rfl⟩ := List.mem_map.mp hid
      exact h.slots_lt (List.mem_map_of_mem (he.slot ha))

end Ends

/-! ## §7. Every state of a run. -/

/-- The loop, and the step it has in flight: the oldest of the batch, none of whose
tokens is younger than its end. -/
structure InStep (s : DecodeEngine ν κ τ β ε) : Prop where
  running : s.batch ≠ [] → s.admitting = [] → s.Stepping
  frozen : ∀ members due,
    (s.task = .announcing members due ∨ s.task = .waiting members due) →
      members ≠ [] ∧ members <+: s.batch.map Active.done ∧
        ∀ a ∈ s.batch, a.done ∈ members → a.lastTokenTime ≤ due

/-- What holds of every state of a run. -/
structure Sound (cfg : EngineConfig) (s : DecodeRun ν κ τ β ε) : Prop where
  wellFormed : s.engine.WellFormed cfg
  books : s.Books cfg
  inStep : InStep s.engine

/-- What an admission does. -/
theorem admit_inv {cfg : EngineConfig} {s t : DecodeRun ν κ τ β ε} {now : ℚ}
    {request : Request ν κ} {kv : ℕ → ℕ → List β}
    (h : next cfg s (.admission now request kv) = some t) :
    s.clock ≤ now ∧ ∃ u, t = { s.follow now u with arrivals := s.arrivals ++ [(request, now)] } ∧
      DecodeEngine.next cfg s.engine (.admitRequest (.smooth now [] kv) now request) = some u ∧
      ((request.decodeTokens = 0 ∧ ∃ log kv', u = { s.engine with
          finished := log, futures := s.engine.futures ++ [.result ⟨[], kv'⟩] } ∧
          (cfg.onFinish → log = s.engine.finished ++ [(request, 0)])) ∨
        (request.decodeTokens ≠ 0 ∧
          (u = { DecodeEngine.enter cfg now request s.engine with
              admitting := s.engine.admitting ++ [s.engine.futures.length] } ∨
            u = (DecodeEngine.enter cfg now request s.engine).ensureStepping))) := by
  obtain ⟨hnow, h⟩ := Option.ite_none_right_eq_some.mp h
  obtain ⟨u, hu, rfl⟩ := Option.map_eq_some_iff.mp h
  refine ⟨hnow, u, rfl, hu, ?_⟩
  cases hu
  unfold DecodeEngine.admitRequest
  by_cases hz : request.decodeTokens = 0
  · have hfin := DecodeEngine.finish_smooth cfg now [] kv
      { s.engine with futures := s.engine.futures ++ [Future.pending] }
      ⟨request, 0, now, s.engine.futures.length, 0, []⟩
    refine .inl ⟨hz, if cfg.onFinish then s.engine.finished ++ [(request, 0)]
      else s.engine.finished, kv s.engine.futures.length 0, ?_, fun hon => if_pos hon⟩
    rw [if_pos hz]
    simp only [hfin, DecodeEngine.settle]
    simp
  · rw [if_neg hz]
    refine .inr ⟨hz, ?_⟩
    by_cases hstate : cfg.onState = true
    · exact .inl (if_pos hstate)
    · exact .inr (if_neg hstate)

/-- What the return of an admission does. -/
theorem admitted_inv {cfg : EngineConfig} {s t : DecodeRun ν κ τ β ε} {now : ℚ} {done : ℕ}
    (h : next cfg s (.admitted now done) = some t) :
    s.clock ≤ now ∧ done ∈ s.engine.admitting ∧ ∃ u, t = s.follow now u ∧
      DecodeEngine.next cfg s.engine (.admitted done (.ok ())) = some u ∧
      u = DecodeEngine.ensureStepping
        { s.engine with admitting := s.engine.admitting.erase done } := by
  obtain ⟨hnow, h⟩ := Option.ite_none_right_eq_some.mp h
  obtain ⟨u, hu, rfl⟩ := Option.map_eq_some_iff.mp h
  have hu' : DecodeEngine.admitted done (.ok ()) s.engine = some u := hu
  unfold DecodeEngine.admitted at hu'
  by_cases hdone : done ∈ s.engine.admitting
  · rw [if_pos hdone] at hu'
    cases hu'
    exact ⟨hnow, hdone, _, rfl, hu, rfl⟩
  · rw [if_neg hdone] at hu'
    cases hu'

/-- What a segment of the step task does: it moves the task alone, or lands a step. -/
theorem step_inv {cfg : EngineConfig} {s t : DecodeRun ν κ τ β ε} (hs : s.Sound cfg)
    {now claim : ℚ} {tks : List τ} {kv : ℕ → ℕ → List β}
    (h : next cfg s (.step now claim tks kv) = some t) :
    s.clock ≤ now ∧ now ≤ claim ∧ s.engine.Stepping ∧
      ∃ u, DecodeEngine.next cfg s.engine (.step (.smooth claim tks kv)) = some u ∧
      ((t = s.follow now u ∧ ∃ task, u = { s.engine with task := task } ∧
          (((s.engine.task = .created ∨ s.engine.task = .reporting) ∧
              task = DecodeEngine.looped cfg claim s.engine.batch) ∨
            ∃ members due, s.engine.task = .announcing members due ∧
              task = .waiting members due)) ∨
        ∃ pre post due task, s.engine.task = .waiting (pre.map Active.done) due ∧
          s.engine.batch = pre ++ post ∧ pre ≠ [] ∧ due ≤ now ∧ tks.length = pre.length ∧
          (∀ a ∈ pre, a.lastTokenTime ≤ due) ∧
          t = { s.follow now u with steps := s.steps ++ [⟨pre.map Active.done, due, tks⟩] } ∧
          u = { DecodeEngine.landed cfg due kv pre post tks s.engine with task := task } ∧
          (task = .reporting ∨ task = DecodeEngine.looped cfg claim u.batch)) := by
  obtain ⟨hnow, h⟩ := Option.ite_none_right_eq_some.mp h
  obtain ⟨u, hu, rfl⟩ := Option.map_eq_some_iff.mp h
  have hu' : (DecodeEngine.resume cfg (.smooth claim tks kv) s.engine).map Prod.fst = some u := hu
  obtain ⟨hclock, hkept⟩ := hnow
  unfold Kept at hkept
  refine ⟨hclock, hkept.1, ?_, u, hu, ?_⟩
  · unfold DecodeEngine.Stepping
    unfold DecodeEngine.resume DecodeEngine.body at hu'
    cases htask : s.engine.task <;> simp [htask] at hu' ⊢
  · cases htask : s.engine.task with
    | absent => simp [DecodeEngine.resume, DecodeEngine.body, htask] at hu'
    | ended exc => simp [DecodeEngine.resume, DecodeEngine.body, htask] at hu'
    | created =>
        rw [DecodeEngine.resume_head cfg claim tks kv (.inl htask)] at hu'
        cases hu'
        exact .inl ⟨by simp [ending, htask, follow], _, rfl, .inl ⟨.inl rfl, rfl⟩⟩
    | reporting =>
        rw [DecodeEngine.resume_head cfg claim tks kv (.inr htask)] at hu'
        cases hu'
        exact .inl ⟨by simp [ending, htask, follow], _, rfl, .inl ⟨.inr rfl, rfl⟩⟩
    | announcing members due =>
        rw [DecodeEngine.resume_announced cfg claim tks kv htask] at hu'
        cases hu'
        exact .inl ⟨by simp [ending, htask, follow], _, rfl, .inr ⟨members, due, rfl, rfl⟩⟩
    | waiting members due =>
        rw [htask] at hkept
        obtain ⟨_, hdue, hlen⟩ := hkept
        obtain ⟨hne, hprefix, hlast⟩ := hs.inStep.frozen members due (.inr htask)
        obtain ⟨rest, hrest⟩ := hprefix
        -- the members are the oldest of the batch
        obtain ⟨pre, post, hb, hpre, hpost⟩ := List.map_eq_append_iff.mp hrest.symm
        have hnd : (s.engine.batch.map Active.done).Nodup :=
          hs.wellFormed.nodup.sublist ((List.sublist_append_left _ _).map _)
        rw [DecodeEngine.resume_waited cfg claim kv htask hb hpre hlen hnd] at hu'
        cases hu'
        refine .inr ⟨pre, post, due, _, by rw [hpre], hb, ?_, hdue, ?_, ?_, ?_, rfl, ?_⟩
        · rintro rfl
          exact hne hpre.symm
        · rw [hlen, ← hpre, List.length_map]
        · intro a ha
          refine hlast a (by rw [hb]; exact List.mem_append_left _ ha) ?_
          rw [← hpre]
          exact List.mem_map_of_mem ha
        · rw [hpre]
          simp [ending, htask]
        · by_cases hstate : cfg.onState = true
          · exact .inl (if_pos hstate)
          · exact .inr (if_neg hstate)

theorem ensureStepping_frame (s : DecodeEngine ν κ τ β ε) :
    s.ensureStepping.batch = s.batch ∧ s.ensureStepping.pending = s.pending ∧
      s.ensureStepping.futures = s.futures ∧ s.ensureStepping.finished = s.finished ∧
      (s.ensureStepping.task = s.task ∨ s.ensureStepping.task = .created) ∧
      (s.batch ≠ [] → s.ensureStepping.Stepping) := by
  unfold DecodeEngine.ensureStepping
  by_cases hst : s.Stepping ∨ s.batch = []
  · rw [if_pos hst]
    exact ⟨rfl, rfl, rfl, rfl, .inl rfl, fun hb => hst.resolve_right hb⟩
  · rw [if_neg hst]
    exact ⟨rfl, rfl, rfl, rfl, .inr rfl, fun _ => trivial⟩

/-- Where the head of the loop left the task, the step in flight is the batch. -/
theorem InStep.looped {cfg : EngineConfig} {s : DecodeEngine ν κ τ β ε} {claim : ℚ}
    (htask : s.task = DecodeEngine.looped cfg claim s.batch)
    (hlast : ∀ a ∈ s.batch, a.lastTokenTime ≤ claim) : InStep s := by
  unfold DecodeEngine.looped at htask
  constructor
  case running =>
    intro hb _
    rw [if_neg hb] at htask
    unfold DecodeEngine.Stepping
    rw [htask]
    by_cases hbusy : cfg.onComputeBusy = true
    · rw [if_pos hbusy]
      trivial
    · rw [if_neg hbusy]
      trivial
  case frozen =>
    intro members due hor
    rw [htask] at hor
    by_cases hb : s.batch = []
    · simp [hb] at hor
    · have hfrozen : members = s.batch.map Active.done ∧ due = claim := by
        rw [if_neg hb] at hor
        by_cases hbusy : cfg.onComputeBusy = true
        · simpa [hbusy, eq_comm] using hor
        · simpa [hbusy, eq_comm] using hor
      obtain ⟨rfl, rfl⟩ := hfrozen
      exact ⟨by simpa using hb, List.prefix_refl _, fun a ha _ => hlast a ha⟩

theorem InStep.of_reporting {s : DecodeEngine ν κ τ β ε} (htask : s.task = .reporting) :
    InStep s := by
  constructor
  case running =>
    intro _ _
    unfold DecodeEngine.Stepping
    rw [htask]
    trivial
  case frozen =>
    intro members due hor
    simp [htask] at hor

/-- A batch that gained a slot at its end leaves the step in flight as it was. -/
theorem InStep.enter {cfg : EngineConfig} {s u : DecodeEngine ν κ τ β ε} (h : InStep s)
    {now : ℚ} {request : Request ν κ} (hfresh : s.futures.length ∉ s.batch.map Active.done)
    (hu : u = { DecodeEngine.enter cfg now request s with
        admitting := s.admitting ++ [s.futures.length] } ∨
      u = (DecodeEngine.enter cfg now request s).ensureStepping) : InStep u := by
  have hbatch : (DecodeEngine.enter cfg now request s).task = s.task ∧
      ((DecodeEngine.enter cfg now request s).batch = s.batch ∨
        (DecodeEngine.enter cfg now request s).batch = s.batch ++ [⟨request,
          request.decodeTokens, now, s.futures.length, 0, []⟩]) := by
    unfold DecodeEngine.enter
    split
    · exact ⟨rfl, .inr rfl⟩
    · exact ⟨rfl, .inl rfl⟩
  obtain ⟨hb, _, _, _, htask, hstepping⟩ :=
    ensureStepping_frame (DecodeEngine.enter cfg now request s)
  have hparts : u.batch = (DecodeEngine.enter cfg now request s).batch ∧
      (u.task = s.task ∨ u.task = .created) := by
    rcases hu with rfl | rfl
    · exact ⟨rfl, .inl hbatch.1⟩
    · exact ⟨hb, by rw [← hbatch.1]; exact htask⟩
  constructor
  case running =>
    intro hne hadm
    rcases hu with rfl | rfl
    · simp at hadm
    · exact hstepping (hb ▸ hne)
  case frozen =>
    intro members due hor
    rcases hparts.2 with hsame | hcreated
    · rw [hsame] at hor
      obtain ⟨hne, hprefix, hlast⟩ := h.frozen members due hor
      rw [hparts.1]
      rcases hbatch.2 with heq | heq
      · rw [heq]
        exact ⟨hne, hprefix, hlast⟩
      · rw [heq]
        refine ⟨hne, ?_, fun a ha hin => ?_⟩
        · rw [List.map_append]
          exact hprefix.trans (List.prefix_append _ _)
        · rcases List.mem_append.mp ha with ha | ha
          · exact hlast a ha hin
          · rw [List.mem_singleton.mp ha] at hin
            exact absurd (List.IsPrefix.subset hprefix hin) hfresh
    · simp [hcreated] at hor

/-- **Every event keeps the books sound.** -/
theorem Sound.next {cfg : EngineConfig} {s t : DecodeRun ν κ τ β ε} {ev : Event ν κ β τ}
    (h : s.Sound cfg) (hs : DecodeRun.next cfg s ev = some t) : t.Sound cfg := by
  -- the future an admission makes is nobody's yet
  have hfresh : s.engine.futures.length ∉ s.engine.batch.map Active.done := by
    intro hid
    have hslot : s.engine.futures.length ∈ s.engine.slots := by
      unfold DecodeEngine.slots
      rw [List.map_append]
      exact List.mem_append_left _ hid
    exact absurd (h.wellFormed.fresh hslot) (lt_irrefl _)
  cases ev with
  | admission now request kv =>
      -- nothing to decode is answered at once; else a slot enters
      obtain ⟨hnow, u, rfl, hu, ⟨hz, log, kv', rfl, hlog⟩ | ⟨hz, hcases⟩⟩ := admit_inv hs
      · exact ⟨DecodeEngine.wellFormed_step h.wellFormed hu,
          h.books.answerAtOnce hnow hz kv' rfl rfl rfl hlog,
          ⟨h.inStep.running, h.inStep.frozen⟩⟩
      · have hparts : u.batch = (DecodeEngine.enter cfg now request s.engine).batch ∧
            u.pending = (DecodeEngine.enter cfg now request s.engine).pending ∧
            u.futures = s.engine.futures ++ [Future.pending] ∧
            u.finished = s.engine.finished := by
          have henter := DecodeEngine.enter_futures cfg now request s.engine
          have hfin : (DecodeEngine.enter cfg now request s.engine).finished
              = s.engine.finished := by
            unfold DecodeEngine.enter
            split <;> rfl
          obtain ⟨hb, hp, hf, hfin', _⟩ :=
            ensureStepping_frame (DecodeEngine.enter cfg now request s.engine)
          rcases hcases with rfl | rfl
          · exact ⟨rfl, rfl, henter, hfin⟩
          · exact ⟨hb, hp, hf.trans henter, hfin'.trans hfin⟩
        obtain ⟨hb, hp, hf, hfin⟩ := hparts
        exact ⟨DecodeEngine.wellFormed_step h.wellFormed hu,
          h.books.enter hnow hz hb hp hf hfin, h.inStep.enter hfresh hcases⟩
  | admitted now done =>
      obtain ⟨hnow, _, u, rfl, hu, heq⟩ := admitted_inv hs
      obtain ⟨hb, hp, hf, hfin, htask, hstepping⟩ := ensureStepping_frame
        { s.engine with admitting := s.engine.admitting.erase done }
      rw [← heq] at hb hp hf hfin htask hstepping
      rw [follow_frame s now hb hf]
      refine ⟨DecodeEngine.wellFormed_step h.wellFormed hu, h.books.frame hnow hb hp hf hfin,
        ⟨fun hne _ => hstepping (hb ▸ hne), fun members due hor => ?_⟩⟩
      rcases htask with hsame | hcreated
      · rw [show u.task = s.engine.task from hsame] at hor
        show members ≠ [] ∧ members <+: u.batch.map Active.done ∧ ∀ a ∈ u.batch, _
        rw [hb]
        exact h.inStep.frozen members due hor
      · simp [hcreated] at hor
  | step now claim tks kv =>
      obtain ⟨hnow, hclaim, _, u, hu, hcases⟩ := step_inv h hs
      have hw := DecodeEngine.wellFormed_step h.wellFormed hu
      rcases hcases with ⟨rfl, task, rfl, htask⟩ |
        ⟨pre, post, due, task, hwait, hb, _, hdue, hlen, hlast, rfl, hlanded, htask⟩
      -- the task moved, and nothing landed
      · rw [follow_frame s now (t := { s.engine with task := task }) rfl rfl]
        refine ⟨hw, h.books.frame hnow rfl rfl rfl rfl, ?_⟩
        rcases htask with ⟨_, rfl⟩ | ⟨members, due, hann, rfl⟩
        · refine InStep.looped rfl fun a ha => ?_
          exact ((h.books.slot a (List.mem_append_left _ ha)).past.trans hnow).trans hclaim
        · refine ⟨fun _ _ => trivial, fun members' due' hor => ?_⟩
          rcases hor with hor | hor
          · cases hor
          · cases hor
            exact h.inStep.frozen members due (.inl hann)
      · have hnd : (pre.map Active.done).Nodup := by
          refine h.wellFormed.nodup.sublist ?_
          unfold DecodeEngine.slots
          rw [hb, List.append_assoc]
          exact (List.sublist_append_left _ _).map _
        have hlt : ∀ a ∈ pre, a.done < s.engine.futures.length := fun a ha => by
          refine h.wellFormed.fresh (List.mem_map_of_mem ?_)
          rw [hb]
          exact List.mem_append_left _ (List.mem_append_left _ ha)
        -- a step landed, and with it what its slots emit
        have hbooks := h.books.landed ⟨h.wellFormed, hnow, hdue, hb, hlen, hlast,
          landing_of_landed hlen hnd hlt hlanded⟩
        refine ⟨hw, hbooks, ?_⟩
        have hutask : u.task = task := by rw [hlanded]
        rcases htask with rfl | htask
        · exact InStep.of_reporting hutask
        · refine InStep.looped (hutask.trans htask) fun a ha => ?_
          exact (hbooks.slot a (List.mem_append_left _ ha)).past.trans hclaim

theorem sound_of_run {cfg : EngineConfig} {s : DecodeRun ν κ τ β ε}
    (h : (machine cfg).Reachable s) : s.Sound cfg := by
  refine h.invariant (P := Sound cfg) ?_ fun _ _ _ hs hst => hs.next hst
  rintro _ ⟨now, rfl⟩
  refine ⟨DecodeEngine.wellFormed_new cfg, ?_, ⟨fun hb => absurd rfl hb, fun _ _ hor => ?_⟩⟩
  · constructor
    case capped => exact Nat.zero_le _
    case full => exact fun hne => absurd rfl hne
    case fifo => rfl
    case held => exact List.Sublist.slnil
    case aligned => rfl
    case slot => exact fun a ha => absurd ha (by simp [DecodeEngine.new])
    case settled => exact fun id hid => absurd hid (Nat.not_lt_zero id)
    case retired => exact fun id => by simp [DecodeEngine.new, Future.Resolved]
    case once => exact List.nodup_nil
    case reported => exact fun _ => rfl
    case members => exact fun st hst => absurd hst (by simp)
  · simp [DecodeEngine.new] at hor

/-- What a request got by the time it is retired: once, as many tokens as it asked for,
those its steps emitted for it, and the largest of its gaps for `on_finish`. -/
structure Served (s : DecodeRun ν κ τ β ε) (id : ℕ) : Prop where
  once : s.retired.count id = 1
  answered : s.Answered id
  tbt : ∀ request now, s.arrivals[id]? = some (request, now) →
    ∃ tbt, s.report id = some (request, tbt) ∧ (s.times id = [] → tbt = 0) ∧
      (s.times id ≠ [] → IsGreatest {g | g ∈ gaps now (s.times id)} tbt)

/-- **The engine, in any state of a run.** -/
structure Accounted (cfg : EngineConfig) (s : DecodeRun ν κ τ β ε) : Prop where
  capped : s.engine.batch.length ≤ cfg.maxBatch
  full : s.engine.pending ≠ [] → s.engine.batch.length = cfg.maxBatch
  /-- Whoever entered the batch did so in the order of admissions, and whoever is queued
  comes after them, in that order. -/
  fifo : s.entered ++ s.engine.pending.map Active.done = decoders s.arrivals
  running : s.engine.batch ≠ [] → s.engine.admitting = [] → s.engine.Stepping
  /-- Nobody is lost: an admission is held, its future open, or it was served. -/
  owed : ∀ id < s.arrivals.length,
    (id ∈ s.engine.slots ∧ s.engine.Open id ∧ id ∉ s.retired) ∨
      (id ∉ s.engine.slots ∧ s.Served id)
  reported : cfg.onFinish → s.engine.finished.map some = s.retired.map s.report

theorem Sound.served {cfg : EngineConfig} {s : DecodeRun ν κ τ β ε} (h : s.Sound cfg) {id : ℕ}
    (hid : id < s.arrivals.length) (hns : id ∉ s.engine.slots) : s.Served id := by
  have hanswered := h.books.settled id hid hns
  obtain ⟨kv, hkv⟩ := hanswered.result
  constructor
  case once =>
    refine List.count_eq_one_of_mem h.books.once ((h.books.retired id).mpr ?_)
    rw [hkv]
    trivial
  case answered => exact hanswered
  case tbt =>
    intro request now harrived
    obtain ⟨request', now', harrived', _, hpos⟩ := hanswered.arrived
    rw [harrived] at harrived'
    cases harrived'
    refine ⟨worstGap now (s.times id), ?_, fun hnil => ?_, fun hne => worstGap_isGreatest hne hpos⟩
    · unfold report
      rw [harrived]
      rfl
    · rw [hnil]
      rfl

theorem accounted_of_run {cfg : EngineConfig} {s : DecodeRun ν κ τ β ε}
    (h : (machine cfg).Reachable s) : s.Accounted cfg := by
  have hs := sound_of_run h
  constructor
  case capped => exact hs.books.capped
  case full => exact hs.books.full
  case fifo => exact hs.books.fifo
  case running => exact hs.inStep.running
  case owed =>
    intro id hid
    by_cases hin : id ∈ s.engine.slots
    · have hopen := hs.wellFormed.live id hin
      refine .inl ⟨hin, hopen, fun hret => ?_⟩
      have hres := (hs.books.retired id).mp hret
      rw [show s.engine.futures[id]? = some .pending from hopen] at hres
      exact hres
    · exact .inr ⟨hin, hs.served hid hin⟩
  case reported => exact hs.books.reported

/-! ## §8. Nobody waits forever. -/

/-- The tokens still to come for whoever was admitted no later than `id`. -/
def work (id : ℕ) (slots : List (Active ν κ τ)) : ℕ :=
  (slots.map fun a => if a.done ≤ id then a.remaining.toNat else 0).sum

/-- How far the task is from the end of a step. -/
def phase : StepTask ε → ℕ
  | .waiting _ _ => 0
  | .announcing _ _ => 1
  | .created => 2
  | .reporting => 2
  | .absent => 3
  | .ended _ => 3

/-- What is left before `id` leaves: every segment of the step task lowers it. -/
def left (id : ℕ) (s : DecodeEngine ν κ τ β ε) : ℕ :=
  4 * work id (s.batch ++ s.pending) + phase s.task

theorem left_congr {id : ℕ} {s t : DecodeEngine ν κ τ β ε}
    (hwork : work id (t.batch ++ t.pending) = work id (s.batch ++ s.pending))
    (htask : t.task = s.task) : left id t = left id s := by
  unfold left
  rw [hwork, htask]

/-- The task went on. -/
theorem left_lt_of_phase {id : ℕ} {s t : DecodeEngine ν κ τ β ε}
    (hwork : work id (t.batch ++ t.pending) = work id (s.batch ++ s.pending))
    (hphase : phase t.task < phase s.task) : left id t < left id s := by
  unfold left
  rw [hwork]
  exact Nat.add_lt_add_left hphase _

/-- A token came. -/
theorem left_lt_of_work {id : ℕ} {s t : DecodeEngine ν κ τ β ε}
    (hwork : work id (t.batch ++ t.pending) < work id (s.batch ++ s.pending)) :
    left id t < left id s := by
  have hphase : phase t.task ≤ 3 := by
    cases htask : t.task <;> simp [phase]
  unfold left
  omega

/-- A segment of the step task. -/
def Event.IsStep : Event ν κ β τ → Prop
  | .step _ _ _ _ => True
  | _ => False

/-- The return of an admission. -/
def Event.IsAdmitted : Event ν κ β τ → Prop
  | .admitted _ _ => True
  | _ => False

theorem work_append (id : ℕ) (l l' : List (Active ν κ τ)) :
    work id (l ++ l') = work id l + work id l' := by
  unfold work
  rw [List.map_append, List.sum_append]

/-- Whoever is in a step has one token fewer to go after it. -/
theorem work_staying (id : ℕ) (due : ℚ) : ∀ {pre : List (Active ν κ τ)} {tks : List τ},
    tks.length = pre.length → (∀ a ∈ pre, 0 < a.remaining) →
      work id (DecodeEngine.staying due pre tks) + pre.countP (fun a => a.done ≤ id)
        ≤ work id pre := by
  intro pre
  induction pre with
  | nil => exact fun _ _ => le_rfl
  | cons a pre ih =>
      intro tks hlen hpos
      cases tks with
      | nil => cases hlen
      | cons t tks =>
          have hrest := ih (Nat.succ.inj hlen) fun c hc => hpos c (List.mem_cons_of_mem _ hc)
          have ha := hpos a List.mem_cons_self
          have hcons : work id (a :: pre)
              = (if a.done ≤ id then a.remaining.toNat else 0) + work id pre := rfl
          have hland : work id (DecodeEngine.staying due (a :: pre) (t :: tks))
              = (if a.done ≤ id then (a.remaining - 1).toNat else 0)
                + work id (DecodeEngine.staying due pre tks) := by
            unfold DecodeEngine.staying DecodeEngine.landing
            rw [List.zipWith_cons_cons, List.filter_cons]
            by_cases hz : a.remaining - 1 = 0
            · rw [if_neg (by simp [DecodeEngine.stepped, hz]), hz]
              simp
            · rw [if_pos (by simp [DecodeEngine.stepped, hz])]
              rfl
          rw [hcons, hland, List.countP_cons]
          by_cases hle : a.done ≤ id
          · simp only [hle, if_true, decide_true]
            omega
          · simp only [hle, if_false, decide_false, Bool.false_eq_true]
            omega

/-- While a slot is held, the batch has somebody in it, and the oldest of them came no
later. -/
theorem Sound.oldest {cfg : EngineConfig} (hcfg : 1 ≤ cfg.maxBatch) {s : DecodeRun ν κ τ β ε}
    (h : s.Sound cfg) {id : ℕ} (hid : id ∈ s.engine.slots) :
    ∃ a rest, s.engine.batch = a :: rest ∧ a.done ≤ id := by
  cases hb : s.engine.batch with
  | nil =>
      have hp : s.engine.pending ≠ [] := by
        intro hp
        unfold DecodeEngine.slots at hid
        rw [hb, hp] at hid
        cases hid
      have hfull := h.books.full hp
      rw [hb] at hfull
      exact absurd hfull (by simp; omega)
  | cons a rest =>
      refine ⟨a, rest, rfl, ?_⟩
      have hsorted := h.books.slots_pairwise
      unfold DecodeEngine.slots at hid hsorted
      rw [hb, List.cons_append, List.map_cons] at hid hsorted
      rcases List.mem_cons.mp hid with rfl | hid
      · exact le_rfl
      · exact ((List.pairwise_cons.mp hsorted).1 id hid).le

/-- What arrives later is no work ahead of `id`. -/
theorem work_enter {cfg : EngineConfig} {s : DecodeEngine ν κ τ β ε} {id : ℕ}
    (hid : id < s.futures.length) (now : ℚ) (request : Request ν κ) :
    work id ((DecodeEngine.enter cfg now request s).batch
        ++ (DecodeEngine.enter cfg now request s).pending) = work id (s.batch ++ s.pending) := by
  have hnew : work id [(⟨request, request.decodeTokens, now, s.futures.length, 0, []⟩ :
      Active ν κ τ)] = 0 := by
    show (if s.futures.length ≤ id then request.decodeTokens.toNat else 0) + 0 = 0
    rw [if_neg (by omega)]
  unfold DecodeEngine.enter
  split
  · show work id ((s.batch ++ [_]) ++ s.pending) = _
    rw [work_append, work_append, work_append, hnew]
    omega
  · show work id (s.batch ++ (s.pending ++ [_])) = _
    rw [work_append, work_append, work_append, hnew]
    omega

/-- **A step that ended** leaves less to come. -/
theorem work_landed {cfg : EngineConfig} (hcfg : 1 ≤ cfg.maxBatch) {s : DecodeRun ν κ τ β ε}
    (h : s.Sound cfg) {id : ℕ} (hid : id ∈ s.engine.slots) {t : DecodeEngine ν κ τ β ε} {due : ℚ}
    {kv : ℕ → ℕ → List β} {pre post : List (Active ν κ τ)} {tks : List τ}
    (hb : s.engine.batch = pre ++ post) (hne : pre ≠ []) (hlen : tks.length = pre.length)
    (ht : Landing cfg s.engine t due kv pre post tks) :
    work id (t.batch ++ t.pending) < work id (s.engine.batch ++ s.engine.pending) := by
  obtain ⟨a, rest, hold, hle⟩ := h.oldest hcfg hid
  have hpos : ∀ c ∈ pre, 0 < c.remaining := by
    intro c hc
    refine h.wellFormed.positive c ?_
    rw [hb]
    exact List.mem_append_left _ (List.mem_append_left _ hc)
  -- the oldest of the batch is a member of every step
  have hcount : 0 < pre.countP fun a => a.done ≤ id := by
    cases pre with
    | nil => exact absurd rfl hne
    | cons c pre =>
        rw [hold, List.cons_append] at hb
        cases hb
        exact List.countP_pos_iff.mpr ⟨a, List.mem_cons_self, decide_eq_true hle⟩
  have hstay := work_staying id due hlen hpos
  rw [ht.batch, ht.pending, hb, List.append_assoc, List.take_append_drop, work_append,
    work_append, work_append, work_append]
  omega

theorem work_congr {s t : DecodeEngine ν κ τ β ε} (hb : t.batch = s.batch)
    (hp : t.pending = s.pending) (id : ℕ) :
    work id (t.batch ++ t.pending) = work id (s.batch ++ s.pending) := by
  rw [hb, hp]

/-- `_ensure_stepping` starts a loop that is not running, and leaves one that is. -/
theorem ensureStepping_task (s : DecodeEngine ν κ τ β ε) (hne : s.batch ≠ []) :
    (s.Stepping ∧ s.ensureStepping.task = s.task) ∨
      (¬ s.Stepping ∧ s.ensureStepping.task = .created ∧ phase s.task = 3) := by
  unfold DecodeEngine.ensureStepping
  by_cases hst : s.Stepping
  · rw [if_pos (.inl hst)]
    exact .inl ⟨hst, rfl⟩
  · rw [if_neg (by simp [hst, hne])]
    refine .inr ⟨hst, rfl, ?_⟩
    unfold DecodeEngine.Stepping at hst
    cases htask : s.task <;> simp [htask, phase] at hst ⊢

/-- **Every event** leaves less to wait for, or is not what the slot is waiting for. -/
theorem left_next {cfg : EngineConfig} (hcfg : 1 ≤ cfg.maxBatch) {s t : DecodeRun ν κ τ β ε}
    {ev : Event ν κ β τ} (h : s.Sound cfg) {id : ℕ} (hid : id ∈ s.engine.slots)
    (hs : next cfg s ev = some t) :
    left id t.engine < left id s.engine ∨ (left id t.engine = left id s.engine ∧
      (t.engine.Stepping ↔ s.engine.Stepping) ∧
      ¬ (if s.engine.Stepping then ev.IsStep else ev.IsAdmitted)) := by
  obtain ⟨a, rest, hold, _⟩ := h.oldest hcfg hid
  have hne : s.engine.batch ≠ [] := by
    rw [hold]
    exact List.cons_ne_nil _ _
  have hlt := h.wellFormed.fresh hid
  -- a slot waits for a step where one is running, and else for an admission
  have hstepping : ∀ u : DecodeEngine ν κ τ β ε, u.task = s.engine.task →
      (u.Stepping ↔ s.engine.Stepping) := by
    intro u hu
    unfold DecodeEngine.Stepping
    rw [hu]
  cases ev with
  | admission now request kv =>
      have hnot : ¬ (if s.engine.Stepping then (Event.admission (τ := τ) now request kv).IsStep
          else (Event.admission (τ := τ) now request kv).IsAdmitted) := by
        split
        · exact fun hf => hf
        · exact fun hf => hf
      obtain ⟨_, u, rfl, _, ⟨_, log, kv', rfl, _⟩ | ⟨_, hcases⟩⟩ := admit_inv hs
      · exact .inr ⟨rfl, Iff.rfl, hnot⟩
      · have hwork : work id ((DecodeEngine.enter cfg now request s.engine).batch
            ++ (DecodeEngine.enter cfg now request s.engine).pending)
              = work id (s.engine.batch ++ s.engine.pending) := work_enter hlt now request
        have htask : (DecodeEngine.enter cfg now request s.engine).task = s.engine.task := by
          unfold DecodeEngine.enter
          split <;> rfl
        -- the admission ends without a step task, or makes one
        rcases hcases with rfl | rfl
        · exact .inr ⟨left_congr hwork htask, hstepping _ htask, hnot⟩
        · obtain ⟨hb, hp, _⟩ := ensureStepping_frame (DecodeEngine.enter cfg now request s.engine)
          have hwork' := (work_congr hb hp id).trans hwork
          have hne' : (DecodeEngine.enter cfg now request s.engine).batch ≠ [] := by
            unfold DecodeEngine.enter
            split
            · simp
            · exact hne
          rcases ensureStepping_task _ hne' with ⟨_, hsame⟩ | ⟨_, hcreated, hphase⟩
          · have hsame' := hsame.trans htask
            exact .inr ⟨left_congr hwork' hsame', hstepping _ hsame', hnot⟩
          · refine .inl (left_lt_of_phase hwork' ?_)
            show phase (DecodeEngine.ensureStepping _).task < _
            rw [hcreated, ← htask, hphase]
            exact Nat.lt_succ_self 2
  | admitted now done =>
      obtain ⟨_, _, u, rfl, _, heq⟩ := admitted_inv hs
      obtain ⟨hb, hp, _⟩ := ensureStepping_frame
        { s.engine with admitting := s.engine.admitting.erase done }
      have hwork : work id (u.batch ++ u.pending)
          = work id (s.engine.batch ++ s.engine.pending) := by
        rw [heq]
        exact work_congr hb hp id
      rcases ensureStepping_task { s.engine with admitting := s.engine.admitting.erase done } hne
        with ⟨hst, htask⟩ | ⟨_, hcreated, hphase⟩
      · have htask' : u.task = s.engine.task := by
          rw [heq]
          exact htask
        refine .inr ⟨left_congr hwork htask', hstepping u htask', ?_⟩
        rw [if_pos (show s.engine.Stepping from hst)]
        exact fun hf => hf
      · refine .inl (left_lt_of_phase hwork ?_)
        show phase u.task < phase s.engine.task
        rw [show u.task = .created by rw [heq]; exact hcreated,
          show phase s.engine.task = 3 from hphase]
        exact Nat.lt_succ_self 2
  | step now claim tks kv =>
      refine .inl ?_
      obtain ⟨_, _, _, u, hu, ⟨rfl, task, rfl, htask⟩ |
        ⟨pre, post, due, task, hwait, hb, hpre, _, hlen, _, rfl, hlanded, _⟩⟩ := step_inv h hs
      · refine left_lt_of_phase rfl ?_
        show phase task < phase s.engine.task
        -- the task loops, or goes from its report to its wait
        rcases htask with ⟨hhead, rfl⟩ | ⟨members, due, hann, rfl⟩
        · have hphase : phase s.engine.task = 2 := by
            rcases hhead with hhead | hhead <;> rw [hhead] <;> rfl
          unfold DecodeEngine.looped
          rw [if_neg hne, hphase]
          split
          · exact Nat.one_lt_two
          · exact Nat.zero_lt_two
        · rw [hann]
          exact Nat.zero_lt_one
      -- a step landed: every slot of the batch has a token less to emit
      · have hnd : (pre.map Active.done).Nodup := by
          refine h.wellFormed.nodup.sublist ?_
          unfold DecodeEngine.slots
          rw [hb, List.append_assoc]
          exact (List.sublist_append_left _ _).map _
        have hfuture : ∀ a ∈ pre, a.done < s.engine.futures.length := fun a ha => by
          refine h.wellFormed.fresh (List.mem_map_of_mem ?_)
          rw [hb]
          exact List.mem_append_left _ (List.mem_append_left _ ha)
        exact left_lt_of_work (work_landed hcfg h hid hb hpre hlen
          (landing_of_landed hlen hnd hfuture hlanded))

theorem resume_isSome (cfg : EngineConfig) (o : Outcomes τ β ε) {s : DecodeEngine ν κ τ β ε}
    (h : s.Stepping) : ∃ t, DecodeEngine.next cfg s (.step o) = some t := by
  have hbody : ∃ u, DecodeEngine.body cfg o s = some u := by
    unfold DecodeEngine.Stepping at h
    unfold DecodeEngine.body
    cases htask : s.task with
    | absent => simp [htask] at h
    | ended exc => simp [htask] at h
    | created => exact ⟨_, rfl⟩
    | announcing members due => exact ⟨_, rfl⟩
    | waiting members due => exact ⟨_, rfl⟩
    | reporting => exact ⟨_, rfl⟩
  obtain ⟨u, hu⟩ := hbody
  refine Option.isSome_iff_exists.mp ?_
  show (((DecodeEngine.body cfg o s).map _).map Prod.fst).isSome
  rw [Option.isSome_map, Option.isSome_map, hu]
  rfl

/-- A loop that is there can take its next segment, once its time has come. -/
theorem step_enabled [Inhabited τ] (cfg : EngineConfig) {s : DecodeRun ν κ τ β ε}
    (h : s.engine.Stepping) :
    (machine cfg).Enabled Event.IsStep s := by
  have hnext : ∀ (now : ℚ) (tks : List τ), s.clock ≤ now → s.Kept now now tks →
      (machine cfg).Enabled Event.IsStep s := by
    intro now tks hclock hkept
    obtain ⟨u, hu⟩ := resume_isSome cfg (.smooth now tks fun _ _ => []) h
    have hsome : (DecodeRun.next cfg s (.step now now tks fun _ _ => [])).isSome := by
      simp only [DecodeRun.next]
      rw [if_pos ⟨hclock, hkept⟩, hu]
      rfl
    obtain ⟨t, ht⟩ := Option.isSome_iff_exists.mp hsome
    exact ⟨.step now now tks fun _ _ => [], t, trivial, ht⟩
  cases htask : s.engine.task with
  | waiting members due =>
      refine hnext (max s.clock due) (List.replicate members.length default) (le_max_left _ _) ?_
      unfold Kept
      rw [htask]
      exact ⟨le_rfl, le_max_right _ _, List.length_replicate⟩
  | absent => exact hnext s.clock [] le_rfl (by unfold Kept; rw [htask]; exact ⟨le_rfl, trivial⟩)
  | created => exact hnext s.clock [] le_rfl (by unfold Kept; rw [htask]; exact ⟨le_rfl, trivial⟩)
  | reporting => exact hnext s.clock [] le_rfl (by unfold Kept; rw [htask]; exact ⟨le_rfl, trivial⟩)
  | ended exc => exact hnext s.clock [] le_rfl (by unfold Kept; rw [htask]; exact ⟨le_rfl, trivial⟩)
  | announcing members due =>
      exact hnext s.clock [] le_rfl (by unfold Kept; rw [htask]; exact ⟨le_rfl, trivial⟩)

/-- A held batch without a loop has an admission still to come back. -/
theorem admitted_enabled {cfg : EngineConfig} (hcfg : 1 ≤ cfg.maxBatch) {s : DecodeRun ν κ τ β ε}
    (h : s.Sound cfg) {id : ℕ} (hid : id ∈ s.engine.slots) (hnot : ¬ s.engine.Stepping) :
    (machine cfg).Enabled Event.IsAdmitted s := by
  obtain ⟨a, rest, hold, _⟩ := h.oldest hcfg hid
  cases hadm : s.engine.admitting with
  | nil => exact absurd (h.inStep.running (by rw [hold]; exact List.cons_ne_nil _ _) hadm) hnot
  | cons done others =>
      have hsome : (DecodeRun.next cfg s (.admitted s.clock done)).isSome := by
        simp only [DecodeRun.next, DecodeEngine.next, DecodeEngine.admitted]
        rw [if_pos le_rfl, if_pos (by rw [hadm]; exact List.mem_cons_self)]
        rfl
      obtain ⟨t, ht⟩ := Option.isSome_iff_exists.mp hsome
      exact ⟨.admitted s.clock done, t, trivial, ht⟩

/-- Records only grow. -/
theorem grows {cfg : EngineConfig} {s t : DecodeRun ν κ τ β ε} {ev : Event ν κ β τ}
    (hs : next cfg s ev = some t) : s.arrivals.length ≤ t.arrivals.length ∧
      ∀ id, id ∈ s.retired → id ∈ t.retired := by
  cases ev with
  | admission now request kv =>
      obtain ⟨_, u, rfl, _⟩ := admit_inv hs
      exact ⟨by simp, fun id hid => List.mem_append_left _ hid⟩
  | admitted now done =>
      obtain ⟨_, _, u, rfl, _⟩ := admitted_inv hs
      exact ⟨le_rfl, fun id hid => List.mem_append_left _ hid⟩
  | step now claim tks kv =>
      obtain ⟨_, hs⟩ := Option.ite_none_right_eq_some.mp hs
      obtain ⟨u, _, rfl⟩ := Option.map_eq_some_iff.mp hs
      exact ⟨le_rfl, fun id hid => List.mem_append_left _ hid⟩

/-- **Nobody waits forever** for a last token, while the loop gets its turns and the
reports come back. -/
theorem served_of_fair [Inhabited τ] {cfg : EngineConfig} (hcfg : 1 ≤ cfg.maxBatch)
    (R : (machine (ν := ν) (κ := κ) (τ := τ) (β := β) (ε := ε) cfg).Run)
    (hstep : R.Fair Event.IsStep) (hadmitted : R.Fair Event.IsAdmitted) (n id : ℕ)
    (hid : id < (R.state n).arrivals.length) :
    ∃ m, n ≤ m ∧ ∀ k, m ≤ k → (R.state k).Served id := by
  have hsound : ∀ k, (R.state k).Sound cfg := fun k => sound_of_run (R.reachable k)
  obtain ⟨m, hm, hleft⟩ := R.eventually_of_rank
    (W := fun s => id ∈ s.engine.slots) (fun s => left id s.engine)
    (fun s => decide s.engine.Stepping)
    (A := fun stepping ev => if stepping then ev.IsStep else ev.IsAdmitted)
    (fun stepping => by
      cases stepping
      · exact hadmitted
      · exact hstep) n
    (fun k _ hk => by
      by_cases hst : (R.state k).engine.Stepping
      · simp only [hst, decide_true, if_true]
        exact step_enabled cfg hst
      · simp only [hst, decide_false, Bool.false_eq_true, if_false]
        exact admitted_enabled hcfg (hsound k) hk hst)
    (fun k ev _ hev hk _ => by
      rcases left_next hcfg (hsound k) hk (R.step k ev hev) with hlt | ⟨hsame, hst, hnot⟩
      · exact .inl hlt
      · exact .inr ⟨hsame, by simp only [hst], by simpa using hnot⟩)
  have harr : ∀ k, n ≤ k → id < (R.state k).arrivals.length := fun k hk =>
    R.stays (P := fun s => id < s.arrivals.length)
      (fun i ev hev hlt => hlt.trans_le (grows (R.step i ev hev)).1) hid hk
  have hret : ∀ k, m ≤ k → id ∈ (R.state k).retired := fun k hk =>
    R.stays (P := fun s => id ∈ s.retired)
      (fun i ev hev hin => (grows (R.step i ev hev)).2 id hin)
      (List.count_pos_iff.mp (by
        rw [((hsound m).served (harr m hm) hleft).once]
        exact Nat.zero_lt_one)) hk
  refine ⟨m, hm, fun k hk => ?_⟩
  rcases (accounted_of_run (R.reachable k)).owed id (harr k (hm.trans hk)) with hheld | hserved
  · exact absurd (hret k hk) hheld.2.2
  · exact hserved.2

/-- **What every admission gets**, over every interleaving in which nothing raises: the
books of the engine stand in every state, and whoever was admitted is served in the end. -/
theorem decode_served [Inhabited τ] (cfg : EngineConfig) (hcfg : 1 ≤ cfg.maxBatch) :
    (∀ s : DecodeRun ν κ τ β ε, (machine cfg).Reachable s → s.Accounted cfg) ∧
    ∀ R : (machine (ν := ν) (κ := κ) (τ := τ) (β := β) (ε := ε) cfg).Run,
      R.Fair Event.IsStep → R.Fair Event.IsAdmitted →
      ∀ n, ∀ id < (R.state n).arrivals.length,
        ∃ m, n ≤ m ∧ ∀ k, m ≤ k → (R.state k).Served id :=
  ⟨fun _ h => accounted_of_run h, fun R hstep hadmitted n id hid =>
    served_of_fair hcfg R hstep hadmitted n id hid⟩

/-- Two requests decoded one after the other: the second waited in the queue, and its
first token is the later one. -/
def queuedDecoded : DecodeRun ℕ ℕ Unit Unit Unit :=
  ⟨⟨[], [], [.result ⟨[()], []⟩, .result ⟨[(), ()], []⟩], .ended none, [],
      [(DecodeEngine.soloRequest, 1), (DecodeEngine.asking 2, 2)]⟩, 3,
    [(DecodeEngine.soloRequest, 0), (DecodeEngine.asking 2, 0)],
    [⟨[0], 1, [()]⟩, ⟨[1], 2, [()]⟩, ⟨[1], 3, [()]⟩], [0, 1], [0, 1]⟩

/-- Both are admitted before the first step is booked; the second takes the slot that the
end of it frees. -/
def queuedEvents : List (Event ℕ ℕ Unit Unit) :=
  [.admission 0 DecodeEngine.soloRequest fun _ _ => [],
    .admission 0 (DecodeEngine.asking 2) fun _ _ => [], .step 0 1 [] fun _ _ => [],
    .step 1 2 [()] fun _ _ => [], .step 2 3 [()] fun _ _ => [], .step 3 3 [()] fun _ _ => []]

theorem queuedEvents_replay :
    Machine.replay (next DecodeEngine.soloConfig) ⟨.new, 0, [], [], [], []⟩ queuedEvents
      = some queuedDecoded := by
  decide +kernel

/-- Their run, which stops when its loop has. -/
def queuedRun : (machine (ν := ℕ) (κ := ℕ) (τ := Unit) (β := Unit) (ε := Unit)
    DecodeEngine.soloConfig).Run :=
  .ofReplay (fun _ _ _ hst => hst) ⟨0, rfl⟩ queuedEvents queuedEvents_replay

theorem queuedRun_served : queuedDecoded.Accounted DecodeEngine.soloConfig ∧
    (queuedRun.state 2).engine.pending.map Active.done = [1] ∧
    ∀ id < 2, ∃ m, 2 ≤ m ∧ ∀ k, m ≤ k → (queuedRun.state k).Served id := by
  obtain ⟨haccounted, hserved⟩ := decode_served (ν := ℕ) (κ := ℕ) (τ := Unit) (β := Unit)
    (ε := Unit) DecodeEngine.soloConfig le_rfl
  have hend : queuedRun.state 6 = queuedDecoded :=
    Machine.Run.ofReplay_state _ _ _ queuedEvents_replay le_rfl
  refine ⟨haccounted _ (hend ▸ queuedRun.reachable 6), by rfl, hserved queuedRun ?_ ?_ 2⟩
  · refine Machine.Run.ofReplay_fair _ _ _ queuedEvents_replay ?_
    rintro ⟨ev, t, hA, hstep⟩
    cases ev with
    | step now claim tks kv =>
        obtain ⟨_, hs⟩ := Option.ite_none_right_eq_some.mp hstep
        cases hs
    | admission => exact hA
    | admitted => exact hA
  · refine Machine.Run.ofReplay_fair _ _ _ queuedEvents_replay ?_
    rintro ⟨ev, t, hA, hstep⟩
    cases ev with
    | admitted now done =>
        obtain ⟨_, hdone, _⟩ := admitted_inv hstep
        cases hdone
    | admission => exact hA
    | step => exact hA

end DecodeRun

end Toso.KvCache
