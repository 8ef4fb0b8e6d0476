/-
  Toso.Tui.Session — the reducer with its commands in flight.

  The event loop feeds the reducer keys, resizes, ticks and responses, and runs
  the commands it returns; each command is answered once, in any order.

  Main results:
    * `Stacked` — the laws of the stack; an edit, a push and a pop keep them.
    * `Orderly.next` — every event keeps the laws of a session.
    * `reducer_lawful` — what holds in every reachable state.
-/
import Toso.Lib.Machine
import Toso.Tui.Turns
import Mathlib.Data.List.Nodup

namespace Toso.Tui

open Lib

/-! ## §1. The event loop. -/

/-- A command under way, with the sort and order `run_cmds` read. -/
structure Issued where
  cmd : Cmd
  sort : SortKey
  order : Order
  deriving DecidableEq, Repr

/-- The model with what was issued: `flying` are the commands not yet answered,
oldest first, `log` everything issued, newest first. -/
structure Session where
  app : App
  flying : List Issued
  log : List Issued
  deriving DecidableEq, Repr

/-- An event of the loop.  A message through the channel comes with the rows the
terminal has then; a response with the place in flight of the command it answers. -/
inductive Event
  | input (rows : ℕ) (k : KeyEvent)
  | resize (rows : ℕ)
  | tick
  | answer (rows : ℕ) (i : ℕ) (m : Msg)

/-- The message is a response to the command. -/
def Cmd.answeredBy : Cmd → Msg → Bool
  | .fetchSummary, .summaryLoaded _ => true
  | .expandPrefix _ _ id, .prefixPage id' _ => id == id'
  | .listVolumes _ _ id, .volumesPage id' _ => id == id'
  | .fetchKey _ id, .keyLoaded id' _ => id == id'
  | .search _ _ _ id, .searchResults id' _ => id == id'
  | .peek _ _ id, .peekLoaded id' _ => id == id'
  | _, _ => false

namespace Session

/-- `run_cmds`. -/
def runCmds (s : Session) (cmds : List Cmd) : Session :=
  let issued := cmds.map fun c => ⟨c, s.app.sort, s.app.order⟩
  { app := { s.app with inflight := s.app.inflight + cmds.length }
    flying := s.flying ++ issued
    log := issued.reverse ++ s.log }

/-- A message goes through the reducer, its commands are run. -/
def feed (s : Session) (m : Msg) : Session :=
  let (app, cmds) := update s.app m
  { s with app := app }.runCmds cmds

/-- The loop keeps the body's height in sync with the terminal. -/
def resized (s : Session) (rows : ℕ) : Session := { s with app := { s.app with bodyRows := rows } }

def next (s : Session) : Event → Option Session
  | .input rows k => some ((s.resized rows).feed (.key k))
  | .resize rows => some ((s.resized rows).feed .resize)
  | .tick => some (s.feed .refreshTick)
  | .answer rows i m =>
      match s.flying[i]? with
      | some q =>
          if q.cmd.answeredBy m then
            some (({ s with flying := s.flying.eraseIdx i }.resized rows).feed m)
          else none
      | none => none

/-- `App::new`, nothing asked yet; the loop's first request is a tick's. -/
def start : Session := ⟨App.new, [], []⟩

/-- Every run of the loop. -/
def machine : Machine Session Event := .ofPartial (· = start) next

end Session

/-! ## §2. The laws of the stack. -/

/-- The scope is the group of the innermost Volumes frame, or all. -/
def Scoped (stack : List Frame) (scope : Scope) : Prop :=
  (∃ below f above group, stack = below ++ f :: above ∧ (∃ list, f.kind = .volumes group list) ∧
    (∀ g ∈ above, App.scopeOf g.kind = none) ∧ scope = .group group) ∨
  (∀ g ∈ stack, App.scopeOf g.kind = none) ∧ scope = .all

/-- What `recompute_scope` computes. -/
def innermost (stack : List Frame) : Scope :=
  (stack.reverse.findSome? fun f => App.scopeOf f.kind).getD .all

theorem scopeOf_eq_some {kind : FrameKind} {scope : Scope} (h : App.scopeOf kind = some scope) :
    ∃ group, (∃ list, kind = .volumes group list) ∧ scope = .group group := by
  cases kind with
  | volumes group list =>
      cases h
      exact ⟨group, ⟨list, rfl⟩, rfl⟩
  | _ => cases h

theorem scoped_innermost (stack : List Frame) : Scoped stack (innermost stack) := by
  unfold innermost
  cases hfind : stack.reverse.findSome? fun f => App.scopeOf f.kind with
  | none =>
      refine Or.inr ⟨fun g hg => ?_, rfl⟩
      exact List.findSome?_eq_none_iff.1 hfind g (List.mem_reverse.2 hg)
  | some scope =>
      obtain ⟨above, f, below, hsplit, hf, habove⟩ := List.findSome?_eq_some_iff.1 hfind
      obtain ⟨group, hkind, rfl⟩ := scopeOf_eq_some hf
      refine Or.inl ⟨below.reverse, f, above.reverse, group, ?_, hkind, fun g hg => ?_, rfl⟩
      · have hstack := congrArg List.reverse hsplit
        simpa using hstack
      · exact habove g (List.mem_reverse.1 hg)

/-- The frames' ids grow from bottom to top and stay below the next one, the Health
frame is at the bottom, the scope is the innermost group's, every cursor is on a
row. -/
structure Stacked (app : App) : Prop where
  ids : (app.stack.map (·.id)).Pairwise (· < ·)
  known : ∀ f ∈ app.stack, f.id < app.nextId
  ground : (app.stack.map (·.kind.isHealth)).head? = some true
  scope : app.scope = innermost app.stack
  placed : ∀ f ∈ app.stack, f.kind.Placed

namespace Edits

variable {app app' : App} {f : Frame} {kind : FrameKind}

theorem mem (h : Edits app app' f kind) : f ∈ app.stack := by
  obtain ⟨n, hn, -⟩ := h.place
  exact List.mem_of_getElem? hn

/-- What the edited frame does not show, the stack does not. -/
theorem map {β : Type*} (h : Edits app app' f kind) (obs : Frame → β)
    (hobs : obs { f with kind := kind } = obs f) : app'.stack.map obs = app.stack.map obs := by
  obtain ⟨n, hn, hset⟩ := h.place
  obtain ⟨hlt, hget⟩ := List.getElem?_eq_some_iff.1 hn
  rw [hset, List.map_set, hobs, ← hget]
  apply List.ext_getElem?
  intro i
  rw [List.getElem?_set]
  by_cases hi : n = i
  · subst hi
    simp [hlt]
  · simp [hi]

/-- A frame of the edited stack is the edited one or one that was there. -/
theorem cases (h : Edits app app' f kind) {g : Frame} (hg : g ∈ app'.stack) :
    g ∈ app.stack ∨ g = { f with kind := kind } := by
  obtain ⟨n, -, hset⟩ := h.place
  rw [hset] at hg
  exact List.mem_or_eq_of_mem_set hg

/-- A frame of the edited stack is the edited one or another that was there. -/
theorem cases_of_ids (h : Edits app app' f kind) (hids : (app.stack.map (·.id)).Pairwise (· < ·))
    {g : Frame} (hg : g ∈ app'.stack) :
    g = { f with kind := kind } ∨ g ∈ app.stack ∧ g.id ≠ f.id := by
  obtain ⟨n, hn, hset⟩ := h.place
  obtain ⟨hlt, rfl⟩ := List.getElem?_eq_some_iff.1 hn
  rw [hset] at hg
  obtain ⟨m, hm, rfl⟩ := List.getElem_of_mem hg
  rw [List.length_set] at hm
  by_cases hnm : n = m
  · subst hnm
    exact Or.inl (List.getElem_set_self _)
  · right
    rw [List.getElem_set_of_ne hnm]
    refine ⟨List.getElem_mem hm, fun hid => hnm ?_⟩
    have hnodup : (app.stack.map (·.id)).Nodup := hids.imp fun h => ne_of_lt h
    refine (List.getElem?_inj (by simpa using hlt) hnodup).1 ?_
    simp [hlt, hm, hid]

/-- The frames of an edited stack, by id and entry. -/
theorem frames (h : Edits app app' f kind) (hloaded : kind.loaded = f.kind.loaded) :
    ∀ g ∈ app'.stack, ∃ g' ∈ app.stack, g'.id = g.id ∧ g'.kind.loaded = g.kind.loaded := by
  intro g hg
  rcases h.cases hg with hold | rfl
  · exact ⟨g, hold, rfl, rfl⟩
  · exact ⟨f, h.mem, rfl, hloaded.symm⟩

end Edits

/-- A response to a frame of the stack is routed to it. -/
theorem App.kindOf_mem {app : App} (hids : (app.stack.map (·.id)).Pairwise (· < ·)) {f : Frame}
    (hf : f ∈ app.stack) : app.kindOf f.id = some f.kind := by
  have hnodup : (app.stack.map (·.id)).Nodup := hids.imp fun h => ne_of_lt h
  obtain ⟨g, hg⟩ : ∃ g, app.stack.find? (·.id == f.id) = some g :=
    Option.isSome_iff_exists.1 (List.find?_isSome.2 ⟨f, hf, beq_self_eq_true _⟩)
  have hid : g.id = f.id := by simpa using List.find?_some hg
  have hsame : g = f := List.inj_on_of_nodup_map hnodup (List.mem_of_find?_eq_some hg) hf hid
  show (app.stack.find? _).map _ = _
  rw [hg, hsame]
  rfl

theorem App.mem_of_mem_pop {app : App} {f : Frame} (h : f ∈ app.pop.stack) : f ∈ app.stack := by
  unfold App.pop at h
  split at h
  case isTrue => exact List.dropLast_subset _ h
  case isFalse => exact h

/-- The scope depends on the scopes the frames set. -/
theorem innermost_congr {stack stack' : List Frame}
    (h : stack'.map (fun f => App.scopeOf f.kind) = stack.map fun f => App.scopeOf f.kind) :
    innermost stack' = innermost stack := by
  have hfind : ∀ l : List Frame, (l.reverse.findSome? fun f => App.scopeOf f.kind)
      = (l.map fun f => App.scopeOf f.kind).reverse.findSome? id := fun l => by
    rw [← List.map_reverse, List.findSome?_map]
    rfl
  unfold innermost
  rw [hfind, hfind, h]

namespace Stacked

variable {app app' : App}

theorem alike (h : Stacked app) (ha : Alike app app') : Stacked app' where
  ids := ha.stack ▸ h.ids
  known := ha.stack ▸ ha.nextId ▸ h.known
  ground := ha.stack ▸ h.ground
  scope := by rw [ha.scope, h.scope, ha.stack]
  placed := ha.stack ▸ h.placed

theorem edits {f : Frame} {kind : FrameKind} (h : Stacked app) (he : Edits app app' f kind)
    (hscope : App.scopeOf kind = App.scopeOf f.kind) (hground : kind.isHealth = f.kind.isHealth)
    (hplaced : f.kind.Placed → kind.Placed) : Stacked app' where
  ids := by
    rw [he.map (·.id) rfl]
    exact h.ids
  known := by
    intro g hg
    rw [he.nextId]
    rcases he.cases hg with hold | rfl
    · exact h.known g hold
    · exact h.known f he.mem
  ground := by
    rw [he.map (fun f => f.kind.isHealth) hground]
    exact h.ground
  scope := by
    rw [he.scope, h.scope]
    exact (innermost_congr (he.map (fun f => App.scopeOf f.kind) hscope)).symm
  placed := by
    intro g hg
    rcases he.cases hg with hold | rfl
    · exact h.placed g hold
    · exact hplaced (h.placed f he.mem)

theorem moves {f : Frame} {kind : FrameKind} (h : Stacked app) (he : Edits app app' f kind)
    (hm : Moves f.kind kind) : Stacked app' :=
  h.edits he hm.scope hm.ground hm.placed

/-- A paged frame that pages the same level. -/
theorem pages {f : Frame} {kind : FrameKind} {p p' : Pages} (h : Stacked app)
    (he : Edits app app' f kind) (hp : f.kind.pages = some p) (hp' : kind.pages = some p')
    (hlevel : p'.level = p.level) (hplaced : f.kind.Placed → kind.Placed) : Stacked app' :=
  h.edits he (FrameKind.scopeOf_of_pages hp hp' hlevel)
    ((FrameKind.isHealth_of_pages hp').trans (FrameKind.isHealth_of_pages hp).symm) hplaced

theorem pushed {title : String} {kind : FrameKind} (h : Stacked app)
    (hstack : app'.stack = app.stack ++ [⟨app.nextId, title, kind⟩])
    (hid : app'.nextId = app.nextId + 1) (hscope : app'.scope = (App.scopeOf kind).getD app.scope)
    (hplaced : kind.Placed) : Stacked app' where
  ids := by
    rw [hstack, List.map_append, List.pairwise_append]
    refine ⟨h.ids, List.pairwise_singleton _ _, fun a ha b hb => ?_⟩
    obtain ⟨f, hf, rfl⟩ := List.mem_map.1 ha
    rw [List.mem_singleton.1 hb]
    exact h.known f hf
  known := by
    intro g hg
    rw [hid]
    rw [hstack, List.mem_append, List.mem_singleton] at hg
    rcases hg with hold | rfl
    · exact Nat.lt_succ_of_lt (h.known g hold)
    · exact Nat.lt_succ_self _
  ground := by
    rw [hstack, List.map_append, List.head?_append, h.ground]
    rfl
  scope := by
    rw [hscope, h.scope, hstack]
    unfold innermost
    rw [List.reverse_append, List.reverse_singleton, List.singleton_append, List.findSome?_cons]
    cases App.scopeOf kind <;> rfl
  placed := by
    intro g hg
    rw [hstack, List.mem_append, List.mem_singleton] at hg
    rcases hg with hold | rfl
    · exact h.placed g hold
    · exact hplaced

/-- Popping never takes the bottom frame. -/
theorem popped (h : Stacked app) : Stacked app.pop := by
  have hscope : ∀ a : App, a.recomputeScope.scope = innermost a.stack := fun _ => rfl
  unfold App.pop
  split
  case isFalse => exact ⟨h.ids, h.known, h.ground, hscope _, h.placed⟩
  case isTrue hlen =>
    have hsub : app.stack.dropLast.Sublist app.stack := List.dropLast_sublist _
    refine ⟨h.ids.sublist (hsub.map _), fun f hf => h.known f (hsub.subset hf), ?_, hscope _,
      fun f hf => h.placed f (hsub.subset hf)⟩
    show (app.stack.dropLast.map _).head? = _
    rw [List.map_dropLast, List.head?_dropLast, if_pos (by simpa using hlen)]
    exact h.ground

end Stacked

theorem stacked_new : Stacked App.new where
  ids := List.pairwise_singleton _ _
  known := by
    intro f hf
    cases List.mem_singleton.1 hf
    exact Nat.one_pos
  ground := rfl
  scope := rfl
  placed := by
    intro f hf
    cases List.mem_singleton.1 hf
    exact LazyList.placed_begun

/-! ## §3. What is in flight. -/

/-- The frame a command is asked for. -/
def Cmd.frame : Cmd → Option ℕ
  | .fetchSummary => none
  | .expandPrefix _ _ id => some id
  | .listVolumes _ _ id => some id
  | .fetchKey _ id => some id
  | .search _ _ _ id => some id
  | .peek _ _ id => some id

/-- The command fetches the entry of that Detail frame. -/
def Cmd.fetches (id : ℕ) : Cmd → Bool
  | .fetchKey _ id' => id' == id
  | _ => false

theorem Cmd.frame_of_fetches {id : ℕ} {c : Cmd} (h : c.fetches id = true) : c.frame = some id := by
  cases c with
  | fetchKey key id' =>
      have hid : id' = id := by simpa [fetches] using h
      rw [← hid]
      rfl
  | _ => cases h

@[simp] theorem Level.request_frame (cursor : Option String) (id : ℕ) (level : Level) :
    (level.request cursor id).frame = some id := by
  cases level <;> rfl

@[simp] theorem Level.request_fetches (cursor : Option String) (id id' : ℕ) (level : Level) :
    (level.request cursor id).fetches id' = false := by
  cases level <;> rfl

/-- What is asked for a pushed frame names it. -/
theorem Opens.frame {id : ℕ} {kind : FrameKind} {cmds : List Cmd} (h : Opens id kind cmds)
    {c : Cmd} (hc : c ∈ cmds) : c.frame = some id := by
  cases h with
  | detail =>
      rw [List.mem_singleton.1 hc]
      rfl
  | peeked =>
      rcases List.mem_pair.1 hc with rfl | rfl
      · rfl
      · rfl
  | level level _ _ => rw [List.mem_singleton.1 hc, Level.request_frame]

namespace Session

/-- The entry fetches under way for a frame. -/
def fetching (s : Session) (id : ℕ) : ℕ := s.flying.countP (·.cmd.fetches id)

/-- **The laws of a session.**  The stack is well formed; a command names a frame
pushed before; the counter counts what flies; an entry is fetched once for a frame. -/
structure Orderly (s : Session) : Prop where
  stacked : Stacked s.app
  asked : ∀ q ∈ s.flying, ∀ id, q.cmd.frame = some id → id < s.app.nextId
  counted : s.app.inflight = s.flying.length
  fetched : ∀ f ∈ s.app.stack, s.fetching f.id + f.kind.loaded.isSome.toNat ≤ 1

theorem mem_flying_runCmds {s : Session} {cmds : List Cmd} {q : Issued}
    (hq : q ∈ (s.runCmds cmds).flying) : q ∈ s.flying ∨ q.cmd ∈ cmds := by
  rcases List.mem_append.1 hq with hold | hnew
  · exact Or.inl hold
  · obtain ⟨c, hc, rfl⟩ := List.mem_map.1 hnew
    exact Or.inr hc

theorem fetching_runCmds (s : Session) (cmds : List Cmd) (id : ℕ) :
    (s.runCmds cmds).fetching id = s.fetching id + cmds.countP (·.fetches id) := by
  show (s.flying ++ cmds.map _).countP _ = _
  rw [List.countP_append, List.countP_map]
  rfl

theorem alike_runCmds_stack (s : Session) (cmds : List Cmd) (h : Stacked s.app) :
    Stacked (s.runCmds cmds).app := ⟨h.ids, h.known, h.ground, h.scope, h.placed⟩

namespace Orderly

variable {s : Session} {app' : App} {cmds : List Cmd}

/-- What a message leaves, its commands run: what is left to show. -/
theorem runCmds (h : s.Orderly) (hstacked : Stacked app') (hid : s.app.nextId ≤ app'.nextId)
    (hinflight : app'.inflight = s.app.inflight)
    (hcmds : ∀ c ∈ cmds, ∀ id, c.frame = some id → id < app'.nextId)
    (hfetched : ∀ f ∈ app'.stack,
      s.fetching f.id + cmds.countP (·.fetches f.id) + f.kind.loaded.isSome.toNat ≤ 1) :
    ({ s with app := app' }.runCmds cmds).Orderly where
  stacked := alike_runCmds_stack _ _ hstacked
  asked := by
    intro q hq id hframe
    rcases mem_flying_runCmds hq with hold | hnew
    · exact (h.asked q hold id hframe).trans_le hid
    · exact hcmds _ hnew id hframe
  counted := by
    show app'.inflight + cmds.length = (s.flying ++ cmds.map _).length
    rw [hinflight, h.counted, List.length_append, List.length_map]
  fetched := by
    intro f hf
    rw [fetching_runCmds]
    exact hfetched f hf

/-- A frame that is not on the stack yet has nothing under way. -/
theorem fetching_fresh (h : s.Orderly) : s.fetching s.app.nextId = 0 := by
  rw [fetching, List.countP_eq_zero]
  intro q hq hfetch
  exact lt_irrefl _ (h.asked q hq _ (Cmd.frame_of_fetches hfetch))

/-- No fetch for the frames there are. -/
theorem fetched_of_aside (h : s.Orderly) {stack : List Frame}
    (hstack : ∀ f ∈ stack, ∃ g ∈ s.app.stack, g.id = f.id ∧ g.kind.loaded = f.kind.loaded)
    (hcmds : ∀ f ∈ stack, ∀ c ∈ cmds, c.fetches f.id = false) :
    ∀ f ∈ stack,
      s.fetching f.id + cmds.countP (·.fetches f.id) + f.kind.loaded.isSome.toNat ≤ 1 := by
  intro f hf
  have hnone : cmds.countP (·.fetches f.id) = 0 :=
    List.countP_eq_zero.2 fun c hc => Bool.eq_false_iff.1 (hcmds f hf c hc)
  obtain ⟨g, hg, hid, hloaded⟩ := hstack f hf
  have hfetched := h.fetched g hg
  rw [hid, hloaded] at hfetched
  omega

/-- A frame is pushed with what is asked for it. -/
theorem opened (h : s.Orderly) {title : String} {kind : FrameKind}
    (hstack : app'.stack = s.app.stack ++ [⟨s.app.nextId, title, kind⟩])
    (hid : app'.nextId = s.app.nextId + 1)
    (hscope : app'.scope = (App.scopeOf kind).getD s.app.scope)
    (hinflight : app'.inflight = s.app.inflight) (ho : Opens s.app.nextId kind cmds) :
    ({ s with app := app' }.runCmds cmds).Orderly := by
  have hplaced : kind.Placed := by
    cases ho with
    | detail | peeked => exact Or.inr ⟨rfl, rfl⟩
    | level _ _ hplaced => exact hplaced
  have hframe : ∀ c ∈ cmds, c.frame = some s.app.nextId := fun c hc => ho.frame hc
  have hown : cmds.countP (·.fetches s.app.nextId) + kind.loaded.isSome.toNat ≤ 1 := by
    cases ho with
    | detail | peeked => simp [Cmd.fetches, FrameKind.loaded]
    | level level hpages _ => simp [FrameKind.loaded_of_pages hpages]
  refine h.runCmds (h.stacked.pushed hstack hid hscope hplaced) (hid ▸ Nat.le_succ _) hinflight
    (fun c hc id hc' => ?_) fun f hf => ?_
  · rw [hframe c hc] at hc'
    cases hc'
    rw [hid]
    exact Nat.lt_succ_self _
  · rw [hstack, List.mem_append, List.mem_singleton] at hf
    rcases hf with hold | rfl
    · refine h.fetched_of_aside (fun g hg => ⟨g, hg, rfl, rfl⟩) (fun g hg c hc => ?_) f hold
      refine Bool.eq_false_iff.2 fun hfetch => ?_
      have hsame := (Cmd.frame_of_fetches hfetch).symm.trans (hframe c hc)
      exact absurd (h.stacked.known g hg) (by simp at hsame; omega)
    · show s.fetching s.app.nextId + _ + _ ≤ 1
      rw [h.fetching_fresh, Nat.zero_add]
      exact hown

/-- A page is asked for a frame. -/
theorem requested (h : s.Orderly) {f : Frame} {kind : FrameKind} {p p' : Pages}
    {cursor : Option String} (he : Edits s.app app' f kind) (hp : f.kind.pages = some p)
    (hp' : kind.pages = some p') (hlevel : p'.level = p.level)
    (hplaced : f.kind.Placed → kind.Placed) :
    ({ s with app := app' }.runCmds [p.level.request cursor f.id]).Orderly := by
  refine h.runCmds (h.stacked.pages he hp hp' hlevel hplaced) he.nextId.ge he.inflight
    (fun c hc id hframe => ?_) (h.fetched_of_aside (he.frames ?_) fun f _ c hc => ?_)
  · rw [List.mem_singleton.1 hc, Level.request_frame] at hframe
    cases hframe
    rw [he.nextId]
    exact h.stacked.known _ he.mem
  · rw [FrameKind.loaded_of_pages hp', FrameKind.loaded_of_pages hp]
  · rw [List.mem_singleton.1 hc, Level.request_fetches]

/-- The stack stays; nothing is asked but a summary, or statistics for a frame of it. -/
theorem quiet (h : s.Orderly) (ha : Alike s.app app')
    (haside : ∀ c ∈ cmds, c = .fetchSummary ∨
      ∃ f key coords, s.app.top = some f ∧ c = .peek key coords f.id) :
    ({ s with app := app' }.runCmds cmds).Orderly := by
  refine h.runCmds (h.stacked.alike ha) ha.nextId.ge ha.inflight (fun c hc id hframe => ?_)
    (h.fetched_of_aside (fun f hf => ⟨f, ha.stack ▸ hf, rfl, rfl⟩) fun f _ c hc => ?_)
  · rcases haside c hc with rfl | ⟨f, key, coords, htop, rfl⟩
    · cases hframe
    · cases hframe
      rw [ha.nextId]
      exact h.stacked.known f (List.mem_of_getLast? htop)
  · rcases haside c hc with rfl | ⟨f, key, coords, -, rfl⟩
    · rfl
    · rfl

/-- A key keeps the laws. -/
theorem turn (h : s.Orderly) {k : KeyEvent} (ht : Turn s.app k app' cmds) :
    ({ s with app := app' }.runCmds cmds).Orderly := by
  cases ht with
  | quiet ha haside => exact h.quiet ha haside
  | moved he hm =>
      exact h.runCmds (h.stacked.moves he hm) he.nextId.ge he.inflight (fun c hc => nomatch hc)
        (h.fetched_of_aside (he.frames hm.loaded) fun _ _ c hc => nomatch hc)
  | popped =>
      have hsame : s.app.pop.nextId = s.app.nextId ∧ s.app.pop.inflight = s.app.inflight := by
        unfold App.pop
        split
        case isTrue => exact ⟨rfl, rfl⟩
        case isFalse => exact ⟨rfl, rfl⟩
      exact h.runCmds h.stacked.popped hsame.1.ge hsame.2 (fun c hc => nomatch hc)
        (h.fetched_of_aside (fun f hf => ⟨f, App.mem_of_mem_pop hf, rfl, rfl⟩) fun _ _ c hc => nomatch hc)
  | opened hstack hid hscope hinflight ho => exact h.opened hstack hid hscope hinflight ho
  | resorted he _ hp hp' hplaced _ => exact h.requested he hp hp' rfl fun _ => hplaced
  | more he _ hp hp' hplaced _ _ _ _ _ => exact h.requested he hp hp' rfl hplaced

/-- A resize changes nothing the laws speak of. -/
theorem resized (h : s.Orderly) (rows : ℕ) : (s.resized rows).Orderly :=
  ⟨h.stacked.alike ⟨rfl, rfl, rfl, rfl⟩, h.asked, h.counted, h.fetched⟩

end Orderly

end Session

/-- A response is heard by the reducer, which asks for nothing on it. -/
theorem arrival_of_answer (app : App) {c : Cmd} {m : Msg} (h : c.answeredBy m = true) :
    Arrival app m (update app m).1 ∧ (update app m).2 = [] := by
  cases m with
  | key | resize | refreshTick => cases c <;> cases h
  | summaryLoaded res => exact ⟨app.arrives_onSummary res, rfl⟩
  | prefixPage id resp => exact ⟨app.arrives_onPrefixPage id resp, rfl⟩
  | volumesPage id resp => exact ⟨app.arrives_onVolumesPage id resp, rfl⟩
  | keyLoaded id resp => exact ⟨app.arrives_onKeyLoaded id resp, rfl⟩
  | searchResults id resp => exact ⟨app.arrives_onSearchPage id resp, rfl⟩
  | peekLoaded id resp => exact ⟨app.arrives_onPeekLoaded id resp, rfl⟩

namespace Session

theorem feed_eq (s : Session) (m : Msg) :
    s.feed m = { s with app := (update s.app m).1 }.runCmds (update s.app m).2 := rfl

theorem runCmds_nil (s : Session) : s.runCmds [] = s := by
  simp [runCmds]

/-- The answered command taken out of those in flight. -/
theorem flying_split {s : Session} {i : ℕ} {q : Issued} (hq : s.flying[i]? = some q) :
    ∃ before after, s.flying = before ++ q :: after ∧ s.flying.eraseIdx i = before ++ after := by
  obtain ⟨hi, hget⟩ := List.getElem?_eq_some_iff.1 hq
  refine ⟨s.flying.take i, s.flying.drop (i + 1), ?_, List.eraseIdx_eq_take_drop_succ _ _⟩
  rw [← hget, ← List.drop_eq_getElem_cons hi, List.take_append_drop]

/-- A response answers a command in flight and asks for nothing itself. -/
theorem answer_cases {s t : Session} {rows i : ℕ} {m : Msg}
    (h : s.next (.answer rows i m) = some t) :
    ∃ q, s.flying[i]? = some q ∧ q.cmd.answeredBy m = true ∧
      t = { s with app := (update (s.resized rows).app m).1, flying := s.flying.eraseIdx i } := by
  simp only [next] at h
  split at h
  case h_1 q hq =>
    by_cases hm : q.cmd.answeredBy m = true
    · rw [if_pos hm] at h
      refine ⟨q, hq, hm, ?_⟩
      rw [← Option.some.inj h, feed_eq]
      show runCmds _ (update (s.resized rows).app m).2 = _
      rw [(arrival_of_answer _ hm).2, runCmds_nil]
      rfl
    · rw [if_neg hm] at h
      cases h
  case h_2 => cases h

namespace Orderly

variable {s : Session}

theorem settled (h : s.Orderly) : Stacked s.app.settle :=
  ⟨h.stacked.ids, h.stacked.known, h.stacked.ground, h.stacked.scope, h.stacked.placed⟩

/-- What flies with the answered command and without it. -/
theorem fetching_erase {i : ℕ} {q : Issued} (hq : s.flying[i]? = some q) (app' : App) (id : ℕ) :
    s.fetching id = fetching { s with app := app', flying := s.flying.eraseIdx i } id
      + (q.cmd.fetches id).toNat := by
  obtain ⟨before, after, hflying, herase⟩ := flying_split hq
  show s.flying.countP _ = (s.flying.eraseIdx i).countP _ + _
  rw [herase, hflying, List.countP_append, List.countP_append, List.countP_cons]
  cases q.cmd.fetches id <;> simp [Nat.add_assoc]

/-- A command is answered: what is left to show. -/
theorem erased (h : s.Orderly) {i : ℕ} {q : Issued} (hq : s.flying[i]? = some q) {app' : App}
    (hstacked : Stacked app') (hid : app'.nextId = s.app.nextId)
    (hinflight : app'.inflight = s.app.settle.inflight)
    (hfetched : ∀ f ∈ app'.stack,
      fetching { s with app := app', flying := s.flying.eraseIdx i } f.id
        + f.kind.loaded.isSome.toNat ≤ 1) :
    Orderly { s with app := app', flying := s.flying.eraseIdx i } where
  stacked := hstacked
  asked := by
    intro q' hq' id hframe
    rw [hid]
    exact h.asked q' (List.mem_of_mem_eraseIdx hq') id hframe
  counted := by
    obtain ⟨hi, -⟩ := List.getElem?_eq_some_iff.1 hq
    show app'.inflight = (s.flying.eraseIdx i).length
    rw [hinflight, List.length_eraseIdx_of_lt hi]
    exact congrArg (· - 1) h.counted
  fetched := hfetched

/-- The frames' entries are as they were. -/
theorem erased_quiet (h : s.Orderly) {i : ℕ} {q : Issued} (hq : s.flying[i]? = some q)
    {app' : App} (hstacked : Stacked app') (hid : app'.nextId = s.app.nextId)
    (hinflight : app'.inflight = s.app.settle.inflight)
    (hframes : ∀ f ∈ app'.stack,
      ∃ g ∈ s.app.stack, g.id = f.id ∧ g.kind.loaded = f.kind.loaded) :
    Orderly { s with app := app', flying := s.flying.eraseIdx i } := by
  refine h.erased hq hstacked hid hinflight fun f hf => ?_
  obtain ⟨g, hg, hgid, hloaded⟩ := hframes f hf
  have hfetched := h.fetched g hg
  have hsplit := fetching_erase hq app' f.id
  rw [hgid, hloaded] at hfetched
  omega

/-- A command is answered. -/
theorem arrival (h : s.Orderly) {i : ℕ} {q : Issued} (hq : s.flying[i]? = some q) {m : Msg}
    (hm : q.cmd.answeredBy m = true) {app' : App} (ha : Arrival s.app m app') :
    Orderly { s with app := app', flying := s.flying.eraseIdx i } := by
  cases ha with
  | unheard ha _ =>
      refine h.erased_quiet hq (h.settled.alike ha) ha.nextId ha.inflight fun f hf => ?_
      exact ⟨f, ha.stack ▸ hf, rfl, rfl⟩
  | moved he hmoves _ =>
      exact h.erased_quiet hq (h.settled.moves he hmoves) he.nextId he.inflight
        (he.frames hmoves.loaded)
  | page he _ hp _ hp' hplaced =>
      refine h.erased_quiet hq (h.settled.pages he hp hp' ?_ hplaced) he.nextId he.inflight
        (he.frames ?_)
      · exact Pages.answered_level _ _
      · rw [FrameKind.loaded_of_pages hp', FrameKind.loaded_of_pages hp]
  | @entry f key entry error peek c k he hshows his =>
      -- The answered command is the one fetch for the frame: nothing was loaded before.
      have hfetch : q.cmd.fetches f.id = true := by
        rw [his] at hm
        cases hcmd : q.cmd <;> rw [hcmd] at hm <;> exact hm
      have hsplit := fetching_erase hq app' f.id
      rw [hfetch, Bool.toNat_true] at hsplit
      have hone := h.fetched f he.mem
      have hnone : entry = none := by
        rw [hshows] at hone
        cases entry with
        | none => rfl
        | some e =>
            simp only [FrameKind.loaded, Option.isSome_some, Bool.toNat_true] at hone
            omega
      have hzero : c = 0 := by
        have hplaced := h.stacked.placed f he.mem
        rw [hshows, hnone] at hplaced
        exact hplaced.elim (fun hlt => absurd hlt (Nat.not_lt_zero _)) And.right
      refine h.erased hq (h.settled.edits he ?_ ?_ fun _ => ?_) he.nextId he.inflight fun g hg => ?_
      · rw [hshows]
        rfl
      · rw [hshows]
        rfl
      · show c < _ ∨ _ ∧ c = 0
        rw [hzero]
        exact (Nat.eq_zero_or_pos _).symm.imp id fun h0 => ⟨h0, rfl⟩
      · rcases he.cases hg with hold | rfl
        · have hfetched := h.fetched g hold
          have hsplit' := fetching_erase hq app' g.id
          omega
        · show _ + 1 ≤ 1
          have hrest : fetching { s with app := app', flying := s.flying.eraseIdx i } f.id = 0 := by
            omega
          exact (congrArg (· + 1) hrest).le

/-- **Every event keeps the laws.** -/
theorem next (h : s.Orderly) {e : Event} {t : Session} (ht : s.next e = some t) : t.Orderly := by
  cases e with
  | input rows k =>
      cases ht
      exact (h.resized rows).turn App.turn_of_key
  | resize rows =>
      cases ht
      exact (h.resized rows).quiet (Alike.refl _) fun _ hc => nomatch hc
  | tick =>
      cases ht
      exact h.quiet (Alike.refl _) fun _ hc => Or.inl (List.mem_singleton.1 hc)
  | answer rows i m =>
      obtain ⟨q, hq, hm, rfl⟩ := answer_cases ht
      exact (h.resized rows).arrival hq hm (arrival_of_answer _ hm).1

end Orderly

theorem orderly_start : start.Orderly where
  stacked := stacked_new
  asked := fun _ hq => nomatch hq
  counted := rfl
  fetched := by
    intro f _
    show 0 + _ ≤ 1
    rw [Nat.zero_add]
    exact Bool.toNat_le _

/-- The laws hold in every reachable state. -/
theorem orderly_reachable {s : Session} (h : machine.Reachable s) : s.Orderly :=
  Machine.Reachable.invariant (fun _ h0 => by cases h0; exact orderly_start)
    (fun _ _ _ hs hst => hs.next hst) h

/-! ## §5. Every reachable state. -/

end Session

/-- A law of the list a frame shows. -/
def FrameKind.OfList (P : ∀ {α : Type}, LazyList α → Prop) : FrameKind → Prop
  | .health list => P list
  | .keys _ list => P list
  | .volumes _ list => P list
  | .results _ _ list => P list
  | .detail .. => True

namespace Session

/-- What the reducer promises of a state. -/
structure Lawful (s : Session) : Prop where
  grounded : ∃ f above, s.app.stack = f :: above ∧ ∃ list, f.kind = .health list
  ids : (s.app.stack.map (·.id)).Pairwise (· < ·)
  scope : Scoped s.app.stack s.app.scope
  counted : s.app.inflight = s.flying.length
  lists : ∀ f ∈ s.app.stack, f.kind.OfList fun l => l.OnRow ∧ ∀ height, 1 ≤ height → l.InView height
  shards : ∀ f ∈ s.app.stack, ∀ key entry error peek c,
    f.kind = .detail key entry error peek c → OnShard entry c

end Session

theorem FrameKind.Placed.ofList {P : ∀ {α : Type}, LazyList α → Prop} {kind : FrameKind}
    (h : kind.Placed) (hP : ∀ {α : Type} (l : LazyList α), l.Placed → P l) : kind.OfList P := by
  cases kind with
  | health l => exact hP l h
  | keys pre l => exact hP l h
  | volumes group l => exact hP l h
  | results kind pattern l => exact hP l h
  | detail => exact trivial

namespace Session

/-- **The reducer's laws**: in every state reachable by keys, resizes, ticks and
responses, each response answering a command in flight. -/
theorem reducer_lawful {s : Session} (h : machine.Reachable s) : s.Lawful := by
  have horderly := orderly_reachable h
  refine ⟨?_, horderly.stacked.ids, ?_, horderly.counted, fun f hf => ?_, fun f hf => ?_⟩
  · obtain ⟨f, above, hstack⟩ : ∃ f above, s.app.stack = f :: above := by
      cases hstack : s.app.stack with
      | nil =>
          have hground := horderly.stacked.ground
          rw [hstack] at hground
          cases hground
      | cons f above => exact ⟨f, above, rfl⟩
    refine ⟨f, above, hstack, ?_⟩
    have hground := horderly.stacked.ground
    rw [hstack] at hground
    cases hkind : f.kind with
    | health list => exact ⟨list, rfl⟩
    | _ => simp [FrameKind.isHealth, hkind] at hground
  · rw [horderly.stacked.scope]
    exact scoped_innermost _
  · exact (horderly.stacked.placed f hf).ofList fun l hl => ⟨hl.onRow, fun _ => hl.inView⟩
  · intro key entry error peek c hkind
    have hplaced := horderly.stacked.placed f hf
    rw [hkind] at hplaced
    exact hplaced

/-- The landing loads, its second row, a group, is opened, its page arrives, and
meanwhile the next tick's summary fails. -/
def tour : List Event :=
  [.tick,
    .answer 24 0 (.summaryLoaded (.ok ⟨[⟨"rack:A12"⟩], [⟨"model", false⟩]⟩)),
    .input 24 ⟨.down, false⟩,
    .input 24 ⟨.enter, false⟩,
    .tick,
    .answer 24 1 (.summaryLoaded (.error "closed")),
    .answer 24 0 (.volumesPage 1 (.ok ⟨[⟨"v0"⟩, ⟨"v1"⟩], some "2"⟩))]

theorem tour_lawful :
    ∃ t, Machine.replay next start tour = some t ∧ t.app.stack.map (·.id) = [0, 1] ∧
      t.app.scope = .group "rack:A12" ∧ t.Lawful := by
  have hdone : (Machine.replay next start tour).map (fun t => (t.app.stack.map (·.id), t.app.scope))
      = some ([0, 1], .group "rack:A12") := by decide
  obtain ⟨t, ht, hshown⟩ := Option.map_eq_some_iff.1 hdone
  have hreach : machine.Reachable t :=
    Machine.Reachable.of_replay (fun _ _ _ hst => hst) tour (.init rfl) ht
  exact ⟨t, ht, congrArg Prod.fst hshown, congrArg Prod.snd hshown, reducer_lawful hreach⟩

end Session

end Toso.Tui
