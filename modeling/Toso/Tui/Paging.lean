/-
  Toso.Tui.Paging — the paged lists of the terminal UI against a server.

  A server answers each page request with the slice its cursor names of that
  level's list, sorted by the request's sort and order.  The sort is one for the
  whole model: a re-sort drops a list while its page may be under way, and a page
  loaded later is asked for under whatever sort is active then.

  Main results:
    * `Reads` — a list is the beginning of one order's list, one request at most
      under way for it; each event keeps it where the condition is met.
    * `lists_sliced` — over every run whose steps meet the condition.
    * `resort_repeats` — a re-sort before the first page arrived.
-/
import Toso.Lib.Paging
import Toso.Tui.Session

namespace Toso.Tui

open Lib

/-! ## §1. The server. -/

/-- The entries of a level as each order arranges them. -/
structure Listing (α : Type) where
  sorted : SortKey → Order → List α
  nodup : ∀ sort order, (sorted sort order).Nodup
  perm : ∀ sort order sort' order', (sorted sort order).Perm (sorted sort' order')

/-- A store that does not change, and the names of rows. -/
structure Server where
  children : String → Listing KeyPrefix
  volumes : String → Listing Volume
  hits : SearchKind → String → Listing SearchMatch
  cursors : Cursors String

/-- `PAGE`. -/
def pageLimit : ℕ := 200

namespace Server

/-- A level's complete list under one order. -/
def complete (srv : Server) (sort : SortKey) (order : Order) : Level → List Item
  | .keys pre => ((srv.children pre).sorted sort order).map .keyPrefix
  | .volumes group => ((srv.volumes group).sorted sort order).map .volume
  | .results kind pattern => ((srv.hits kind pattern).sorted sort order).map .hit

/-- A request answered with the slice its cursor names, or by a failure; what is no
page request is answered by anything. -/
def Serves (srv : Server) (q : Issued) (m : Msg) : Prop :=
  match q.cmd, m with
  | .expandPrefix pre cursor _, .prefixPage _ (.ok r) => (r.children, r.nextCursor) =
      srv.cursors.page pageLimit ((srv.children pre).sorted q.sort q.order) cursor
  | .listVolumes group cursor _, .volumesPage _ (.ok r) => (r.volumes, r.nextCursor) =
      srv.cursors.page pageLimit ((srv.volumes group).sorted q.sort q.order) cursor
  | .search kind pattern cursor _, .searchResults _ (.ok r) => (r.hits, r.nextCursor) =
      srv.cursors.page pageLimit ((srv.hits kind pattern).sorted q.sort q.order) cursor
  | _, _ => True

instance (srv : Server) (q : Issued) (m : Msg) : Decidable (srv.Serves q m) := by
  unfold Serves
  split <;> infer_instance

/-- The event is one the server can bring about. -/
def Honest (srv : Server) (s : Session) : Event → Prop
  | .answer _ i m => ∀ q ∈ s.flying[i]?, srv.Serves q m
  | _ => True

instance (srv : Server) (s : Session) (e : Event) : Decidable (srv.Honest s e) := by
  unfold Honest
  split <;> infer_instance

/-- Every run of the loop against the server. -/
def machine (srv : Server) : Machine Session Event := Session.machine.guarded srv.Honest

theorem complete_nodup (srv : Server) (sort : SortKey) (order : Order) (level : Level) :
    (srv.complete sort order level).Nodup := by
  cases level with
  | keys pre => exact ((srv.children pre).nodup _ _).map fun _ _ h => Item.keyPrefix.inj h
  | volumes group => exact ((srv.volumes group).nodup _ _).map fun _ _ h => Item.volume.inj h
  | results kind pattern =>
      exact ((srv.hits kind pattern).nodup _ _).map fun _ _ h => Item.hit.inj h

end Server

/-! ## §2. What is promised, and when. -/

/-- The command asks for a page of that frame. -/
def Cmd.asksPage (id : ℕ) : Cmd → Bool
  | .expandPrefix _ _ id' => id' == id
  | .listVolumes _ _ id' => id' == id
  | .search _ _ _ id' => id' == id
  | _ => false

/-- The command asks for the first page of that frame. -/
def Cmd.asksFirst (id : ℕ) : Cmd → Bool
  | .expandPrefix _ none id' => id' == id
  | .listVolumes _ none id' => id' == id
  | .search _ _ none id' => id' == id
  | _ => false

namespace Session

/-- The page requests under way for a frame. -/
def paging (s : Session) (id : ℕ) : List Issued := s.flying.filter (·.cmd.asksPage id)

/-- Every Keys, Volumes and Results frame lists the beginning of its level's list
under one order, no entry twice, with one page request under way at most. -/
def Sliced (srv : Server) (s : Session) : Prop :=
  ∀ f ∈ s.app.stack, ∀ p, f.kind.pages = some p →
    (∃ sort order, p.items <+: srv.complete sort order p.level) ∧ p.items.Nodup ∧
      (s.paging f.id).length ≤ 1

/-- The sort and order the frame's first page was last asked under. -/
def begun (s : Session) (id : ℕ) : Option (SortKey × Order) :=
  (s.log.find? (·.cmd.asksFirst id)).map fun q => (q.sort, q.order)

/-- The page a list's cursor names is the same under the active sort and order as
under those the list was begun with. -/
def SamePage (srv : Server) (s : Session) (id : ℕ) (p : Pages) : Prop :=
  ∀ so ∈ s.begun id,
    srv.cursors.page pageLimit (srv.complete s.app.sort s.app.order p.level) p.nextCursor =
      srv.cursors.page pageLimit (srv.complete so.1 so.2 p.level) p.nextCursor

instance (srv : Server) (s : Session) (id : ℕ) (p : Pages) : Decidable (s.SamePage srv id p) :=
  inferInstanceAs (Decidable (∀ so ∈ s.begun id, _ = _))

/-- **The condition on a step.**  The top list is re-sorted only while no page of it
is under way, and its next page asked for only where that page is the same under the
active sort and order. -/
def Steady (srv : Server) (s : Session) : Event → Prop
  | .input _ k => ∀ f ∈ s.app.top, ∀ p ∈ f.kind.pages,
      (s.app.Resorts k → p.pending = false) ∧
      (s.app.Loads k → p.pending = false → p.nextCursor.isSome = true → s.SamePage srv f.id p)
  | _ => True

instance (srv : Server) (s : Session) (e : Event) : Decidable (s.Steady srv e) := by
  unfold Steady
  split <;> infer_instance

end Session

/-! ## §3. Requests of a frame. -/

namespace Cmd

theorem frame_of_asksPage {id : ℕ} {c : Cmd} (h : c.asksPage id = true) : c.frame = some id := by
  cases c with
  | expandPrefix _ _ id' | listVolumes _ _ id' | search _ _ _ id' =>
      have hid : id' = id := by simpa [asksPage] using h
      rw [← hid]
      rfl
  | _ => cases h

theorem asksPage_of_asksFirst {id : ℕ} {c : Cmd} (h : c.asksFirst id = true) :
    c.asksPage id = true := by
  cases c with
  | expandPrefix _ cursor _ | listVolumes _ cursor _ | search _ _ cursor _ =>
      cases cursor with
      | none => exact h
      | some _ => cases h
  | _ => cases h

end Cmd

namespace Level

theorem request_asksPage (cursor : Option String) (id id' : ℕ) (level : Level) :
    (level.request cursor id).asksPage id' = (id == id') := by
  cases level <;> rfl

theorem request_asksFirst (id id' : ℕ) (level : Level) :
    (level.request none id).asksFirst id' = (id == id') := by
  cases level <;> rfl

theorem request_asksNext (c : String) (id id' : ℕ) (level : Level) :
    (level.request (some c) id).asksFirst id' = false := by
  cases level <;> rfl

end Level

namespace Session

/-- A command as it is issued now. -/
def issue (s : Session) (c : Cmd) : Issued := ⟨c, s.app.sort, s.app.order⟩

theorem paging_runCmds (s : Session) (cmds : List Cmd) (id : ℕ) :
    (s.runCmds cmds).paging id
      = s.paging id ++ (cmds.filter (·.asksPage id)).map s.issue := by
  show (s.flying ++ cmds.map s.issue).filter _ = _
  rw [List.filter_append, List.filter_map]
  rfl

/-- What is asked for other frames leaves this one's requests. -/
theorem paging_aside {s : Session} {cmds : List Cmd} {id : ℕ}
    (h : ∀ c ∈ cmds, c.asksPage id = false) : (s.runCmds cmds).paging id = s.paging id := by
  rw [paging_runCmds, List.filter_eq_nil_iff.2 fun c hc => Bool.eq_false_iff.1 (h c hc)]
  exact List.append_nil _

theorem begun_aside {s : Session} {cmds : List Cmd} {id : ℕ}
    (h : ∀ c ∈ cmds, c.asksFirst id = false) : (s.runCmds cmds).begun id = s.begun id := by
  have hnone : (cmds.map s.issue).reverse.find? (·.cmd.asksFirst id) = none := by
    rw [List.find?_eq_none]
    intro q hq
    obtain ⟨c, hc, rfl⟩ := List.mem_map.1 (List.mem_reverse.1 hq)
    exact Bool.eq_false_iff.1 (h c hc)
  show (((cmds.map s.issue).reverse ++ s.log).find? _).map _ = _
  rw [List.find?_append, hnone]
  rfl

theorem begun_first (s : Session) (level : Level) (id : ℕ) :
    (s.runCmds [level.request none id]).begun id = some (s.app.sort, s.app.order) := by
  have hfirst := (Level.request_asksFirst id id level).trans (beq_self_eq_true id)
  show ((s.issue (level.request none id) :: s.log).find? _).map _ = _
  rw [List.find?_cons_of_pos (by exact hfirst)]
  rfl

/-! ## §4. The invariant. -/

/-- **What a list has read**: the beginning of its level's list under the order it was
begun with; and the one request under way for it, if it waits, names the next page of
that list. -/
structure Reads (srv : Server) (s : Session) (id : ℕ) (p : Pages) (so : SortKey × Order) :
    Prop where
  begun : s.begun id = some so
  read : Read srv.cursors (srv.complete so.1 so.2 p.level) p.items p.nextCursor
  first : p.pending = true → p.nextCursor = none → p.items = []
  idle : p.pending = false → s.paging id = []
  waiting : p.pending = true → ∃ q, s.paging id = [q] ∧
    q.cmd = p.level.request p.nextCursor id ∧
    srv.cursors.page pageLimit (srv.complete q.sort q.order p.level) p.nextCursor =
      srv.cursors.page pageLimit (srv.complete so.1 so.2 p.level) p.nextCursor

/-- Every paged frame. -/
def AllRead (srv : Server) (s : Session) : Prop :=
  ∀ f ∈ s.app.stack, ∀ p, f.kind.pages = some p → ∃ so, s.Reads srv f.id p so

variable {srv : Server} {s t : Session}

theorem Reads.congr {id : ℕ} {p : Pages} {so : SortKey × Order} (h : s.Reads srv id p so)
    (hbegun : t.begun id = s.begun id) (hpaging : t.paging id = s.paging id) :
    t.Reads srv id p so where
  begun := hbegun.trans h.begun
  read := h.read
  first := h.first
  idle := fun hp => hpaging.trans (h.idle hp)
  waiting := fun hp => by
    rw [hpaging]
    exact h.waiting hp

/-- The first page asked for a frame nothing is under way for. -/
theorem Reads.opened {level : Level} {id : ℕ} (h : s.paging id = []) :
    (s.runCmds [level.request none id]).Reads srv id (.fresh level) (s.app.sort, s.app.order) where
  begun := begun_first s level id
  read := Read.nil _ _
  first := fun _ _ => rfl
  idle := fun hp => nomatch hp
  waiting := fun _ => by
    refine ⟨s.issue (level.request none id), ?_, rfl, rfl⟩
    rw [paging_runCmds, h, List.nil_append, List.filter_cons_of_pos]
    · rfl
    · exact (Level.request_asksPage none id id level).trans (beq_self_eq_true id)

/-- The next page asked for, where it is the same under both orders. -/
theorem Reads.more {id : ℕ} {p : Pages} {so : SortKey × Order} {c : String}
    (h : s.Reads srv id p so) (hidle : p.pending = false) (hnext : p.nextCursor = some c)
    (hsame : s.SamePage srv id p) :
    (s.runCmds [p.level.request (some c) id]).Reads srv id { p with pending := true } so where
  begun := by
    rw [begun_aside]
    · exact h.begun
    · intro cmd hcmd
      rw [List.mem_singleton.1 hcmd, Level.request_asksNext]
  read := h.read
  first := fun _ hnone => by
    rw [show p.nextCursor = none from hnone] at hnext
    cases hnext
  idle := fun hp => nomatch hp
  waiting := fun _ => by
    refine ⟨s.issue (p.level.request (some c) id), ?_, ?_, hsame so h.begun⟩
    · rw [paging_runCmds, h.idle hidle, List.nil_append, List.filter_cons_of_pos]
      · rfl
      · exact (Level.request_asksPage _ id id p.level).trans (beq_self_eq_true id)
    · show p.level.request (some c) id = p.level.request p.nextCursor id
      rw [hnext]

/-! ## §5. Keys. -/

namespace AllRead

variable {app' : App} {cmds : List Cmd}

/-- A frame nothing is asked for. -/
theorem keep (h : s.AllRead srv) {f : Frame} (hf : f ∈ s.app.stack) {p : Pages}
    (hp : f.kind.pages = some p) (haside : ∀ c ∈ cmds, c.asksPage f.id = false) :
    ∃ so, ({ s with app := app' }.runCmds cmds).Reads srv f.id p so := by
  obtain ⟨so, hreads⟩ := h f hf p hp
  refine ⟨so, hreads.congr ?_ ?_⟩
  · show _ = begun { s with app := app' } f.id
    refine begun_aside fun c hc => ?_
    cases hfirst : c.asksFirst f.id with
    | false => rfl
    | true => rw [← haside c hc, Cmd.asksPage_of_asksFirst hfirst]
  · show _ = paging { s with app := app' } f.id
    exact paging_aside haside

/-- Only frames that were there are shown, with the pages they had. -/
theorem quiet (h : s.AllRead srv)
    (hframes : ∀ f ∈ app'.stack,
      ∃ g ∈ s.app.stack, g.id = f.id ∧ g.kind.pages = f.kind.pages)
    (haside : ∀ c ∈ cmds, ∀ id, c.asksPage id = false) :
    ({ s with app := app' }.runCmds cmds).AllRead srv := by
  intro f hf p hp
  obtain ⟨g, hg, hid, hpages⟩ := hframes f hf
  have hkeep : ∃ so, ({ s with app := app' }.runCmds cmds).Reads srv g.id p so :=
    h.keep hg (hpages.trans hp) fun c hc => haside c hc _
  rw [hid] at hkeep
  exact hkeep

/-- A page asked for a frame; the others are left. -/
theorem requested (h : s.AllRead srv) (ho : s.Orderly) {f : Frame} {kind : FrameKind}
    (he : Edits s.app app' f kind) {p' : Pages} (hp' : kind.pages = some p') {level : Level}
    {cursor : Option String}
    (hreads : ∃ so, ({ s with app := app' }.runCmds [level.request cursor f.id]).Reads srv f.id
      p' so) : ({ s with app := app' }.runCmds [level.request cursor f.id]).AllRead srv := by
  intro g hg p hp
  rcases he.cases_of_ids ho.stacked.ids hg with rfl | ⟨hold, hid⟩
  · rw [show kind.pages = some p from hp] at hp'
    cases hp'
    exact hreads
  · refine h.keep hold hp fun c hc => ?_
    rw [List.mem_singleton.1 hc, Level.request_asksPage]
    exact beq_false_of_ne hid.symm

theorem opened (h : s.AllRead srv) (ho : s.Orderly) {title : String} {kind : FrameKind}
    (hstack : app'.stack = s.app.stack ++ [⟨s.app.nextId, title, kind⟩])
    (hopens : Opens s.app.nextId kind cmds) :
    ({ s with app := app' }.runCmds cmds).AllRead srv := by
  intro f hf p hp
  have hf' : f ∈ app'.stack := hf
  rw [hstack, List.mem_append, List.mem_singleton] at hf'
  rcases hf' with hold | rfl
  · refine h.keep hold hp fun c hc => ?_
    cases hpage : c.asksPage f.id with
    | false => rfl
    | true =>
        have hid := (Cmd.frame_of_asksPage hpage).symm.trans (hopens.frame hc)
        have hknown := ho.stacked.known f hold
        rw [Option.some.inj hid] at hknown
        exact absurd hknown (lt_irrefl _)
  · have hnone : paging { s with app := app' } s.app.nextId = [] := by
      refine List.filter_eq_nil_iff.2 fun q hq hpage => ?_
      exact lt_irrefl _ (ho.asked q hq _ (Cmd.frame_of_asksPage hpage))
    cases hopens with
    | detail | peeked => cases hp
    | level level hpages _ =>
        have hfresh : p = .fresh level := Option.some.inj (hp.symm.trans hpages)
        rw [hfresh]
        exact ⟨_, Reads.opened hnone⟩

/-- **A key keeps what the lists have read**, where the condition is met. -/
theorem turn (h : s.AllRead srv) (ho : s.Orderly) {k : KeyEvent}
    (hsteady : ∀ rows, s.Steady srv (.input rows k)) (ht : Turn s.app k app' cmds) :
    ({ s with app := app' }.runCmds cmds).AllRead srv := by
  cases ht with
  | quiet ha haside =>
      refine h.quiet (fun f hf => ⟨f, ha.stack ▸ hf, rfl, rfl⟩) fun c hc id => ?_
      rcases haside c hc with rfl | ⟨f, key, coords, -, rfl⟩
      · rfl
      · rfl
  | moved he hm =>
      refine h.quiet (fun g hg => ?_) fun c hc => nomatch hc
      rcases he.cases hg with hold | rfl
      · exact ⟨g, hold, rfl, rfl⟩
      · exact ⟨_, he.mem, rfl, hm.pages.symm⟩
  | popped =>
      refine h.quiet (fun f hf => ⟨f, App.mem_of_mem_pop hf, rfl, rfl⟩) fun c hc => nomatch hc
  | opened hstack _ _ _ hopens => exact h.opened ho hstack hopens
  | @resorted _ f kind p he htop hp hp' _ hkey =>
      have hidle := (hsteady 0 f htop p hp).1 hkey
      obtain ⟨so, hreads⟩ := h f he.mem p hp
      exact h.requested ho he hp' ⟨_, Reads.opened (s := { s with app := app' }) (hreads.idle hidle)⟩
  | @more _ f kind p c he htop hp hp' _ hidle hnext hsort horder hkey =>
      obtain ⟨so, hreads⟩ := h f he.mem p hp
      have hsame := (hsteady 0 f htop p hp).2 hkey hidle (by rw [hnext]; rfl)
      have hsame' : SamePage srv { s with app := app' } f.id p := by
        unfold SamePage at hsame ⊢
        rw [hsort, horder]
        exact hsame
      exact h.requested ho he hp'
        ⟨so, Reads.more (hreads.congr (t := { s with app := app' }) rfl rfl) hidle hnext hsame'⟩

end AllRead

end Session

/-! ## §6. Responses. -/

/-- A page response that answers a command answers a page request of its frame. -/
theorem asksPage_of_reply {c : Cmd} {m : Msg} (h : c.answeredBy m = true) {level : Level}
    {r : Except String (List Item × Option String)} (hr : level.reply m = some r) {id : ℕ}
    (hm : m.frame = some id) : c.asksPage id = true := by
  cases m with
  | prefixPage id' resp | volumesPage id' resp | searchResults id' resp =>
      have hid : id' = id := Option.some.inj hm
      subst hid
      cases c <;> first | exact h | cases h
  | _ => cases level <;> cases hr

/-- What answers a page request is a reply to its level. -/
theorem reply_of_request {level : Level} {cursor : Option String} {id : ℕ} {m : Msg}
    (h : (level.request cursor id).answeredBy m = true) :
    m.frame = some id ∧ ∃ r, level.reply m = some r := by
  cases level <;> cases m <;> first
    | cases h
    | exact ⟨congrArg some (beq_iff_eq.1 h).symm, by rename_i r; cases r <;> exact ⟨_, rfl⟩⟩

/-- A page served is the page of the level's list. -/
theorem Server.Serves.page {srv : Server} {q : Issued} {m : Msg} (h : srv.Serves q m)
    {level : Level} {cursor : Option String} {id : ℕ} (hq : q.cmd = level.request cursor id)
    {r : List Item × Option String} (hr : level.reply m = some (.ok r)) :
    r = srv.cursors.page pageLimit (srv.complete q.sort q.order level) cursor := by
  unfold Server.Serves at h
  rw [hq] at h
  -- For each kind of level only its own response is a reply.
  cases level with
  | keys pre =>
      cases m with
      | prefixPage id' resp =>
          cases resp with
          | error e => cases hr
          | ok page =>
              cases hr
              exact (congrArg (fun w => (w.1.map Item.keyPrefix, w.2)) h).trans
                (Cursors.page_map _ _ _ _ _).symm
      | _ => cases hr
  | volumes group =>
      cases m with
      | volumesPage id' resp =>
          cases resp with
          | error e => cases hr
          | ok page =>
              cases hr
              exact (congrArg (fun w => (w.1.map Item.volume, w.2)) h).trans
                (Cursors.page_map _ _ _ _ _).symm
      | _ => cases hr
  | results kind pattern =>
      cases m with
      | searchResults id' resp =>
          cases resp with
          | error e => cases hr
          | ok page =>
              cases hr
              exact (congrArg (fun w => (w.1.map Item.hit, w.2)) h).trans
                (Cursors.page_map _ _ _ _ _).symm
      | _ => cases hr

namespace Session

variable {srv : Server} {s t : Session}

/-- One request at most is under way for a list. -/
theorem Reads.length_le {id : ℕ} {p : Pages} {so : SortKey × Order} (h : s.Reads srv id p so) :
    (s.paging id).length ≤ 1 := by
  cases hp : p.pending with
  | false =>
      rw [h.idle hp]
      exact Nat.zero_le 1
  | true =>
      obtain ⟨q, hq, -⟩ := h.waiting hp
      rw [hq]
      exact le_rfl

/-- **A page that arrives continues the list.** -/
theorem Reads.answered {id : ℕ} {p : Pages} {so : SortKey × Order} (h : s.Reads srv id p so)
    {q : Issued} (hq : s.paging id = [q]) {m : Msg} (hserves : srv.Serves q m)
    {r : Except String (List Item × Option String)} (hr : p.level.reply m = some r)
    (hbegun : t.begun id = s.begun id) (hpaging : t.paging id = []) :
    t.Reads srv id (p.answered r) so := by
  have hpending : p.pending = true := by
    cases hp : p.pending with
    | true => rfl
    | false =>
        rw [h.idle hp] at hq
        cases hq
  obtain ⟨q', hq', hcmd, hsame⟩ := h.waiting hpending
  rw [hq] at hq'
  cases hq'
  cases r with
  | error e =>
      exact ⟨hbegun.trans h.begun, h.read, fun hp => (nomatch hp), fun _ => hpaging,
        fun hp => (nomatch hp)⟩
  | ok r =>
      have hread := h.read.page (h.first hpending) pageLimit
      rw [← hsame, ← hserves.page hcmd hr] at hread
      exact ⟨hbegun.trans h.begun, hread, fun hp => (nomatch hp), fun _ => hpaging,
        fun hp => (nomatch hp)⟩

namespace AllRead

variable {app' : App} {i : ℕ} {q : Issued} {m : Msg}

/-- A frame that does not take the response for a page of its own. -/
theorem deaf (h : s.AllRead srv) (hq : s.flying[i]? = some q) (hm : q.cmd.answeredBy m = true)
    {f : Frame} (hf : f ∈ s.app.stack) {p : Pages} (hp : f.kind.pages = some p)
    (hdeaf : m.frame = some f.id → p.level.reply m = none) :
    ∃ so, Reads srv { s with app := app', flying := s.flying.eraseIdx i } f.id p so := by
  obtain ⟨so, hreads⟩ := h f hf p hp
  obtain ⟨before, after, hflying, herase⟩ := flying_split hq
  refine ⟨so, hreads.congr rfl ?_⟩
  show (s.flying.eraseIdx i).filter _ = s.flying.filter _
  rw [herase, hflying, List.filter_append, List.filter_append, List.filter_cons]
  cases hasks : q.cmd.asksPage f.id with
  | false => rfl
  | true =>
      -- Then it is the request this list waits for, and the frame hears the answer.
      exfalso
      have hmem : q ∈ s.paging f.id :=
        List.mem_filter.2 ⟨List.mem_of_getElem? hq, hasks⟩
      cases hpending : p.pending with
      | false =>
          rw [hreads.idle hpending] at hmem
          cases hmem
      | true =>
          obtain ⟨q', hq', hcmd, -⟩ := hreads.waiting hpending
          rw [hq', List.mem_singleton] at hmem
          rw [hmem, hcmd] at hm
          obtain ⟨hframe, r, hr⟩ := reply_of_request hm
          rw [hdeaf hframe] at hr
          cases hr

/-- **A response keeps what the lists have read.** -/
theorem arrival (h : s.AllRead srv) (ho : s.Orderly) (hq : s.flying[i]? = some q)
    (hm : q.cmd.answeredBy m = true) (hserves : srv.Serves q m) (ha : Arrival s.app m app') :
    AllRead srv { s with app := app', flying := s.flying.eraseIdx i } := by
  intro g hg p hp
  have hdeaf : Deaf s.app m → ∀ f ∈ s.app.stack, f.kind.pages = some p →
      m.frame = some f.id → p.level.reply m = none := fun hdeaf f hf hpages hframe =>
    hdeaf f.id f.kind p hframe (App.kindOf_mem ho.stacked.ids hf) hpages
  cases ha with
  | unheard ha hnot =>
      have hold : g ∈ s.app.stack := ha.stack ▸ hg
      exact h.deaf hq hm hold hp (hdeaf hnot g hold hp)
  | moved he hmoves hnot =>
      rcases he.cases hg with hold | rfl
      · exact h.deaf hq hm hold hp (hdeaf hnot g hold hp)
      · have hpages := hmoves.pages.symm.trans hp
        exact h.deaf hq hm he.mem hpages (hdeaf hnot _ he.mem hpages)
  | @page f kind p₀ r he hframe hpages hreply hpages' _ =>
      rcases he.cases_of_ids ho.stacked.ids hg with rfl | ⟨hold, hid⟩
      · obtain ⟨so, hreads⟩ := h f he.mem p₀ hpages
        obtain ⟨before, after, hflying, herase⟩ := flying_split hq
        have hasks := asksPage_of_reply hm hreply hframe
        have hpaging : s.paging f.id = before.filter (·.cmd.asksPage f.id) ++
            q :: after.filter (·.cmd.asksPage f.id) := by
          show s.flying.filter _ = _
          rw [hflying, List.filter_append, List.filter_cons_of_pos (by exact hasks)]
        -- It was the only one, so none is under way now.
        have hone := hreads.length_le
        rw [hpaging, List.length_append, List.length_cons] at hone
        have hbefore := List.length_eq_zero_iff.1
          (show (before.filter (·.cmd.asksPage f.id)).length = 0 by omega)
        have hafter := List.length_eq_zero_iff.1
          (show (after.filter (·.cmd.asksPage f.id)).length = 0 by omega)
        rw [hbefore, hafter] at hpaging
        have hp' : p₀.answered r = p := Option.some.inj (hpages'.symm.trans hp)
        rw [← hp']
        refine ⟨so, hreads.answered hpaging hserves hreply rfl ?_⟩
        show (s.flying.eraseIdx i).filter _ = []
        rw [herase, List.filter_append, hbefore, hafter]
        rfl
      · refine h.deaf hq hm hold hp fun hown => ?_
        rw [hframe] at hown
        exact absurd (Option.some.inj hown).symm hid
  | entry he hshows his =>
      have hreply : ∀ level : Level, level.reply m = none := fun level => by
        rw [his]
        cases level <;> rfl
      rcases he.cases hg with hold | rfl
      · exact h.deaf hq hm hold hp fun _ => hreply _
      · cases hp

theorem resized (h : s.AllRead srv) (rows : ℕ) : (s.resized rows).AllRead srv := by
  intro f hf p hp
  obtain ⟨so, hreads⟩ := h f hf p hp
  exact ⟨so, hreads.congr rfl rfl⟩

/-- Every event that meets the condition keeps it. -/
theorem next (h : s.AllRead srv) (ho : s.Orderly) {e : Event} (hhonest : srv.Honest s e)
    (hsteady : s.Steady srv e) (ht : s.next e = some t) : t.AllRead srv := by
  have hsame : ∀ f ∈ s.app.stack, ∃ g ∈ s.app.stack, g.id = f.id ∧ g.kind.pages = f.kind.pages :=
    fun f hf => ⟨f, hf, rfl, rfl⟩
  cases e with
  | input rows k =>
      cases ht
      exact (h.resized rows).turn (ho.resized rows) (fun _ => hsteady) App.turn_of_key
  | resize rows =>
      cases ht
      exact (h.resized rows).quiet hsame fun c hc => nomatch hc
  | tick =>
      cases ht
      refine h.quiet hsame fun c hc id => ?_
      rw [List.mem_singleton.1 hc]
      rfl
  | answer rows i m =>
      obtain ⟨q, hq, hm, rfl⟩ := answer_cases ht
      exact (h.resized rows).arrival (ho.resized rows) hq hm (hhonest q hq) (arrival_of_answer _ hm).1

end AllRead

theorem allRead_start (srv : Server) : start.AllRead srv := by
  intro f hf p hp
  cases List.mem_singleton.1 hf
  cases hp

/-- **One slice of one order**: in every run against the server whose steps meet the
condition, in every state, every list is the beginning of its level's list under one
order, with no entry repeated and one request under way at most. -/
theorem lists_sliced {srv : Server} {s : Session}
    (h : (srv.machine.guarded fun s e => s.Steady srv e).Reachable s) : s.Sliced srv := by
  have hboth : s.Orderly ∧ s.AllRead srv :=
    Machine.Reachable.guarded_invariant (P := fun s => s.Orderly ∧ s.AllRead srv)
      (fun _ h0 => by
        cases h0
        exact ⟨orderly_start, allRead_start srv⟩)
      (fun _ _ _ hs hsteady hst => ⟨hs.1.next hst.2, hs.2.next hs.1 hst.1 hsteady hst.2⟩) h
  intro f hf p hp
  obtain ⟨so, hreads⟩ := hboth.2 f hf p hp
  exact ⟨⟨so.1, so.2, hreads.read.isPrefix⟩, hreads.read.nodup (srv.complete_nodup _ _ _),
    hreads.length_le⟩

end Session

/-! ## §7. A re-sort before the first page arrived. -/

/-- Decimal row numbers, as the store reader writes its cursors. -/
def decimal : Cursors String where
  name := Nat.repr
  row s := Nat.ofDigitChars 10 s.toList 0
  row_name n := by rw [Nat.toList_repr, Nat.ofDigitChars_ten_toDigits]

/-- Entries one sort key lists one way, the others the other way. -/
def Listing.ofList {α : Type} (l : List α) (h : l.Nodup) : Listing α where
  sorted sort _ := if sort = .partialFirst then l else l.reverse
  nodup sort _ := by
    split
    case isTrue => exact h
    case isFalse => exact List.nodup_reverse.2 h
  perm sort _ sort' _ := by
    have hperm : ∀ s : SortKey, (if s = .partialFirst then l else l.reverse).Perm l := fun s => by
      split
      case isTrue => exact List.Perm.refl l
      case isFalse => exact List.reverse_perm l
    exact (hperm sort).trans (hperm sort').symm

/-- A store of objects under these keys. -/
def Server.ofKeys (names : List String) (h : names.Nodup) : Server where
  children _ := .ofList [] List.nodup_nil
  volumes _ := .ofList [] List.nodup_nil
  hits kind _ :=
    match kind with
    | .key => .ofList (names.map fun name => .key ⟨name, .object, []⟩)
        (h.map fun _ _ hab => congrArg KeyEntry.key (SearchMatch.key.inj hab))
    | .volume => .ofList [] List.nodup_nil
  cursors := decimal

/-- A page of search results for the first frame opened. -/
def found (names : List String) (next : Option String) : Msg :=
  .searchResults 1 (.ok ⟨names.map fun name => .key ⟨name, .object, []⟩, next⟩)

/-- The results of a filter for "w", nothing under way. -/
def results (names : List String) : Pages :=
  ⟨.results .key "w", names.map fun name => .hit (.key ⟨name, .object, []⟩), none, false⟩

namespace Session

/-- Keys typed. -/
def typed (keys : List KeyCode) : List Event := keys.map fun code => .input 24 ⟨code, false⟩

/-- What the frames show. -/
def shown (t : Session) : List (Option Pages) := t.app.stack.map (·.kind.pages)

/-- Filter for "w" and cycle the sort when the page has arrived. -/
def resorted : List Event :=
  typed [.char '/', .char 'w', .enter] ++ [.answer 24 0 (found ["w0", "w1"] none)] ++
    typed [.char 's'] ++ [.answer 24 0 (found ["w1", "w0"] none)]

/-- Filter for "w" and cycle the sort at once. -/
def resortedEarly : List Event :=
  typed [.char '/', .char 'w', .enter, .char 's'] ++
    [.answer 24 0 (found ["w0", "w1"] none), .answer 24 0 (found ["w1", "w0"] none)]

/-- The two keys of the store. -/
def twoKeys : Server := .ofKeys ["w0", "w1"] (by decide)

theorem resorted_sliced :
    ∃ t, Machine.replay (Machine.guardedNext (fun s e => s.Steady twoKeys e)
        (Machine.guardedNext twoKeys.Honest next)) start resorted = some t ∧
      t.shown = [none, some (results ["w1", "w0"])] ∧ t.Sliced twoKeys := by
  have hdone : (Machine.replay (Machine.guardedNext (fun s e => s.Steady twoKeys e)
      (Machine.guardedNext twoKeys.Honest next)) start resorted).map shown
        = some [none, some (results ["w1", "w0"])] := by
    decide
  obtain ⟨t, ht, hshown⟩ := Option.map_eq_some_iff.1 hdone
  have hreach : (twoKeys.machine.guarded fun s e => s.Steady twoKeys e).Reachable t :=
    Machine.Reachable.of_guarded_replay (Machine.guardedNext_step fun _ _ _ hst => hst) _
      (.init rfl) ht
  exact ⟨t, ht, hshown, lists_sliced hreach⟩

/-- A run against the server that ends with an entry shown twice. -/
theorem exists_not_sliced {srv : Server} {es : List Event} {p : Pages}
    (h : (Machine.replay (Machine.guardedNext srv.Honest next) start es).map shown
      = some [none, some p]) (hp : ¬ p.items.Nodup) :
    ∃ t, srv.machine.Reachable t ∧ ¬ t.Sliced srv := by
  obtain ⟨t, ht, hshown⟩ := Option.map_eq_some_iff.1 h
  have hreach : srv.machine.Reachable t :=
    Machine.Reachable.of_guarded_replay (fun _ _ _ hst => hst) _ (.init rfl) ht
  refine ⟨t, hreach, fun hsliced => ?_⟩
  have hmem : some p ∈ t.shown := by
    rw [hshown]
    exact List.mem_cons_of_mem _ List.mem_cons_self
  obtain ⟨f, hf, hpages⟩ := List.mem_map.1 hmem
  exact hp (hsliced f hf p hpages).2.1

/-- **A re-sort before the first page arrived**: the page asked for before is appended
to the new list, and then the new one. -/
theorem resort_repeats : ∃ t, twoKeys.machine.Reachable t ∧ ¬ t.Sliced twoKeys := by
  have hdone : (Machine.replay (Machine.guardedNext twoKeys.Honest next) start
      resortedEarly).map shown = some [none, some (results ["w0", "w1", "w1", "w0"])] := by
    decide
  exact exists_not_sliced hdone (by decide)

/-- One key more than a page holds. -/
def longNames : List String := (List.range 201).map decimal.name

def manyKeys : Server := .ofKeys longNames (List.nodup_range.map decimal.name_injective)

/-- Filter for "w"; look at what is unreachable and come back; load the second page. -/
def resumed : List Event :=
  typed [.char '/', .char 'w', .enter] ++
    [.answer 24 0 (found (longNames.take pageLimit) (some "200"))] ++
    typed (.char ':' :: ("unreachable".toList.map .char)) ++
    typed [.enter, .char 'h', .char 'G', .enter] ++
    [.answer 24 1 (found ["0"] none)]

/-- **A page loaded after the sort had changed under the list**: it is the last of the
list turned around, the first key again. -/
theorem resume_repeats : ∃ t, manyKeys.machine.Reachable t ∧ ¬ t.Sliced manyKeys := by
  have hdone : (Machine.replay (Machine.guardedNext manyKeys.Honest next) start
      resumed).map shown
        = some [none, some (results (longNames.take pageLimit ++ ["0"]))] := by
    decide +kernel
  refine exists_not_sliced hdone fun hnodup => ?_
  have hzero : Item.hit (.key ⟨"0", .object, []⟩)
      ∈ (longNames.take pageLimit).map fun name => Item.hit (.key ⟨name, .object, []⟩) := by
    decide +kernel
  unfold results at hnodup
  dsimp only at hnodup
  rw [List.map_append] at hnodup
  exact (List.disjoint_of_nodup_append hnodup) hzero (List.mem_singleton.2 rfl)

end Session

end Toso.Tui
