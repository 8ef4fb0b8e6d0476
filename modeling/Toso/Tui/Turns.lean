/-
  Toso.Tui.Turns — what one message can do to the model.

  The reducer has five kinds of frame, a dozen key actions and six kinds of
  response; of all they do, the stack sees few things.  A frame is edited where
  it stands, pushed, or popped; a page is asked for, or arrives.

  Main results:
    * `turn_of_key` — what a key does: the moves, in one inductive.
    * `arrives_page` — what a page does, for a frame that waits for one of its kind.
-/
import Toso.Tui.App
import Mathlib.Tactic.SplitIfs

namespace Toso.Tui

/-! ## §1. Levels and their pages. -/

/-- What a paged frame lists. -/
inductive Level
  | keys (pre : String)
  | volumes (group : String)
  | results (kind : SearchKind) (pattern : String)
  deriving DecidableEq, Repr

/-- The page request of a level. -/
def Level.request (cursor : Option String) (id : ℕ) : Level → Cmd
  | .keys pre => .expandPrefix pre cursor id
  | .volumes group => .listVolumes group cursor id
  | .results kind pattern => .search kind pattern cursor id

/-- An entry of a level. -/
inductive Item
  | keyPrefix (p : KeyPrefix)
  | volume (v : Volume)
  | hit (m : SearchMatch)
  deriving DecidableEq, Repr

/-- What a paged frame holds, its cursor apart. -/
structure Pages where
  level : Level
  items : List Item
  nextCursor : Option String
  pending : Bool
  deriving DecidableEq, Repr

/-- A level whose first page is under way. -/
def Pages.fresh (level : Level) : Pages := ⟨level, [], none, true⟩

/-- A page request was answered. -/
def Pages.answered (p : Pages) : Except String (List Item × Option String) → Pages
  | .ok (items, next) =>
      { p with items := p.items ++ items, nextCursor := next, pending := false }
  | .error _ => { p with pending := false }

theorem Pages.answered_level (p : Pages) (r : Except String (List Item × Option String)) :
    (p.answered r).level = p.level := by
  cases r <;> rfl

def Level.paged {α : Type} (level : Level) (item : α → Item) (l : LazyList α) : Pages :=
  ⟨level, l.items.map item, l.nextCursor, l.pending⟩

namespace FrameKind

/-- The pages of a paged frame. -/
def pages : FrameKind → Option Pages
  | .keys pre list => some ((Level.keys pre).paged .keyPrefix list)
  | .volumes group list => some ((Level.volumes group).paged .volume list)
  | .results kind pattern list => some ((Level.results kind pattern).paged .hit list)
  | .health _ => none
  | .detail .. => none

/-- The entry a Detail frame has loaded. -/
def loaded : FrameKind → Option KeyEntry
  | .detail _ entry _ _ _ => entry
  | _ => none

def isHealth : FrameKind → Bool
  | .health _ => true
  | _ => false

/-- The number of shards of the entry, 0 when it is not loaded. -/
def shardCount (entry : Option KeyEntry) : ℕ := entry.elim 0 fun e => e.shards.length

/-- The cursor of the frame is on a row. -/
def Placed : FrameKind → Prop
  | .health list => list.Placed
  | .keys _ list => list.Placed
  | .volumes _ list => list.Placed
  | .results _ _ list => list.Placed
  | .detail _ entry _ _ c => c < shardCount entry ∨ shardCount entry = 0 ∧ c = 0

theorem isHealth_of_pages {kind : FrameKind} {p : Pages} (h : kind.pages = some p) :
    kind.isHealth = false := by
  cases kind <;> first | rfl | cases h

theorem loaded_of_pages {kind : FrameKind} {p : Pages} (h : kind.pages = some p) :
    kind.loaded = none := by
  cases kind <;> first | rfl | cases h

/-- The scope a frame sets is its level's. -/
theorem scopeOf_of_pages {kind kind' : FrameKind} {p p' : Pages} (h : kind.pages = some p)
    (h' : kind'.pages = some p') (hlevel : p'.level = p.level) :
    App.scopeOf kind' = App.scopeOf kind := by
  cases kind <;> cases kind' <;> cases h <;> cases h' <;> cases hlevel <;> rfl

end FrameKind

/-! ## §2. Edits of the stack. -/

/-- The two models differ in nothing the stack's laws speak of. -/
structure Alike (app app' : App) : Prop where
  stack : app'.stack = app.stack
  nextId : app'.nextId = app.nextId
  scope : app'.scope = app.scope
  inflight : app'.inflight = app.inflight

/-- One frame of the stack shows something else, the rest is as it was. -/
structure Edits (app app' : App) (f : Frame) (kind : FrameKind) : Prop where
  place : ∃ n, app.stack[n]? = some f ∧ app'.stack = app.stack.set n { f with kind := kind }
  nextId : app'.nextId = app.nextId
  scope : app'.scope = app.scope
  inflight : app'.inflight = app.inflight

/-- A change of a frame that only its cursor and its texts can tell. -/
structure Moves (kind kind' : FrameKind) : Prop where
  scope : App.scopeOf kind' = App.scopeOf kind
  ground : kind'.isHealth = kind.isHealth
  loaded : kind'.loaded = kind.loaded
  pages : kind'.pages = kind.pages
  placed : kind.Placed → kind'.Placed

namespace App

variable {app : App}

theorem editAt_edits {n : ℕ} {f : Frame} (h : app.stack[n]? = some f) (g : FrameKind → FrameKind) :
    Edits app (app.editAt n g) f (g f.kind) := by
  refine ⟨⟨n, h, ?_⟩, rfl, rfl, rfl⟩
  obtain ⟨hlt, rfl⟩ := List.getElem?_eq_some_iff.1 h
  apply List.ext_getElem?
  intro i
  show (app.stack.modify n _)[i]? = _
  rw [List.getElem?_modify, List.getElem?_set]
  by_cases hi : n = i
  · subst hi
    simp [hlt]
  · simp [hi]

theorem editAt_alike {n : ℕ} (h : app.stack[n]? = none) (g : FrameKind → FrameKind) :
    Alike app (app.editAt n g) :=
  ⟨List.modify_eq_self (List.getElem?_eq_none_iff.1 h), rfl, rfl, rfl⟩

theorem top_place {f : Frame} (h : app.top = some f) :
    app.stack[app.stack.length - 1]? = some f := by
  rw [← List.getLast?_eq_getElem?]
  exact h

theorem editTop_edits {f : Frame} (h : app.top = some f) (g : FrameKind → FrameKind) :
    Edits app (app.editTop g) f (g f.kind) := editAt_edits (top_place h) g

/-- The frame a response is routed to. -/
theorem find_place {id : ℕ} {f : Frame} (h : app.stack.find? (·.id == id) = some f) :
    app.stack[app.stack.findIdx (·.id == id)]? = some f := by
  rw [List.find?_eq_getElem?_findIdx] at h
  exact h

theorem kindOf_eq_some {id : ℕ} {kind : FrameKind} (h : app.kindOf id = some kind) :
    ∃ f, app.stack.find? (·.id == id) = some f ∧ f.id = id ∧ f.kind = kind := by
  obtain ⟨f, hf, rfl⟩ := Option.map_eq_some_iff.1 h
  exact ⟨f, hf, by simpa using List.find?_some hf, rfl⟩

end App

/-! ## §3. What a key does. -/

namespace App

/-- The key cycles the sort. -/
def Resorts (app : App) (k : KeyEvent) : Prop := app.mode = .browse ∧ k.code = .char 's'

/-- The key stands on the trailing row and activates it. -/
def Loads (app : App) (k : KeyEvent) : Prop :=
  app.mode = .browse ∧ (k.code = .enter ∨ k.code = .char 'l' ∨ k.code = .right) ∧
    app.onMoreRow = true

instance (app : App) (k : KeyEvent) : Decidable (app.Resorts k) :=
  inferInstanceAs (Decidable (_ ∧ _))

instance (app : App) (k : KeyEvent) : Decidable (app.Loads k) :=
  inferInstanceAs (Decidable (_ ∧ _ ∧ _))

end App

/-- A frame as it is pushed, with what is asked for it. -/
inductive Opens (id : ℕ) : FrameKind → List Cmd → Prop
  | detail (key : String) : Opens id (.detail key none none none 0) [.fetchKey key id]
  | peeked (key : String) :
      Opens id (.detail key none none none 0) [.fetchKey key id, .peek key none id]
  | level {kind : FrameKind} (level : Level) (pages : kind.pages = some (.fresh level))
      (placed : kind.Placed) : Opens id kind [level.request none id]

/-- What a key does. -/
inductive Turn (app : App) (k : KeyEvent) : App → List Cmd → Prop
  | quiet {app' : App} {cmds : List Cmd} (h : Alike app app')
      (aside : ∀ c ∈ cmds, c = .fetchSummary ∨
        ∃ f key coords, app.top = some f ∧ c = .peek key coords f.id) : Turn app k app' cmds
  | moved {app' : App} {f : Frame} {kind : FrameKind} (h : Edits app app' f kind)
      (moves : Moves f.kind kind) : Turn app k app' []
  | popped : Turn app k app.pop []
  | opened {app' : App} {title : String} {kind : FrameKind} {cmds : List Cmd}
      (stack : app'.stack = app.stack ++ [⟨app.nextId, title, kind⟩])
      (nextId : app'.nextId = app.nextId + 1)
      (scope : app'.scope = (App.scopeOf kind).getD app.scope)
      (inflight : app'.inflight = app.inflight)
      (opens : Opens app.nextId kind cmds) : Turn app k app' cmds
  | resorted {app' : App} {f : Frame} {kind : FrameKind} {p : Pages}
      (h : Edits app app' f kind) (top : app.top = some f) (pages : f.kind.pages = some p)
      (pages' : kind.pages = some (.fresh p.level)) (placed : kind.Placed)
      (key : app.Resorts k) : Turn app k app' [p.level.request none f.id]
  | more {app' : App} {f : Frame} {kind : FrameKind} {p : Pages} {c : String}
      (h : Edits app app' f kind) (top : app.top = some f) (pages : f.kind.pages = some p)
      (pages' : kind.pages = some { p with pending := true })
      (placed : f.kind.Placed → kind.Placed) (idle : p.pending = false)
      (next : p.nextCursor = some c) (sort : app'.sort = app.sort) (order : app'.order = app.order)
      (key : app.Loads k) : Turn app k app' [p.level.request (some c) f.id]

namespace Alike

theorem refl (app : App) : Alike app app := ⟨rfl, rfl, rfl, rfl⟩

theorem turn {app app' : App} {k : KeyEvent} (h : Alike app app') : Turn app k app' [] :=
  .quiet h fun _ hc => nomatch hc

end Alike

/-- A cursor of shards that stands on a row. -/
def OnShard (entry : Option KeyEntry) (c : ℕ) : Prop :=
  c < FrameKind.shardCount entry ∨ FrameKind.shardCount entry = 0 ∧ c = 0

namespace App

variable {app : App} {k : KeyEvent}

/-- A cursor movement, whatever it does to a list and to a shard cursor. -/
theorem turn_move {onList : ∀ {α : Type}, LazyList α → LazyList α}
    {onShards : Option KeyEntry → ℕ → ℕ}
    (hsame : ∀ {α : Type} (l : LazyList α), ∃ c, onList l = { l with cursor := c })
    (hplaced : ∀ {α : Type} (l : LazyList α), l.Placed → (onList l).Placed)
    (hshards : ∀ entry c, OnShard entry c → OnShard entry (onShards entry c)) :
    Turn app k (app.move onList onShards) [] := by
  cases htop : app.top with
  | none =>
      have hout : app.stack[app.stack.length - 1]? = none := by
        rw [← List.getLast?_eq_getElem?]
        exact htop
      have halike : Alike app (app.move onList onShards) := by
        unfold move editTop
        exact editAt_alike hout _
      exact halike.turn
  | some f =>
      refine .moved (editTop_edits htop _) ?_
      -- The four list frames alike, then the shard cursor of a Detail frame.
      cases hkind : f.kind with
      | health l => exact ⟨rfl, rfl, rfl, rfl, hplaced l⟩
      | keys pre l =>
          obtain ⟨c, hc⟩ := hsame l
          exact ⟨rfl, rfl, rfl, by simp only [FrameKind.pages, hc]; rfl, hplaced l⟩
      | volumes group l =>
          obtain ⟨c, hc⟩ := hsame l
          exact ⟨rfl, rfl, rfl, by simp only [FrameKind.pages, hc]; rfl, hplaced l⟩
      | results kind pattern l =>
          obtain ⟨c, hc⟩ := hsame l
          exact ⟨rfl, rfl, rfl, by simp only [FrameKind.pages, hc]; rfl, hplaced l⟩
      | detail key entry error peek c => exact ⟨rfl, rfl, rfl, rfl, hshards entry c⟩

theorem lastShard_eq (entry : Option KeyEntry) :
    lastShard entry = FrameKind.shardCount entry - 1 := by
  cases entry <;> rfl

/-- A shard cursor put no further than it was, or than the last shard. -/
theorem onShard_of_le {entry : Option KeyEntry} {c c' : ℕ} (h : OnShard entry c)
    (hc : c' ≤ c ∨ c' ≤ lastShard entry) : OnShard entry c' := by
  rw [lastShard_eq] at hc
  unfold OnShard at h ⊢
  omega

theorem turn_selectUp : Turn app k app.selectUp [] :=
  turn_move (fun _ => ⟨_, rfl⟩) (fun _ h => h.selectUp)
    fun _ _ h => onShard_of_le h (Or.inl (Nat.sub_le _ _))

theorem turn_selectDown : Turn app k app.selectDown [] := by
  refine turn_move (fun l => ?_) (fun _ h => h.selectDown) fun entry c h => ?_
  · unfold LazyList.selectDown
    split
    case isTrue => exact ⟨_, rfl⟩
    case isFalse => exact ⟨l.cursor, rfl⟩
  · cases entry with
    | none => exact h
    | some e =>
        show OnShard (some e) (if c + 1 < e.shards.length then c + 1 else c)
        split
        case isTrue hlt => exact Or.inl hlt
        case isFalse => exact h

theorem turn_selectTop : Turn app k app.selectTop [] :=
  turn_move (fun _ => ⟨_, rfl⟩) (fun _ h => h.selectTop)
    fun _ _ h => onShard_of_le h (Or.inl (Nat.zero_le _))

theorem turn_selectBottom : Turn app k app.selectBottom [] :=
  turn_move (fun _ => ⟨_, rfl⟩) (fun _ h => h.selectBottom)
    fun _ _ h => onShard_of_le h (Or.inr le_rfl)

theorem turn_pageDown : Turn app k app.pageDown [] :=
  turn_move (fun _ => ⟨_, rfl⟩) (fun _ h => h.pageDown _)
    fun _ _ h => onShard_of_le h (Or.inr (Nat.min_le_right _ _))

theorem turn_pageUp : Turn app k app.pageUp [] :=
  turn_move (fun _ => ⟨_, rfl⟩) (fun _ h => h.pageUp _)
    fun _ _ h => onShard_of_le h (Or.inl (Nat.sub_le _ _))

/-! ### Opening a level. -/

/-- A frame pushed on a model like `app`. -/
theorem turn_push {base app' : App} {title : String} {kind : FrameKind} {cmds : List Cmd}
    (hbase : Alike app base) (h : Opens base.nextId kind cmds) (hstack : app'.stack = base.stack)
    (hid : app'.nextId = base.nextId) (hscope : app'.scope = (scopeOf kind).getD base.scope)
    (hinflight : app'.inflight = base.inflight) : Turn app k (app'.push title kind) cmds := by
  have hpushed : (app'.push title kind).stack = app.stack ++ [⟨app.nextId, title, kind⟩] := by
    show app'.stack ++ [⟨app'.nextId, title, kind⟩] = _
    rw [hstack, hid, hbase.stack, hbase.nextId]
  refine .opened hpushed ?_ ?_ ?_ (hbase.nextId ▸ h)
  · show app'.nextId + 1 = _
    rw [hid, hbase.nextId]
  · show app'.scope = _
    rw [hscope, hbase.scope]
  · show app'.inflight = _
    rw [hinflight, hbase.inflight]

/-- The step is one of the reducer's moves. -/
abbrev Turns (app : App) (k : KeyEvent) (r : App × List Cmd) : Prop := Turn app k r.1 r.2

variable {base : App}

theorem turns_openKeyDetail (h : Alike app base) (key : String) :
    Turns app k (base.openKeyDetail key) :=
  turn_push h (.detail key) rfl rfl rfl rfl

theorem turns_openPeek (h : Alike app base) (key : String) : Turns app k (base.openPeek key) :=
  turn_push h (.peeked key) rfl rfl rfl rfl

theorem turns_openSearch (h : Alike app base) (kind : SearchKind) (pattern title : String) :
    Turns app k (base.openSearch kind pattern title) :=
  turn_push h (.level (.results kind pattern) rfl LazyList.placed_begun) rfl rfl rfl rfl

theorem turns_openPrefix (h : Alike app base) (p : KeyPrefix) :
    Turns app k (base.openPrefix p) := by
  unfold openPrefix
  split
  case isTrue => exact turn_push h (.detail p.name) rfl rfl rfl rfl
  case isFalse =>
    exact turn_push h (.level (.keys p.name) rfl LazyList.placed_begun) rfl rfl rfl rfl

theorem turns_openGroup (h : Alike app base) (group : String) :
    Turns app k (base.openGroup group) :=
  turn_push h (.level (.volumes group) rfl LazyList.placed_begun) rfl rfl rfl rfl

/-! ### The input modes. -/

theorem turns_startFilter (h : Alike app base) (pattern : String) :
    Turns app k (base.startFilter pattern) := by
  unfold startFilter
  dsimp only
  split
  case isTrue => exact h.turn
  case isFalse => exact turns_openSearch h _ _ _

theorem turns_runCommand (h : Alike app base) (input : String) :
    Turns app k (base.runCommand input) := by
  have hsay : ∀ text, Alike app (base.say text) := fun _ => ⟨h.1, h.2, h.3, h.4⟩
  have hsort : ∀ sort order, Alike app { base with sort := sort, order := order } :=
    fun _ _ => ⟨h.1, h.2, h.3, h.4⟩
  unfold runCommand
  dsimp only
  split_ifs
  · exact h.turn
  · exact turns_openKeyDetail h _
  · exact turns_openGroup h _
  · exact turns_openPeek h _
  · exact turns_openSearch (hsort _ _) _ _ _
  · exact turns_openSearch (hsort _ _) _ _ _
  · exact (hsay _).turn

theorem alike_mode (app : App) (mode : Mode) : Alike app { app with mode := mode } :=
  ⟨rfl, rfl, rfl, rfl⟩

theorem turns_submitInput : Turns app k app.submitInput := by
  unfold submitInput
  split
  case h_1 => exact turns_startFilter (alike_mode app _) _
  case h_2 => exact turns_runCommand (alike_mode app _) _
  case h_3 => exact (alike_mode app _).turn

theorem alike_editBuffer (g : List Char → List Char) : Alike app (app.editBuffer g) := by
  unfold editBuffer
  split
  case h_1 => exact alike_mode app _
  case h_2 => exact alike_mode app _
  case h_3 => exact Alike.refl app

theorem turns_onInputKey : Turns app k (app.onInputKey k) := by
  unfold onInputKey
  split
  case h_1 => exact (alike_mode app _).turn
  case h_2 => exact turns_submitInput
  case h_3 => exact (alike_editBuffer List.dropLast).turn
  case h_4 c _ => exact (alike_editBuffer (· ++ [c])).turn
  case h_5 => exact (Alike.refl app).turn

/-! ### Sort, paging, peek, drill. -/

/-- The pages of the current level asked for again, the sort changed before. -/
theorem turns_cycleSort (hkey : app.Resorts k) : Turns app k app.cycleSort := by
  have hsort : Alike app { app with sort := nextSort app.sort } := ⟨rfl, rfl, rfl, rfl⟩
  have hedit : ∀ f kind, app.top = some f → Edits app
      ({ app with sort := nextSort app.sort }.editTop fun _ => kind) f kind := fun f kind htop =>
    ⟨(editTop_edits htop fun _ => kind).place, rfl, rfl, rfl⟩
  have htop' : App.top { app with sort := nextSort app.sort } = app.top := rfl
  unfold cycleSort reissueFirstPage
  rw [htop']
  cases htop : app.top with
  | none => exact hsort.turn
  | some f =>
      dsimp only
      cases hkind : f.kind with
      | health l => exact hsort.turn
      | detail key entry error peek c => exact hsort.turn
      | keys pre l =>
          exact .resorted (hedit f (.keys pre LazyList.new.beginPage) htop) htop
            (by rw [hkind]; rfl) rfl LazyList.placed_begun hkey
      | volumes group l =>
          exact .resorted (hedit f (.volumes group LazyList.new.beginPage) htop) htop
            (by rw [hkind]; rfl) rfl LazyList.placed_begun hkey
      | results kind pattern l =>
          exact .resorted (hedit f (.results kind pattern LazyList.new.beginPage) htop) htop
            (by rw [hkind]; rfl) rfl LazyList.placed_begun hkey

/-- The next page of a frame, whichever list it wraps. -/
theorem turns_more {α : Type} {f : Frame} (wrap : LazyList α → FrameKind) (level : Level)
    {item : α → Item} {l : LazyList α} (htop : app.top = some f) (hkind : f.kind = wrap l)
    (hpages : ∀ l, (wrap l).pages = some (level.paged item l))
    (hplaced : ∀ l, (wrap l).Placed ↔ l.Placed) (hkey : app.Loads k) :
    Turns app k (if !l.hasMore || l.pending then (app, [])
      else (app.editTop fun _ => wrap l.beginPage, [level.request l.nextCursor f.id])) := by
  split
  case isTrue => exact (Alike.refl app).turn
  case isFalse hidle =>
    rw [Bool.or_eq_true, Bool.not_eq_true', not_or, Bool.not_eq_false, Bool.not_eq_true] at hidle
    obtain ⟨hmore, hpending⟩ := hidle
    obtain ⟨c, hc⟩ := Option.isSome_iff_exists.1 hmore
    rw [hc]
    have hpages' : f.kind.pages = some (level.paged item l) := by
      rw [hkind]
      exact hpages l
    refine .more (editTop_edits htop fun _ => wrap l.beginPage) htop hpages' (hpages l.beginPage)
      ?_ hpending hc rfl rfl hkey
    rw [hkind, hplaced, hplaced]
    exact fun h => h.beginPage hmore

/-- The next page asked for, where the trailing row is active. -/
theorem turns_loadMore (hkey : app.Loads k) : Turns app k app.loadMore := by
  unfold loadMore
  cases htop : app.top with
  | none => exact (Alike.refl app).turn
  | some f =>
      dsimp only
      cases hkind : f.kind with
      | health l => exact (Alike.refl app).turn
      | detail key entry error peek c => exact (Alike.refl app).turn
      | keys pre l =>
          exact turns_more (.keys pre) (.keys pre) htop hkind (fun _ => rfl) (fun _ => Iff.rfl) hkey
      | volumes group l =>
          exact turns_more (.volumes group) (.volumes group) htop hkind (fun _ => rfl)
            (fun _ => Iff.rfl) hkey
      | results kind pattern l =>
          exact turns_more (.results kind pattern) (.results kind pattern) htop hkind
            (fun _ => rfl) (fun _ => Iff.rfl) hkey

theorem alike_say (app : App) (text : String) : Alike app (app.say text) := ⟨rfl, rfl, rfl, rfl⟩

theorem turns_peek : Turns app k app.peek := by
  unfold peek
  cases htop : app.top with
  | none => exact (Alike.refl app).turn
  | some f =>
      dsimp only
      cases f.kind with
      | detail key entry error peek c =>
          cases entry with
          | none => exact (alike_say app _).turn
          | some e =>
              dsimp only
              split
              case isTrue => exact (alike_say app _).turn
              case isFalse =>
                exact .quiet (alike_say app _) fun cmd hcmd =>
                  Or.inr ⟨f, key, _, htop, List.mem_singleton.1 hcmd⟩
      | _ => exact (alike_say app _).turn

theorem turns_drill (hmode : app.mode = .browse)
    (hcode : k.code = .enter ∨ k.code = .char 'l' ∨ k.code = .right) :
    Turns app k app.drill := by
  unfold drill
  split
  case isTrue hrow => exact turns_loadMore ⟨hmode, hcode, hrow⟩
  case isFalse =>
    split
    case h_1 p _ => exact turns_openPrefix (Alike.refl app) p
    case h_2 group _ => exact turns_openGroup (Alike.refl app) group
    case h_3 key _ => exact turns_openKeyDetail (Alike.refl app) key
    case h_4 => exact (alike_say app _).turn
    case h_5 => exact (Alike.refl app).turn

/-! ### The keymaps. -/

theorem turns_onBrowseKey (hmode : app.mode = .browse) : Turns app k (app.onBrowseKey k) := by
  have hquit : Alike app { app with shouldQuit := true } := ⟨rfl, rfl, rfl, rfl⟩
  have hline : ∀ mode, Alike app { app with mode := mode, status := none } :=
    fun _ => ⟨rfl, rfl, rfl, rfl⟩
  unfold onBrowseKey
  split
  case h_1 => exact hquit.turn
  case h_2 =>
    split
    case isTrue => exact hquit.turn
    case isFalse => exact (Alike.refl app).turn
  case h_3 => exact .quiet (alike_say app _) fun c hc => Or.inl (List.mem_singleton.1 hc)
  case h_4 | h_5 => exact turn_selectUp
  case h_6 | h_7 => exact turn_selectDown
  case h_8 => exact turn_selectTop
  case h_9 => exact turn_selectBottom
  case h_10 => exact turn_pageDown
  case h_11 => exact turn_pageUp
  case h_12 hcode => exact turns_drill hmode (Or.inl hcode)
  case h_13 hcode => exact turns_drill hmode (Or.inr (Or.inl hcode))
  case h_14 hcode => exact turns_drill hmode (Or.inr (Or.inr hcode))
  case h_15 | h_16 | h_17 => exact .popped
  case h_18 | h_19 => exact (hline _).turn
  case h_20 hcode => exact turns_cycleSort ⟨hmode, hcode⟩
  case h_21 => exact turns_peek
  case h_22 => exact (alike_mode app _).turn
  case h_23 => exact (Alike.refl app).turn

/-- **What a key does**: it is one of the moves. -/
theorem turn_of_key : Turns app k (app.onKey k) := by
  unfold onKey
  split
  case h_1 => exact turns_onInputKey
  case h_2 => exact turns_onInputKey
  case h_3 => exact (alike_mode app _).turn
  case h_4 hmode => exact turns_onBrowseKey hmode

end App

/-! ## §4. What a response does. -/

/-- The frame a response names. -/
def Msg.frame : Msg → Option ℕ
  | .prefixPage id _ => some id
  | .volumesPage id _ => some id
  | .keyLoaded id _ => some id
  | .searchResults id _ => some id
  | .peekLoaded id _ => some id
  | _ => none

/-- The page a response is to a level, if it answers a request of that kind. -/
def Level.reply : Level → Msg → Option (Except String (List Item × Option String))
  | .keys _, .prefixPage _ (.ok r) => some (.ok (r.children.map .keyPrefix, r.nextCursor))
  | .keys _, .prefixPage _ (.error e) => some (.error e)
  | .volumes _, .volumesPage _ (.ok r) => some (.ok (r.volumes.map .volume, r.nextCursor))
  | .volumes _, .volumesPage _ (.error e) => some (.error e)
  | .results .., .searchResults _ (.ok r) => some (.ok (r.hits.map .hit, r.nextCursor))
  | .results .., .searchResults _ (.error e) => some (.error e)
  | _, _ => none

/-- No frame of the stack takes the response for a page of its own. -/
def Deaf (app : App) (m : Msg) : Prop :=
  ∀ id kind p, m.frame = some id → app.kindOf id = some kind → kind.pages = some p →
    p.level.reply m = none

/-- What a response does. -/
inductive Arrival (app : App) (m : Msg) : App → Prop
  | unheard {app' : App} (h : Alike app.settle app') (deaf : Deaf app m) : Arrival app m app'
  | moved {app' : App} {f : Frame} {kind : FrameKind} (h : Edits app.settle app' f kind)
      (moves : Moves f.kind kind) (deaf : Deaf app m) : Arrival app m app'
  | page {app' : App} {f : Frame} {kind : FrameKind} {p : Pages}
      {r : Except String (List Item × Option String)} (h : Edits app.settle app' f kind)
      (names : m.frame = some f.id) (pages : f.kind.pages = some p)
      (reply : p.level.reply m = some r) (pages' : kind.pages = some (p.answered r))
      (placed : f.kind.Placed → kind.Placed) : Arrival app m app'
  | entry {app' : App} {f : Frame} {key : String} {entry : Option KeyEntry}
      {error : Option String} {peek : Option PeekResult} {c : ℕ} {k : KeyEntry}
      (h : Edits app.settle app' f (.detail key (some k) none peek c))
      (shows : f.kind = .detail key entry error peek c) (is : m = .keyLoaded f.id (.ok k)) :
      Arrival app m app'

namespace App

variable {app : App}

/-- An edit through the first frame of that id. -/
theorem settle_edits {id : ℕ} {f : Frame} (h : app.stack.find? (·.id == id) = some f)
    (g : FrameKind → FrameKind) : Edits app.settle (app.settle.editFrame id g) f (g f.kind) :=
  @editAt_edits app.settle _ f (find_place h) g

theorem edits_say {base app' : App} {f : Frame} {kind : FrameKind} (h : Edits base app' f kind)
    (text : String) : Edits base (app'.say text) f kind := ⟨h.place, h.nextId, h.scope, h.inflight⟩

theorem Moves.refl (kind : FrameKind) : Moves kind kind := ⟨rfl, rfl, rfl, rfl, id⟩

theorem deaf_of_frame {m : Msg} (h : m.frame = none) : Deaf app m := by
  intro id kind p hid
  rw [h] at hid
  cases hid

/-- A landing edited in place; the row selected stays on a row. -/
theorem arrives_landing {m : Msg} (hm : m.frame = none) {app' : App}
    (g : LazyList LandingRow → LazyList LandingRow) (hg : ∀ l, l.Placed → (g l).Placed)
    (hstack : app'.stack = (app.settle.editAt 0 (onLanding g)).stack)
    (hid : app'.nextId = app.nextId) (hscope : app'.scope = app.scope)
    (hinflight : app'.inflight = app.settle.inflight) : Arrival app m app' := by
  cases hf : app.settle.stack[0]? with
  | none =>
      have halike := editAt_alike hf (onLanding g)
      exact .unheard ⟨hstack.trans halike.stack, hid, hscope, hinflight⟩ (deaf_of_frame hm)
  | some f =>
      obtain ⟨n, hn, hset⟩ := (editAt_edits hf (onLanding g)).place
      refine .moved (f := f) ⟨⟨n, hn, hstack.trans hset⟩, hid, hscope, hinflight⟩ ?_
        (deaf_of_frame hm)
      cases f.kind with
      | health l => exact ⟨rfl, rfl, rfl, rfl, hg l⟩
      | _ => exact Moves.refl _

theorem arrives_onSummary (res : Except String Summary) :
    Arrival app (.summaryLoaded res) (app.onSummary res) := by
  cases res with
  | ok summary =>
      have hstack : (app.onSummary (.ok summary)).stack
          = (app.settle.editAt 0 (onLanding (refreshed (summary.keyPrefixes.map .keyPrefix ++
              summary.volumeGroups.map .group)))).stack := rfl
      refine arrives_landing rfl _ (fun l _ => ?_) hstack rfl rfl rfl
      exact LazyList.placed_setCursor (LazyList.placed_appendPage _ _ _) _
  | error e =>
      have hstack : (app.onSummary (.error e)).stack
          = (app.settle.editAt 0 (onLanding LazyList.failPage)).stack := rfl
      exact arrives_landing rfl _ (fun _ h => h.failPage) hstack rfl rfl rfl

/-- A page that arrives is appended. -/
theorem paged_appendPage {α : Type} (level : Level) (item : α → Item) (l : LazyList α)
    (items : List α) (next : Option String) :
    level.paged item (l.appendPage items next)
      = (level.paged item l).answered (.ok (items.map item, next)) := by
  simp [Level.paged, LazyList.appendPage, Pages.answered]

/-- A page, or its failure, for a frame that waits for one of its kind. -/
theorem arrives_page {α : Type} {m : Msg} {f : Frame} (wrap : LazyList α → FrameKind)
    {level : Level} {item : α → Item} {l : LazyList α}
    (hkind : f.kind = wrap l) (hpages : ∀ l, (wrap l).pages = some (level.paged item l))
    (hplaced : ∀ l, (wrap l).Placed ↔ l.Placed) (hm : m.frame = some f.id) ⦃l' : LazyList α⦄
    ⦃r : Except String (List Item × Option String)⦄ (hreply : level.reply m = some r)
    (hl : level.paged item l' = (level.paged item l).answered r) (hpl : l.Placed → l'.Placed)
    ⦃app' : App⦄ (h : Edits app.settle app' f (wrap l')) : Arrival app m app' := by
  have hp : f.kind.pages = some (level.paged item l) := by
    rw [hkind]
    exact hpages l
  refine .page h hm hp hreply ?_ ?_
  · rw [← hl]
    exact hpages l'
  · rw [hkind, hplaced, hplaced]
    exact hpl

/-- The frame a response names does not take it for a page. -/
theorem deaf_of_kindOf {m : Msg} {id : ℕ} (hm : m.frame = some id)
    (h : ∀ kind p, app.kindOf id = some kind → kind.pages = some p → p.level.reply m = none) :
    Deaf app m := by
  intro id' kind p hid
  rw [hm] at hid
  cases hid
  exact h kind p

/-- A response to a frame of another kind, or to none. -/
theorem arrives_unheard {m : Msg} {id : ℕ} {kind : Option FrameKind} (hm : m.frame = some id)
    (hkind : app.kindOf id = kind)
    (h : ∀ kind' p, kind = some kind' → kind'.pages = some p → p.level.reply m = none) :
    Arrival app m app.settle :=
  .unheard (Alike.refl _) (deaf_of_kindOf hm fun kind' p hk => h kind' p (hkind.symm.trans hk))

theorem arrives_onPrefixPage (id : ℕ) (resp : Except String ExpandPrefixResponse) :
    Arrival app (.prefixPage id resp) (app.onPrefixPage id resp) := by
  unfold onPrefixPage
  cases hkind : app.kindOf id with
  | none => exact arrives_unheard rfl hkind (by simp)
  | some kind =>
      obtain ⟨f, hf, hid, hk⟩ := kindOf_eq_some hkind
      cases kind with
      | keys pre l =>
          have hnames : (Msg.prefixPage id resp).frame = some f.id := congrArg some hid.symm
          have hgo := @arrives_page app _ _ f (.keys pre) (.keys pre) _ l hk (fun _ => rfl)
            (fun _ => Iff.rfl) hnames
          cases resp with
          | ok r =>
              exact hgo rfl (paged_appendPage _ _ _ _ _) (fun _ => LazyList.placed_appendPage _ _ _)
                (settle_edits hf fun _ => _)
          | error e =>
              exact hgo rfl rfl (fun h => h.failPage) (edits_say (settle_edits hf fun _ => _) _)
      | _ =>
          refine arrives_unheard rfl hkind fun _ p hk hp => ?_
          cases hk
          cases hp <;> rfl

theorem arrives_onVolumesPage (id : ℕ) (resp : Except String ListVolumesResponse) :
    Arrival app (.volumesPage id resp) (app.onVolumesPage id resp) := by
  unfold onVolumesPage
  cases hkind : app.kindOf id with
  | none => exact arrives_unheard rfl hkind (by simp)
  | some kind =>
      obtain ⟨f, hf, hid, hk⟩ := kindOf_eq_some hkind
      cases kind with
      | volumes group l =>
          have hnames : (Msg.volumesPage id resp).frame = some f.id := congrArg some hid.symm
          have hgo := @arrives_page app _ _ f (.volumes group) (.volumes group) _ l hk (fun _ => rfl)
            (fun _ => Iff.rfl) hnames
          cases resp with
          | ok r =>
              exact hgo rfl (paged_appendPage _ _ _ _ _) (fun _ => LazyList.placed_appendPage _ _ _)
                (settle_edits hf fun _ => _)
          | error e =>
              exact hgo rfl rfl (fun h => h.failPage) (edits_say (settle_edits hf fun _ => _) _)
      | _ =>
          refine arrives_unheard rfl hkind fun _ p hk hp => ?_
          cases hk
          cases hp <;> rfl

theorem arrives_onSearchPage (id : ℕ) (resp : Except String SearchResponse) :
    Arrival app (.searchResults id resp) (app.onSearchPage id resp) := by
  unfold onSearchPage
  cases hkind : app.kindOf id with
  | none => exact arrives_unheard rfl hkind (by simp)
  | some kind =>
      obtain ⟨f, hf, hid, hk⟩ := kindOf_eq_some hkind
      cases kind with
      | results kind pattern l =>
          have hnames : (Msg.searchResults id resp).frame = some f.id := congrArg some hid.symm
          have hgo := @arrives_page app _ _ f (.results kind pattern) (.results kind pattern) _ l hk
            (fun _ => rfl) (fun _ => Iff.rfl) hnames
          cases resp with
          | ok r =>
              exact hgo rfl (paged_appendPage _ _ _ _ _) (fun _ => LazyList.placed_appendPage _ _ _)
                (settle_edits hf fun _ => _)
          | error e =>
              exact hgo rfl rfl (fun h => h.failPage) (edits_say (settle_edits hf fun _ => _) _)
      | _ =>
          refine arrives_unheard rfl hkind fun _ p hk hp => ?_
          cases hk
          cases hp <;> rfl

theorem arrives_onKeyLoaded (id : ℕ) (resp : Except String KeyEntry) :
    Arrival app (.keyLoaded id resp) (app.onKeyLoaded id resp) := by
  have hdeaf : ∀ level : Level, level.reply (.keyLoaded id resp) = none := fun level => by
    cases level <;> rfl
  unfold onKeyLoaded
  cases hkind : app.kindOf id with
  | none => exact arrives_unheard rfl hkind (by simp)
  | some kind =>
      obtain ⟨f, hf, hid, hk⟩ := kindOf_eq_some hkind
      cases kind with
      | detail key entry error peek c =>
          cases resp with
          | ok e => exact .entry (settle_edits hf fun _ => _) hk (by rw [hid])
          | error e =>
              refine .moved (edits_say (settle_edits hf fun _ => _) _) ?_
                fun _ _ p _ _ _ => hdeaf p.level
              rw [hk]
              exact ⟨rfl, rfl, rfl, rfl, fun h => h⟩
      | _ => exact arrives_unheard rfl hkind fun _ p _ _ => hdeaf p.level

theorem arrives_onPeekLoaded (id : ℕ) (resp : Except String PeekResult) :
    Arrival app (.peekLoaded id resp) (app.onPeekLoaded id resp) := by
  have hdeaf : Deaf app (.peekLoaded id resp) := fun _ _ p _ _ _ => by cases p.level <;> rfl
  unfold onPeekLoaded
  cases hkind : app.kindOf id with
  | none => exact .unheard (Alike.refl _) hdeaf
  | some kind =>
      obtain ⟨f, hf, hid, hk⟩ := kindOf_eq_some hkind
      cases kind with
      | detail key entry error peek c =>
          cases resp with
          | ok e =>
              have hedit := settle_edits hf fun _ => .detail key entry error (some e) c
              refine .moved ⟨hedit.place, rfl, rfl, rfl⟩ ?_ hdeaf
              rw [hk]
              exact ⟨rfl, rfl, rfl, rfl, fun h => h⟩
          | error e => exact .unheard ⟨rfl, rfl, rfl, rfl⟩ hdeaf
      | _ => exact .unheard (Alike.refl _) hdeaf

end App

end Toso.Tui
