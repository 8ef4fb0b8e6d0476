/-
  Toso.Tui.App — the terminal UI's model and its reducer.

  A stack of frames, each with the list it was drilled into, the active sort and
  scope, the input mode.  `update` maps the model and a message to the model
  after it and the commands to run; a command's result comes back as a message
  that names the frame it was asked for.

  Of the records that travel only the fields the reducer reads are kept: what the
  view alone shows (byte counts, tensor statistics, histograms, the age of the
  summary) is left out, and so are the provider and the channel.
-/
import Toso.Tui.LazyList

namespace Toso.Tui

/-! ## §1. The data the provider serves. -/

inductive ObjectType
  | object
  | tensor
  | tensorSlice
  deriving DecidableEq, Repr

inductive SortKey
  | partialFirst
  | bytes
  | reachable
  | keys
  | name
  deriving DecidableEq, Repr

inductive Order
  | asc
  | desc
  deriving DecidableEq, Repr

inductive SearchKind
  | key
  | volume
  deriving DecidableEq, Repr

structure VolumeGroup where
  group : String
  deriving DecidableEq, Repr

/-- A node of the key trie; a leaf is itself a stored key. -/
structure KeyPrefix where
  name : String
  isLeaf : Bool
  deriving DecidableEq, Repr

structure Summary where
  volumeGroups : List VolumeGroup
  keyPrefixes : List KeyPrefix
  deriving DecidableEq, Repr

structure Volume where
  volumeId : String
  deriving DecidableEq, Repr

structure Shard where
  coordinates : List ℕ
  deriving DecidableEq, Repr

structure KeyEntry where
  key : String
  objectType : ObjectType
  shards : List Shard
  deriving DecidableEq, Repr

inductive SearchMatch
  | key (entry : KeyEntry)
  | volume (volume : Volume)
  deriving DecidableEq, Repr

structure PeekResult where
  dtype : String
  shape : List ℕ
  deriving DecidableEq, Repr

structure ExpandPrefixResponse where
  children : List KeyPrefix
  nextCursor : Option String

structure ListVolumesResponse where
  volumes : List Volume
  nextCursor : Option String

structure SearchResponse where
  hits : List SearchMatch
  nextCursor : Option String

/-! ## §2. Text. -/

/-- `char::is_whitespace`: the Unicode `White_Space` property. -/
def isWhitespace (c : Char) : Bool :=
  let n := c.toNat
  (0x9 ≤ n && n ≤ 0xD) || n == 0x20 || n == 0x85 || n == 0xA0 || n == 0x1680 ||
    (0x2000 ≤ n && n ≤ 0x200A) || n == 0x2028 || n == 0x2029 || n == 0x202F || n == 0x205F ||
    n == 0x3000

/-- `str::trim`. -/
def trim (s : String) : String :=
  String.ofList ((s.toList.dropWhile isWhitespace).reverse.dropWhile isWhitespace).reverse

/-- `split_once(char::is_whitespace)`: what stands before and after the first one. -/
def splitOnce (s : String) : Option (String × String) :=
  match s.toList.dropWhile (!isWhitespace ·) with
  | [] => none
  | _ :: after =>
      some (String.ofList (s.toList.takeWhile (!isWhitespace ·)), String.ofList after)

/-- What follows the last dot. -/
def lastSegment (s : String) : String :=
  String.ofList (s.toList.reverse.takeWhile (· != '.')).reverse

/-- Middle-elide a long string, keeping the distinguishing tail. -/
def middleElide (s : String) (max : ℕ) : String :=
  let chars := s.toList
  if chars.length ≤ max then s
  else if max ≤ 1 then "…"
  else
    let keep := max - 1
    let head := keep / 2
    let tail := keep - head
    String.ofList (chars.take head ++ '…' :: chars.drop (chars.length - tail))

/-! ## §3. The model. -/

/-- A row of the landing: a key-trie prefix or a volume group. -/
inductive LandingRow
  | keyPrefix (p : KeyPrefix)
  | group (g : VolumeGroup)
  deriving DecidableEq, Repr

inductive FrameKind
  | health (list : LazyList LandingRow)
  | keys (pre : String) (list : LazyList KeyPrefix)
  | volumes (group : String) (list : LazyList Volume)
  | detail (key : String) (entry : Option KeyEntry) (error : Option String)
      (peek : Option PeekResult) (shardCursor : ℕ)
  | results (kind : SearchKind) (pattern : String) (list : LazyList SearchMatch)
  deriving DecidableEq, Repr

/-- One level of the drill-stack. -/
structure Frame where
  id : ℕ
  title : String
  kind : FrameKind
  deriving DecidableEq, Repr

inductive Mode
  | browse
  | filter (buffer : String)
  | command (buffer : String)
  | help
  deriving DecidableEq, Repr

inductive Scope
  | all
  | group (name : String)
  deriving DecidableEq, Repr

/-- `App`; the bottom of the stack is its first entry. -/
structure App where
  shouldQuit : Bool
  summary : Option Summary
  stack : List Frame
  nextId : ℕ
  status : Option String
  inflight : ℕ
  scope : Scope
  sort : SortKey
  order : Order
  mode : Mode
  bodyRows : ℕ
  deriving DecidableEq, Repr

inductive KeyCode
  | char (c : Char)
  | up
  | down
  | left
  | right
  | pageUp
  | pageDown
  | enter
  | esc
  | backspace
  /-- Every other key of the terminal: no keymap names one. -/
  | other
  deriving DecidableEq, Repr

structure KeyEvent where
  code : KeyCode
  ctrl : Bool
  deriving DecidableEq, Repr

/-- A side effect the event loop performs: a call of the provider. -/
inductive Cmd
  | fetchSummary
  | expandPrefix (pre : String) (cursor : Option String) (frameId : ℕ)
  | listVolumes (group : String) (cursor : Option String) (frameId : ℕ)
  | fetchKey (key : String) (frameId : ℕ)
  | search (kind : SearchKind) (pattern : String) (cursor : Option String) (frameId : ℕ)
  | peek (key : String) (coordinates : Option (List ℕ)) (frameId : ℕ)
  deriving DecidableEq, Repr

/-- Every event the reducer consumes. -/
inductive Msg
  | key (k : KeyEvent)
  | resize
  | refreshTick
  | summaryLoaded (res : Except String Summary)
  | prefixPage (frameId : ℕ) (resp : Except String ExpandPrefixResponse)
  | volumesPage (frameId : ℕ) (resp : Except String ListVolumesResponse)
  | keyLoaded (frameId : ℕ) (resp : Except String KeyEntry)
  | searchResults (frameId : ℕ) (resp : Except String SearchResponse)
  | peekLoaded (frameId : ℕ) (resp : Except String PeekResult)

/-- What a drill resolves to. -/
inductive Drill
  | keyPrefix (p : KeyPrefix)
  | group (name : String)
  | key (name : String)
  | volume

/-- partial → bytes → reachable → keys → name → partial. -/
def nextSort : SortKey → SortKey
  | .partialFirst => .bytes
  | .bytes => .reachable
  | .reachable => .keys
  | .keys => .name
  | .name => .partialFirst

namespace App

def new : App where
  shouldQuit := false
  summary := none
  stack := [⟨0, "health", .health LazyList.new.beginPage⟩]
  nextId := 1
  status := none
  inflight := 0
  scope := .all
  sort := .partialFirst
  order := .desc
  mode := .browse
  bodyRows := 20

/-- `stack.last()`. -/
def top (app : App) : Option Frame := app.stack.getLast?

/-- Edit what the frame at a place of the stack shows. -/
def editAt (app : App) (n : ℕ) (g : FrameKind → FrameKind) : App :=
  { app with stack := app.stack.modify n fun f => { f with kind := g f.kind } }

/-- Through `stack.last_mut()`. -/
def editTop (app : App) (g : FrameKind → FrameKind) : App := app.editAt (app.stack.length - 1) g

/-- Through `stack.iter_mut().find(|f| f.id == id)`. -/
def editFrame (app : App) (id : ℕ) (g : FrameKind → FrameKind) : App :=
  app.editAt (app.stack.findIdx (·.id == id)) g

/-- Push a frame under a fresh id. -/
def push (app : App) (title : String) (kind : FrameKind) : App :=
  { app with stack := app.stack ++ [⟨app.nextId, title, kind⟩], nextId := app.nextId + 1 }

def say (app : App) (text : String) : App := { app with status := some text }

/-! ## §4. Opening a level. -/

/-- Push a Detail frame for `key` and fetch its entry. -/
def openKeyDetail (app : App) (key : String) : App × List Cmd :=
  (app.push (middleElide key 40) (.detail key none none none 0), [.fetchKey key app.nextId])

/-- `:peek <key>`: jump to a key's Detail and request its statistics at once. -/
def openPeek (app : App) (key : String) : App × List Cmd :=
  (app.push (middleElide key 40) (.detail key none none none 0),
    [.fetchKey key app.nextId, .peek key none app.nextId])

/-- Push a Results frame and fetch its first page. -/
def openSearch (app : App) (kind : SearchKind) (pattern title : String) : App × List Cmd :=
  (app.push title (.results kind pattern LazyList.new.beginPage),
    [.search kind pattern none app.nextId])

/-- A leaf drills straight to Detail, an intermediate node one level deeper. -/
def openPrefix (app : App) (p : KeyPrefix) : App × List Cmd :=
  if p.isLeaf then
    (app.push (middleElide p.name 40) (.detail p.name none none none 0),
      [.fetchKey p.name app.nextId])
  else
    (app.push (lastSegment p.name) (.keys p.name LazyList.new.beginPage),
      [.expandPrefix p.name none app.nextId])

def openGroup (app : App) (group : String) : App × List Cmd :=
  ({ app with scope := .group group }.push group (.volumes group LazyList.new.beginPage),
    [.listVolumes group none app.nextId])

/-- The group a Volumes frame shows. -/
def scopeOf : FrameKind → Option Scope
  | .volumes group _ => some (.group group)
  | _ => none

/-- The scope of the innermost Volumes frame. -/
def recomputeScope (app : App) : App :=
  { app with scope := (app.stack.reverse.findSome? fun f => scopeOf f.kind).getD .all }

def pop (app : App) : App :=
  recomputeScope (if 1 < app.stack.length then { app with stack := app.stack.dropLast } else app)

/-! ## §5. Input modes. -/

/-- A `/` filter compiles to a search over keys. -/
def startFilter (app : App) (pattern : String) : App × List Cmd :=
  let pattern := trim pattern
  if pattern = "" then (app, [])
  else app.openSearch .key pattern s!"filter: {pattern}"

/-- Parse a `:` command into exactly one bounded op. -/
def runCommand (app : App) (input : String) : App × List Cmd :=
  let input := trim input
  if input = "" then (app, [])
  else
    let (cmd, arg) := match splitOnce input with
      | some (c, a) => (c, trim a)
      | none => (input, "")
    if cmd = "key" ∧ arg ≠ "" then app.openKeyDetail arg
    else if cmd = "group" ∧ arg ≠ "" then app.openGroup arg
    else if cmd = "peek" ∧ arg ≠ "" then app.openPeek arg
    else if cmd = "partial" then
      { app with sort := .partialFirst, order := .desc }.openSearch .key "" ":partial"
    else if cmd = "unreachable" then
      { app with sort := .reachable, order := .asc }.openSearch .volume "" ":unreachable"
    else (app.say s!"unknown command: :{input}", [])

def submitInput (app : App) : App × List Cmd :=
  match app.mode with
  | .filter buffer => { app with mode := .browse }.startFilter buffer
  | .command buffer => { app with mode := .browse }.runCommand buffer
  | _ => ({ app with mode := .browse }, [])

/-- Edit the open line buffer. -/
def editBuffer (app : App) (g : List Char → List Char) : App :=
  match app.mode with
  | .filter buffer => { app with mode := .filter (String.ofList (g buffer.toList)) }
  | .command buffer => { app with mode := .command (String.ofList (g buffer.toList)) }
  | _ => app

/-- Enter submits, Esc cancels. -/
def onInputKey (app : App) (k : KeyEvent) : App × List Cmd :=
  match k.code with
  | .esc => ({ app with mode := .browse }, [])
  | .enter => app.submitInput
  | .backspace => (app.editBuffer List.dropLast, [])
  | .char c => (app.editBuffer (· ++ [c]), [])
  | _ => (app, [])

/-! ## §6. Sort, paging, peek. -/

/-- Ask for the first page of the current level again. -/
def reissueFirstPage (app : App) : App × List Cmd :=
  match app.top with
  | none => (app, [])
  | some frame =>
      match frame.kind with
      | .keys pre _ =>
          (app.editTop fun _ => .keys pre LazyList.new.beginPage,
            [.expandPrefix pre none frame.id])
      | .volumes group _ =>
          (app.editTop fun _ => .volumes group LazyList.new.beginPage,
            [.listVolumes group none frame.id])
      | .results kind pattern _ =>
          (app.editTop fun _ => .results kind pattern LazyList.new.beginPage,
            [.search kind pattern none frame.id])
      -- Health is a fixed snapshot, Detail a single key: nothing to page again.
      | .health _ => (app, [])
      | .detail .. => (app, [])

/-- Cycle the sort key and re-issue the current level's first page under it. -/
def cycleSort (app : App) : App × List Cmd :=
  { app with sort := nextSort app.sort }.reissueFirstPage

/-- Fetch the next page of the current level; a no-op if there is nothing more to
load or a request is in flight. -/
def loadMore (app : App) : App × List Cmd :=
  match app.top with
  | none => (app, [])
  | some frame =>
      match frame.kind with
      | .keys pre list =>
          if !list.hasMore || list.pending then (app, [])
          else (app.editTop fun _ => .keys pre list.beginPage,
            [.expandPrefix pre list.nextCursor frame.id])
      | .volumes group list =>
          if !list.hasMore || list.pending then (app, [])
          else (app.editTop fun _ => .volumes group list.beginPage,
            [.listVolumes group list.nextCursor frame.id])
      | .results kind pattern list =>
          if !list.hasMore || list.pending then (app, [])
          else (app.editTop fun _ => .results kind pattern list.beginPage,
            [.search kind pattern list.nextCursor frame.id])
      | _ => (app, [])

/-- Ask for the statistics of the selected shard of the current Detail key. -/
def peek (app : App) : App × List Cmd :=
  match app.top with
  | none => (app, [])
  | some frame =>
      match frame.kind with
      | .detail key entry _ _ shardCursor =>
          match entry with
          | none => (app.say "key still loading — peek unavailable", [])
          | some entry =>
              if entry.objectType = .object then
                (app.say "cannot peek an OBJECT (no tensor data)", [])
              else
                (app.say "peeking…",
                  [.peek key (entry.shards[shardCursor]?.map (·.coordinates)) frame.id])
      | _ => (app.say "peek only works on a key's detail", [])

/-! ## §7. Cursor movement. -/

/-- Move the cursor of the top frame: a list's by `onList`, a Detail frame's by
`onShards` from the entry and the shard cursor. -/
def move (app : App) (onList : ∀ {α : Type}, LazyList α → LazyList α)
    (onShards : Option KeyEntry → ℕ → ℕ) : App :=
  app.editTop fun
    | .health list => .health (onList list)
    | .keys pre list => .keys pre (onList list)
    | .volumes group list => .volumes group (onList list)
    | .results kind pattern list => .results kind pattern (onList list)
    | .detail key entry error peek shardCursor =>
        .detail key entry error peek (onShards entry shardCursor)

/-- The last shard's row, 0 when there is none. -/
def lastShard (entry : Option KeyEntry) : ℕ :=
  match entry with
  | none => 0
  | some e => e.shards.length - 1

def selectUp (app : App) : App := app.move (fun l => l.selectUp) fun _ c => c - 1

def selectDown (app : App) : App :=
  app.move (fun l => l.selectDown) fun entry c =>
    match entry with
    | some e => if c + 1 < e.shards.length then c + 1 else c
    | none => c

def selectTop (app : App) : App := app.move (fun l => l.selectTop) fun _ _ => 0

def selectBottom (app : App) : App := app.move (fun l => l.selectBottom) fun entry _ => lastShard entry

def pageDown (app : App) : App :=
  let height := max app.bodyRows 1
  app.move (fun l => l.pageDown height) fun entry c => min (c + height) (lastShard entry)

def pageUp (app : App) : App :=
  let height := max app.bodyRows 1
  app.move (fun l => l.pageUp height) fun _ c => c - height

/-! ## §8. Drilling. -/

/-- Whether the current list has its cursor on the trailing "load more" row. -/
def onMoreRow (app : App) : Bool :=
  match app.top.map Frame.kind with
  | some (.keys _ list) => list.onMoreRow
  | some (.volumes _ list) => list.onMoreRow
  | some (.results _ _ list) => list.onMoreRow
  | _ => false

/-- What the selected row of a frame drills into. -/
def drillOf : FrameKind → Option Drill
  | .health list => list.selected.map fun
      | .keyPrefix p => .keyPrefix p
      | .group g => .group g.group
  | .keys _ list => list.selected.map .keyPrefix
  | .results _ _ list => list.selected.map fun
      | .key k => .key k.key
      | .volume _ => .volume
  | .volumes .. => some .volume
  | .detail .. => none

/-- Enter on the trailing row fetches the next page instead of drilling. -/
def drill (app : App) : App × List Cmd :=
  if app.onMoreRow then app.loadMore
  else
    match app.top.bind fun f => drillOf f.kind with
    | some (.keyPrefix p) => app.openPrefix p
    | some (.group group) => app.openGroup group
    | some (.key key) => app.openKeyDetail key
    | some .volume => (app.say "no drill-down for a volume yet", [])
    | none => (app, [])

/-! ## §9. Keys. -/

/-- The browse keymap. -/
def onBrowseKey (app : App) (k : KeyEvent) : App × List Cmd :=
  match k.code with
  | .char 'q' => ({ app with shouldQuit := true }, [])
  | .char 'c' => if k.ctrl then ({ app with shouldQuit := true }, []) else (app, [])
  | .char 'r' => (app.say "refreshing", [.fetchSummary])
  | .up | .char 'k' => (app.selectUp, [])
  | .down | .char 'j' => (app.selectDown, [])
  | .char 'g' => (app.selectTop, [])
  | .char 'G' => (app.selectBottom, [])
  | .pageDown => (app.pageDown, [])
  | .pageUp => (app.pageUp, [])
  | .enter | .char 'l' | .right => app.drill
  | .esc | .char 'h' | .left => (app.pop, [])
  | .char '/' => ({ app with mode := .filter "", status := none }, [])
  | .char ':' => ({ app with mode := .command "", status := none }, [])
  | .char 's' => app.cycleSort
  | .char 'p' => app.peek
  | .char '?' => ({ app with mode := .help }, [])
  | _ => (app, [])

/-- While a line editor or the help overlay is open, keystrokes belong to it. -/
def onKey (app : App) (k : KeyEvent) : App × List Cmd :=
  match app.mode with
  | .filter _ => app.onInputKey k
  | .command _ => app.onInputKey k
  | .help => ({ app with mode := .browse }, [])
  | .browse => app.onBrowseKey k

/-! ## §10. Data arrival. -/

/-- `inflight.saturating_sub(1)`. -/
def settle (app : App) : App := { app with inflight := app.inflight - 1 }

/-- Edit the list of a Health frame. -/
def onLanding (g : LazyList LandingRow → LazyList LandingRow) : FrameKind → FrameKind
  | .health list => .health (g list)
  | kind => kind

/-- A fresh landing list that keeps the selected row. -/
def refreshed (rows : List LandingRow) (list : LazyList LandingRow) : LazyList LandingRow :=
  (LazyList.new.appendPage rows none).setCursor list.cursor

def onSummary (app : App) (res : Except String Summary) : App :=
  match res with
  | .ok summary =>
      let rows := summary.keyPrefixes.map .keyPrefix ++ summary.volumeGroups.map .group
      { app.settle.editAt 0 (onLanding (refreshed rows)) with
        summary := some summary, status := none }
  | .error e =>
      (app.settle.say s!"summary failed: {e}").editAt 0 (onLanding LazyList.failPage)

/-- The kind of the frame a response names. -/
def kindOf (app : App) (id : ℕ) : Option FrameKind :=
  (app.stack.find? (·.id == id)).map (·.kind)

def onPrefixPage (app : App) (id : ℕ) (resp : Except String ExpandPrefixResponse) : App :=
  match app.kindOf id, resp with
  | some (.keys pre list), .ok r =>
      app.settle.editFrame id fun _ => .keys pre (list.appendPage r.children r.nextCursor)
  | some (.keys pre list), .error e =>
      (app.settle.editFrame id fun _ => .keys pre list.failPage).say s!"expand_prefix failed: {e}"
  | _, _ => app.settle

def onVolumesPage (app : App) (id : ℕ) (resp : Except String ListVolumesResponse) : App :=
  match app.kindOf id, resp with
  | some (.volumes group list), .ok r =>
      app.settle.editFrame id fun _ => .volumes group (list.appendPage r.volumes r.nextCursor)
  | some (.volumes group list), .error e =>
      (app.settle.editFrame id fun _ => .volumes group list.failPage).say
        s!"list_volumes failed: {e}"
  | _, _ => app.settle

def onSearchPage (app : App) (id : ℕ) (resp : Except String SearchResponse) : App :=
  match app.kindOf id, resp with
  | some (.results kind pattern list), .ok r =>
      app.settle.editFrame id fun _ => .results kind pattern (list.appendPage r.hits r.nextCursor)
  | some (.results kind pattern list), .error e =>
      (app.settle.editFrame id fun _ => .results kind pattern list.failPage).say
        s!"search failed: {e}"
  | _, _ => app.settle

/-- A loaded entry leaves the shard cursor, a failed fetch the entry. -/
def onKeyLoaded (app : App) (id : ℕ) (resp : Except String KeyEntry) : App :=
  match app.kindOf id, resp with
  | some (.detail key _ _ peek shardCursor), .ok k =>
      app.settle.editFrame id fun _ => .detail key (some k) none peek shardCursor
  | some (.detail key entry _ peek shardCursor), .error e =>
      (app.settle.editFrame id fun _ => .detail key entry (some e) peek shardCursor).say
        s!"key failed: {e}"
  | _, _ => app.settle

def onPeekLoaded (app : App) (id : ℕ) (resp : Except String PeekResult) : App :=
  match app.kindOf id, resp with
  | some (.detail key entry error _ shardCursor), .ok p =>
      { app.settle.editFrame id fun _ => .detail key entry error (some p) shardCursor with
        status := none }
  | some (.detail ..), .error e => app.settle.say s!"peek failed: {e}"
  | _, _ => app.settle

end App

/-- The pure reducer. -/
def update (app : App) : Msg → App × List Cmd
  | .key k => app.onKey k
  | .resize => (app, [])
  | .refreshTick => (app, [.fetchSummary])
  | .summaryLoaded res => (app.onSummary res, [])
  | .prefixPage id resp => (app.onPrefixPage id resp, [])
  | .volumesPage id resp => (app.onVolumesPage id resp, [])
  | .keyLoaded id resp => (app.onKeyLoaded id resp, [])
  | .searchResults id resp => (app.onSearchPage id resp, [])
  | .peekLoaded id resp => (app.onPeekLoaded id resp, [])

end Toso.Tui
