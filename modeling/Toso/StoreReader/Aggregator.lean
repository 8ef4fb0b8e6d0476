/-
  Toso.StoreReader.Aggregator — the query server behind the terminal UI.

  One connection is one loop: a line is read, parsed, dispatched on its `op` and
  answered with one line.  A turn of the loop carries what its environment
  decides, what `json.loads` makes of the line and what the builder does with the
  request; the client keeps reading its answers.  An exception that no guard of
  the turn catches ends the loop, which closes the connection.

  An answer is a JSON value: `json.dumps` spells every one, on a single line.

  Main results:
    * `handleRequest_ok` — what a turn answers with, case by case.
    * `answered_iff` — every line is answered and the handler still reads, exactly
      when `json.loads` raises nothing but its decode error.
-/
import Toso.StoreReader.Json

namespace Toso.StoreReader.Aggregator

/-! ## §1. What a turn meets. -/

/-- What `json.loads` raises besides its decode error: on deep nesting, and on an
integer literal with too many digits. -/
inductive LoadError
  | recursionError
  | valueError
  deriving DecidableEq

/-- What `json.loads` does with a line. -/
inductive Loaded
  | value (v : Json)
  | jsonDecodeError (message : Text)
  | raised (e : LoadError)

/-- An exception of a builder: its `str(e)`, and the name of its type. -/
inductive Raised
  | keyError (message : Text)
  | other (type message : Text)
  deriving DecidableEq

/-- One line of the client, with what is decided while it is answered. -/
structure Turn where
  line : Text
  loaded : Loaded
  built : Except Raised Json

/-- The builders `_dispatch` routes to. -/
inductive Op
  | summary
  | expandPrefix
  | listVolumes
  | key
  | search
  | peek
  deriving DecidableEq

/-- The builder of an `op`. -/
def opOf (op : Json) : Option Op :=
  if op.isText (text "summary") then some .summary
  else if op.isText (text "expand_prefix") then some .expandPrefix
  else if op.isText (text "list_volumes") then some .listVolumes
  else if op.isText (text "key") then some .key
  else if op.isText (text "search") then some .search
  else if op.isText (text "peek") then some .peek
  else none

/-! ## §2. Answering one line. -/

/-- `{"error": message}`. -/
def errorLine (message : Text) : Json := .obj [(text "error", .str message)]

/-- `s.strip("'\"")`. -/
def stripQuotes (t : Text) : Text :=
  ((t.dropWhile isQuote).reverse.dropWhile isQuote).reverse
where
  isQuote (c : CodePoint) : Bool := c = codePoint '\'' || c = codePoint '"'

section

variable (U : Unicode) (repr : Json → Except Raised Text)

/-- `_dispatch`: an `op` without a builder has an answer of its own, unless its
`repr` raises. -/
def dispatch (req : Request) (built : Except Raised Json) : Except Raised Json :=
  match opOf (req.get "op") with
  | some _ => built
  | none => (repr (req.get "op")).map fun op => errorLine (text "unknown op: " ++ op)

/-- The answer of a dispatched request: any exception has an error line. -/
def guarded : Except Raised Json → Json
  | .ok response => response
  | .error (.keyError message) => errorLine (stripQuotes message)
  | .error (.other type message) => errorLine (type ++ text ": " ++ message)

/-- `_handle_request`; only the decode error of `json.loads` is caught around it. -/
def handleRequest (t : Turn) : Except LoadError Json :=
  match t.loaded with
  | .jsonDecodeError message => .ok (errorLine (text "invalid request json: " ++ message))
  | .raised e => .error e
  | .value (.obj req) => .ok (guarded (dispatch repr req t.built))
  | .value _ => .ok (errorLine (text "request must be a JSON object"))

/-- What a connection has answered, and whether its handler still reads. -/
structure Client where
  answers : List Json
  reading : Bool

/-- The loop of `_handle_client`: a blank line is skipped; an exception leaves the
loop, and the lines behind it unread. -/
def handleClient : List Turn → Client
  | [] => ⟨[], true⟩
  | t :: rest =>
      if strip U t.line = [] then handleClient rest
      else
        match handleRequest repr t with
        | .ok answer => ⟨answer :: (handleClient rest).answers, (handleClient rest).reading⟩
        | .error _ => ⟨[], false⟩

/-! ## §3. Every line answered. -/

/-- A line with something on it. -/
def Turn.asks (t : Turn) : Bool := strip U t.line ≠ []

/-- `json.loads` raised something it is not guarded against. -/
def Turn.escapes (t : Turn) : Prop := ∃ e, t.loaded = .raised e

/-- **What the aggregator promises of a connection**: every line that is not blank
is answered with one line, in order, and the handler still reads. -/
def Answered (turns : List Turn) : Prop :=
  List.Forall₂ (fun t answer => handleRequest repr t = .ok answer)
      (turns.filter (Turn.asks U)) (handleClient U repr turns).answers ∧
    (handleClient U repr turns).reading = true

/-- **Every guarded failure is answered**: a turn has an answer unless `json.loads`
escapes. -/
theorem handleRequest_ok {t : Turn} : (∃ answer, handleRequest repr t = .ok answer) ↔
    ¬ t.escapes := by
  unfold handleRequest Turn.escapes
  cases t.loaded with
  | jsonDecodeError message => simp
  | raised e => simp
  | value v => cases v <;> simp

theorem handleClient_blank {t : Turn} (h : t.asks U = false) (rest : List Turn) :
    handleClient U repr (t :: rest) = handleClient U repr rest := by
  have hblank : strip U t.line = [] := by simpa [Turn.asks] using h
  show (if strip U t.line = [] then _ else _) = _
  rw [if_pos hblank]

theorem handleClient_ok {t : Turn} (h : t.asks U = true) {answer : Json}
    (hok : handleRequest repr t = .ok answer) (rest : List Turn) :
    handleClient U repr (t :: rest)
      = ⟨answer :: (handleClient U repr rest).answers, (handleClient U repr rest).reading⟩ := by
  have hasks : strip U t.line ≠ [] := by simpa [Turn.asks] using h
  rw [handleClient, if_neg hasks, hok]

theorem handleClient_error {t : Turn} (h : t.asks U = true) {e : LoadError}
    (herr : handleRequest repr t = .error e) (rest : List Turn) :
    handleClient U repr (t :: rest) = ⟨[], false⟩ := by
  have hasks : strip U t.line ≠ [] := by simpa [Turn.asks] using h
  rw [handleClient, if_neg hasks, herr]

/-- **Exactly the guarded lines**: over every sequence of lines, whatever their
decoding and their builders do, each line that is not blank is answered once, in
order, and the handler still reads, if and only if `json.loads` raised nothing but
its decode error on them. -/
theorem answered_iff (turns : List Turn) :
    Answered U repr turns ↔ ∀ t ∈ turns, t.asks U = true → ¬ t.escapes := by
  induction turns with
  | nil => exact iff_of_true ⟨.nil, rfl⟩ fun _ h => nomatch h
  | cons t rest ih =>
      rw [List.forall_mem_cons, ← ih]
      unfold Answered
      cases hasks : t.asks U with
      | false =>
          rw [handleClient_blank U repr hasks, List.filter_cons_of_neg (by simp [hasks])]
          exact (and_iff_right (by simp)).symm
      | true =>
          rw [List.filter_cons_of_pos hasks]
          cases hhandled : handleRequest repr t with
          | ok answer =>
              rw [handleClient_ok U repr hasks hhandled, List.forall₂_cons, and_assoc]
              have hcaught := (handleRequest_ok repr).mp ⟨answer, hhandled⟩
              exact and_congr (iff_of_true hhandled fun _ => hcaught) Iff.rfl
          | error e =>
              rw [handleClient_error U repr hasks hhandled]
              refine iff_of_false (fun h => nomatch h.2) fun h => ?_
              obtain ⟨answer, hok⟩ := (handleRequest_ok repr).mpr (h.1 rfl)
              rw [hhandled] at hok
              cases hok

end

/-- Sixty thousand opening brackets: within a line's limit, and too deep for
`json.loads`. -/
def deepLine : Turn :=
  ⟨List.replicate 60000 (codePoint '['), .raised .recursionError, .ok .null⟩

/-- The connection is closed, and the line has no answer. -/
theorem deep_line_closes : ¬ Answered ascii (fun _ => .ok []) [deepLine] := by
  intro h
  have hspace : ∀ c ∈ deepLine.line, ascii.isSpace c = false := by
    intro c hc
    rw [List.eq_of_mem_replicate hc]
    decide
  have hasks : deepLine.asks ascii = true := by
    show decide (strip ascii deepLine.line ≠ []) = true
    rw [strip_eq_self ascii hspace]
    exact decide_eq_true (List.cons_ne_nil _ _)
  have hclosed := handleClient_error ascii (fun _ => .ok []) hasks rfl []
  have hreading := h.2
  rw [hclosed] at hreading
  cases hreading

end Toso.StoreReader.Aggregator
