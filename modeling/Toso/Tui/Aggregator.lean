/-
  Toso.Tui.Aggregator — one shared connection to the aggregator.

  Calls take turns at a mutex around one lazily opened connection.  A call writes
  its request line and reads one response line; where an attempt fails the
  connection is dropped and the call tries once more on a fresh one.

  A step is what happens between two awaits; the peer decides how each await ends.
  What is kept besides the code's state are each call's attempts and, for a
  connection, the calls whose request line the server has read and not answered.

  Main results:
    * `Sound` — the connection owes nothing when no call holds it, and nothing but
      the holder's own response else; every event keeps it.
    * `calls_lawful` — over every run where no read ends in the middle of a line
      that it takes for a response.
    * `cut_not_retried` — a peer that closes in the middle of a response line.
-/
import Toso.Lib.Machine
import Mathlib.Data.List.Basic
import Mathlib.Tactic.SplitIfs

namespace Toso.Tui.Aggregator

open Lib

/-! ## §1. What travels. -/

/-- What `serde_json` does for requests `ρ` and replies `α`: a request as a line, a
line as the reply type of a request, and the `error` text of a line that is a JSON
object with one. -/
structure Serde (ρ α : Type) where
  toText : ρ → Except String String
  fromText : ρ → String → Except String α
  errorText : String → Option String

def newline : UInt8 := 10

def utf8 (bytes : List UInt8) : Option String := String.fromUTF8? (ByteArray.mk bytes.toArray)

/-- What a read meets: a complete line, the end of the stream within a line or before
one, or an error. -/
inductive Delivery
  | whole (line : List UInt8)
  | cut (line part : List UInt8)
  | closed
  | broken (e : String)
  deriving DecidableEq, Repr

/-- An error with its contexts, the outermost first. -/
abbrev Failure := List String

/-- `read_line`: the number of bytes read and their text. -/
def readLine : Delivery → Except String (ℕ × String)
  | .whole line => decode (line ++ [newline])
  | .cut _ part => decode part
  | .closed => decode []
  | .broken e => .error e
where
  decode (bytes : List UInt8) : Except String (ℕ × String) :=
    match utf8 bytes with
    | some text => .ok (bytes.length, text)
    | none => .error "stream did not contain valid UTF-8"

/-- The end of `round_trip`. -/
def received (d : Delivery) : Except Failure String :=
  match readLine d with
  | .error e => .error ["reading response from aggregator", e]
  | .ok (n, text) => if n = 0 then .error ["aggregator closed the connection"] else .ok text

/-- `parse_response`. -/
def parseResponse {ρ α : Type} (serde : Serde ρ α) (request : ρ) (line : String) :
    Except Failure α :=
  match serde.fromText request line with
  | .ok v => .ok v
  | .error e =>
      match serde.errorText line with
      | some msg => .error [s!"aggregator returned error: {msg}"]
      | none => .error ["parsing aggregator response", e]

/-! ## §2. Calls. -/

/-- How an attempt ended.  With a response, or a part of one: whose it was, and the
line the server answered with. -/
inductive Ending
  | noConnection
  | notSent
  | lost
  | cut (owner : ℕ) (line : List UInt8)
  | answered (owner : ℕ) (line : List UInt8)
  deriving DecidableEq, Repr

/-- The complete response line arrived. -/
def Ending.complete : Ending → Bool
  | .answered .. => true
  | _ => false

/-- The response the attempt returned the text of. -/
def Ending.response : Ending → Option (ℕ × List UInt8)
  | .answered owner line => some (owner, line)
  | .cut owner line => some (owner, line)
  | _ => none

/-- One pass of the loop: the connection it used, whether it opened it itself. -/
structure Attempt where
  conn : Option ℕ
  opened : Bool
  ending : Ending
  deriving DecidableEq, Repr

/-- Where a call stands; the number is that of the loop's pass, `opened` whether
this pass connected. -/
inductive Phase (α : Type)
  | waiting
  | connecting (n : ℕ)
  | writing (n : ℕ) (opened : Bool)
  | flushing (n : ℕ) (opened : Bool)
  | reading (n : ℕ) (opened : Bool)
  | done (result : Except Failure α)

/-- A call of `request`. -/
structure Call (ρ α : Type) where
  request : ρ
  phase : Phase α
  history : List Attempt

/-- The attempt is on record. -/
def Call.log {ρ α : Type} (c : Call ρ α) (a : Attempt) : Call ρ α :=
  { c with history := c.history ++ [a] }

/-- An open connection; the server has read the requests of the calls in `owed`, in
order, and not answered them yet. -/
structure Conn where
  id : ℕ
  owed : List ℕ
  closed : Bool
  deriving DecidableEq, Repr

/-- The client with its calls: the holder of the mutex, the guarded connection, the
calls that gave the mutex back, newest first. -/
structure Client (ρ α : Type) where
  calls : List (Call ρ α)
  lock : Option ℕ
  conn : Option Conn
  nextConn : ℕ
  returned : List ℕ

/-- What happens next: a call is made, gets the mutex, an await of it ends; or the
peer closes the connection. -/
inductive Event (ρ : Type)
  | call (request : ρ)
  | acquire (i : ℕ)
  | connect (i : ℕ) (res : Except String Unit)
  | write (i : ℕ) (res : Except String Unit)
  | flush (i : ℕ) (res : Except String Unit)
  | read (i : ℕ) (d : Delivery)
  | hangup

/-- What the peer can deliver: a response line only to a request it has read, on a
connection it has not closed. -/
def Delivery.Possible (c : Conn) : Delivery → Prop
  | .whole line => c.closed = false ∧ c.owed ≠ [] ∧ newline ∉ line
  | .cut line part => c.closed = false ∧ c.owed ≠ [] ∧ newline ∉ line ∧ part <+: line
  | _ => True

instance (c : Conn) (d : Delivery) : Decidable (d.Possible c) := by
  unfold Delivery.Possible
  split <;> infer_instance

/-- The complete request line reached the server, if it still reads. -/
def Conn.hear (c : Conn) (i : ℕ) : Conn :=
  if c.closed then c else { c with owed := c.owed ++ [i] }

/-- The response to the oldest request is gone from the stream; after a cut the
stream has ended. -/
def Conn.after (c : Conn) : Delivery → Conn
  | .whole _ => { c with owed := c.owed.tail }
  | _ => { c with owed := [], closed := true }

/-- What a read that returned a text leaves on record. -/
def Conn.ending (c : Conn) : Delivery → Ending
  | .whole line => .answered (c.owed.headD 0) line
  | .cut line _ => .cut (c.owed.headD 0) line
  | _ => .lost

namespace Client

variable {ρ α : Type}

def put (s : Client ρ α) (i : ℕ) (c : Call ρ α) : Client ρ α := { s with calls := s.calls.set i c }

/-- The top of the loop: connect if there is no connection. -/
def top (s : Client ρ α) (n : ℕ) : Phase α :=
  match s.conn with
  | none => .connecting n
  | some _ => .writing n false

/-- Return, and give the mutex back. -/
def finish (s : Client ρ α) (i : ℕ) (c : Call ρ α) (result : Except Failure α) : Client ρ α :=
  { s.put i { c with phase := .done result } with lock := none, returned := i :: s.returned }

/-- An attempt failed: the next pass of the loop, or the last error. -/
def retry (s : Client ρ α) (i : ℕ) (c : Call ρ α) (n : ℕ) (e : Failure) : Client ρ α :=
  if n + 1 < 2 then s.put i { c with phase := s.top (n + 1) }
  else s.finish i c (.error ("aggregator request failed after reconnect" :: e))

/-- What an await of a call leaves; `addr` is the endpoint's address. -/
def next (serde : Serde ρ α) (addr : String) (s : Client ρ α) : Event ρ → Option (Client ρ α)
  | .call request =>
      match serde.toText request with
      | .error e => some { s with calls := s.calls ++
          [⟨request, .done (.error ["serializing aggregator request", e]), []⟩] }
      | .ok _ => some { s with calls := s.calls ++ [⟨request, .waiting, []⟩] }
  | .acquire i =>
      match s.lock, s.calls[i]? with
      | none, some c =>
          match c.phase with
          | .waiting => some ({ s with lock := some i }.put i { c with phase := s.top 0 })
          | _ => none
      | _, _ => none
  | .connect i res =>
      s.calls[i]?.bind fun c =>
        match c.phase, res with
        | .connecting n, .ok _ =>
            some ({ s with conn := some ⟨s.nextConn, [], false⟩, nextConn := s.nextConn + 1 }.put i
              { c with phase := .writing n true })
        | .connecting n, .error e =>
            some (s.retry i (c.log ⟨none, true, .noConnection⟩) n
              [s!"connecting to aggregator at {addr}", e])
        | _, _ => none
  | .write i res =>
      s.calls[i]?.bind fun c => s.conn.bind fun conn =>
        match c.phase, res with
        | .writing n opened, .ok _ =>
            some ({ s with conn := some (conn.hear i) }.put i { c with phase := .flushing n opened })
        | .writing n opened, .error e =>
            some ({ s with conn := none }.retry i (c.log ⟨some conn.id, opened, .notSent⟩) n
              ["writing request to aggregator", e])
        | _, _ => none
  | .flush i res =>
      s.calls[i]?.bind fun c => s.conn.bind fun conn =>
        match c.phase, res with
        | .flushing n opened, .ok _ => some (s.put i { c with phase := .reading n opened })
        | .flushing n opened, .error e =>
            some ({ s with conn := none }.retry i (c.log ⟨some conn.id, opened, .notSent⟩) n
              ["flushing request to aggregator", e])
        | _, _ => none
  | .read i d =>
      s.calls[i]?.bind fun c => s.conn.bind fun conn =>
        match c.phase with
        | .reading n opened =>
            if d.Possible conn then
              match received d with
              | .ok text =>
                  some ({ s with conn := some (conn.after d) }.finish i
                    (c.log ⟨some conn.id, opened, conn.ending d⟩)
                    (parseResponse serde c.request text))
              | .error e =>
                  some ({ s with conn := none }.retry i (c.log ⟨some conn.id, opened, .lost⟩) n e)
            else none
        | _ => none
  | .hangup => s.conn.map fun conn => { s with conn := some { conn with closed := true } }

/-- `AggregatorClient::new`. -/
def new : Client ρ α := ⟨[], none, none, 0, []⟩

/-- Every interleaving of calls on one client, none abandoned. -/
def machine (serde : Serde ρ α) (addr : String) : Machine (Client ρ α) (Event ρ) :=
  .ofPartial (· = new) (next serde addr)

end Client

/-! ## §3. What is promised, and when. -/

section

variable {ρ α : Type} (serde : Serde ρ α)

/-- What a response decodes to for the call. -/
def Call.reply (c : Call ρ α) (bytes : List UInt8) : Option α :=
  (utf8 bytes).bind fun text => (parseResponse serde c.request text).toOption

/-- The attempts a call has begun. -/
def Call.begun (c : Call ρ α) : ℕ :=
  match c.phase with
  | .waiting => c.history.length
  | .done _ => c.history.length
  | _ => c.history.length + 1

/-- **What a call is promised**, `i` being its place: two attempts at most; a second
one on a fresh connection; a reply only as the decoding of the response to its own
request; an end only with a complete response line, or with two failures in a row (or
before any attempt, where the request is no text). -/
structure Call.Lawful (i : ℕ) (c : Call ρ α) : Prop where
  attempts : c.begun ≤ 2
  fresh : ∀ a ∈ c.history[1]?, a.opened = true
  own : ∀ v, c.phase = .done (.ok v) → ∃ a line, c.history.getLast? = some a ∧
    a.ending.response = some (i, line) ∧ c.reply serde (line ++ [newline]) = some v
  retried : ∀ r, c.phase = .done r →
    (∃ a, c.history.getLast? = some a ∧ a.ending.complete = true) ∨
    c.history.length = 2 ∧ (∀ a ∈ c.history, a.ending.complete = false) ∨
    c.history = [] ∧ ∃ e, serde.toText c.request = .error e

/-- The client keeps its promises; and after a complete response line, whatever it
said, the connection is there for the next call and owes nothing. -/
structure Client.Lawful (s : Client ρ α) : Prop where
  calls : ∀ i (c : Call ρ α), s.calls[i]? = some c → c.Lawful serde i
  kept : ∀ i (c : Call ρ α) a, s.lock = none → s.returned.head? = some i → s.calls[i]? = some c →
    c.history.getLast? = some a → a.ending.complete = true →
    ∃ conn, s.conn = some conn ∧ a.conn = some conn.id ∧ conn.owed = []

/-- **The condition on a step.**  No read meets the end of the stream after a part of
a line that is text; except in a second attempt, where the part decodes to nothing or
to what the whole line does. -/
def Client.Unbroken [DecidableEq α] (s : Client ρ α) : Event ρ → Prop
  | .read i (.cut line part) => ∀ c ∈ s.calls[i]?, part = [] ∨ utf8 part = none ∨
      c.history.length = 1 ∧
        (c.reply serde part = none ∨ c.reply serde part = c.reply serde (line ++ [newline]))
  | _ => True

instance [DecidableEq α] (s : Client ρ α) (e : Event ρ) : Decidable (s.Unbroken serde e) := by
  unfold Client.Unbroken
  split <;> infer_instance

end

/-! ## §4. The invariant. -/

/-- The call holds the mutex. -/
def Phase.running {α : Type} : Phase α → Bool
  | .waiting => false
  | .done _ => false
  | _ => true

/-- The call is in its pass `n`, and every pass before it failed. -/
structure Call.Trying {ρ α : Type} (c : Call ρ α) (n : ℕ) : Prop where
  passes : c.history.length = n
  two : n < 2
  failed : ∀ a ∈ c.history, a.ending.complete = false

/-- What a call's phase says of its attempts. -/
def Call.Sound {ρ α : Type} (serde : Serde ρ α) (i : ℕ) (c : Call ρ α) : Prop :=
  match c.phase with
  | .waiting => c.history = []
  | .connecting n => c.Trying n
  | .writing n opened => c.Trying n ∧ (n = 1 → opened = true)
  | .flushing n opened => c.Trying n ∧ (n = 1 → opened = true)
  | .reading n opened => c.Trying n ∧ (n = 1 → opened = true)
  | .done _ => c.Lawful serde i

/-- What the holder's phase says of the connection: nothing is owed before it has
written, and nothing but its own response after. -/
def Stream {α : Type} (i : ℕ) : Phase α → Option Conn → Prop
  | .connecting _, conn => conn = none
  | .writing .., conn => ∃ k, conn = some k ∧ k.owed = []
  | .flushing .., conn => ∃ k, conn = some k ∧ (k.owed = [] ∨ k.owed = [i])
  | .reading .., conn => ∃ k, conn = some k ∧ (k.owed = [] ∨ k.owed = [i])
  | _, _ => False

namespace Client

variable {ρ α : Type} {serde : Serde ρ α} {addr : String} {s t : Client ρ α}

/-- **The invariant.** -/
structure Sound (serde : Serde ρ α) (s : Client ρ α) : Prop where
  calls : ∀ i (c : Call ρ α), s.calls[i]? = some c → c.Sound serde i
  free : s.lock = none → ∀ k ∈ s.conn, k.owed = []
  held : ∀ i (c : Call ρ α), s.calls[i]? = some c → c.phase.running = true → s.lock = some i
  holds : ∀ i, s.lock = some i → ∃ c : Call ρ α, s.calls[i]? = some c ∧ Stream i c.phase s.conn
  kept : ∀ i (c : Call ρ α) a, s.lock = none → s.returned.head? = some i →
    s.calls[i]? = some c → c.history.getLast? = some a → a.ending.complete = true →
    ∃ conn, s.conn = some conn ∧ a.conn = some conn.id ∧ conn.owed = []

/-- A call replaced at its place. -/
theorem getElem?_set {calls : List (Call ρ α)} {i j : ℕ} {c c' d : Call ρ α}
    (hc : calls[i]? = some c) (hd : (calls.set i c')[j]? = some d) :
    j = i ∧ d = c' ∨ j ≠ i ∧ calls[j]? = some d := by
  obtain ⟨hlt, -⟩ := List.getElem?_eq_some_iff.1 hc
  by_cases hij : i = j
  · subst hij
    rw [List.getElem?_set_self hlt] at hd
    exact Or.inl ⟨rfl, (Option.some.inj hd).symm⟩
  · rw [List.getElem?_set_ne hij] at hd
    exact Or.inr ⟨fun h => hij h.symm, hd⟩

namespace Sound

variable {i : ℕ} {c c' : Call ρ α}

/-- The holder goes on, or a call becomes it. -/
theorem hold (h : s.Sound serde) (hc : s.calls[i]? = some c)
    (hlock : s.lock = some i ∨ s.lock = none) (hcalls : t.calls = s.calls.set i c')
    (hlock' : t.lock = some i) (hsound : c'.Sound serde i)
    (hstream : Stream i c'.phase t.conn) : t.Sound serde where
  calls := by
    intro j d hd
    rw [hcalls] at hd
    rcases getElem?_set hc hd with ⟨rfl, rfl⟩ | ⟨-, hd⟩
    · exact hsound
    · exact h.calls j d hd
  free := by
    intro hnone
    rw [hlock'] at hnone
    cases hnone
  held := by
    intro j d hd hrun
    rw [hcalls] at hd
    rcases getElem?_set hc hd with ⟨rfl, -⟩ | ⟨hne, hd⟩
    · exact hlock'
    · have hother := h.held j d hd hrun
      rcases hlock with hmine | hfree
      · rw [hmine] at hother
        exact absurd (Option.some.inj hother).symm hne
      · rw [hfree] at hother
        cases hother
  holds := by
    intro j hj
    rw [hlock'] at hj
    cases hj
    refine ⟨c', ?_, hstream⟩
    rw [hcalls, List.getElem?_set_self (List.getElem?_eq_some_iff.1 hc).1]
  kept := by
    intro j d a hnone
    rw [hlock'] at hnone
    cases hnone

/-- The holder returns. -/
theorem release (h : s.Sound serde) (hc : s.calls[i]? = some c) (hlock : s.lock = some i)
    (hcalls : t.calls = s.calls.set i c') (hlock' : t.lock = none)
    (hreturned : t.returned.head? = some i) (hsound : c'.Sound serde i)
    (hdone : c'.phase.running = false) (hfree : ∀ k ∈ t.conn, k.owed = [])
    (hkept : ∀ a, c'.history.getLast? = some a → a.ending.complete = true →
      ∃ conn, t.conn = some conn ∧ a.conn = some conn.id ∧ conn.owed = []) :
    t.Sound serde where
  calls := by
    intro j d hd
    rw [hcalls] at hd
    rcases getElem?_set hc hd with ⟨rfl, rfl⟩ | ⟨-, hd⟩
    · exact hsound
    · exact h.calls j d hd
  free := fun _ => hfree
  held := by
    intro j d hd hrun
    rw [hcalls] at hd
    rcases getElem?_set hc hd with ⟨rfl, rfl⟩ | ⟨hne, hd⟩
    · rw [hdone] at hrun
      cases hrun
    · have hother := h.held j d hd hrun
      rw [hlock] at hother
      exact absurd (Option.some.inj hother).symm hne
  holds := by
    intro j hj
    rw [hlock'] at hj
    cases hj
  kept := by
    intro j d a _ hj hd
    rw [hreturned] at hj
    cases hj
    rw [hcalls, List.getElem?_set_self (List.getElem?_eq_some_iff.1 hc).1] at hd
    cases hd
    exact hkept a

/-- The holder, and the stream it holds. -/
theorem stream (h : s.Sound serde) (hc : s.calls[i]? = some c) (hrun : c.phase.running = true) :
    s.lock = some i ∧ Stream i c.phase s.conn := by
  have hlock := h.held i c hc hrun
  obtain ⟨d, hd, hstream⟩ := h.holds i hlock
  rw [hc] at hd
  cases hd
  exact ⟨hlock, hstream⟩

end Sound

end Client

/-- A failed pass goes on record. -/
theorem Call.Trying.log {ρ α : Type} {c : Call ρ α} {n : ℕ} (h : c.Trying n) {a : Attempt}
    (ha : a.ending.complete = false) (hn : n + 1 < 2) : (c.log a).Trying (n + 1) where
  passes := by
    show (c.history ++ [a]).length = _
    rw [List.length_append, h.passes]
    rfl
  two := hn
  failed := by
    intro b hb
    rcases List.mem_append.1 hb with hold | hnew
    · exact h.failed b hold
    · rw [List.mem_singleton.1 hnew]
      exact ha

theorem Call.Trying.phase {ρ α : Type} {c : Call ρ α} {n : ℕ} (h : c.Trying n) (p : Phase α) :
    Call.Trying { c with phase := p } n := ⟨h.passes, h.two, h.failed⟩

theorem Call.Trying.log_length {ρ α : Type} {c : Call ρ α} {n : ℕ} (h : c.Trying n) (a : Attempt) :
    (c.log a).history.length = n + 1 := by
  show (c.history ++ [a]).length = _
  rw [List.length_append, h.passes]
  rfl

/-- The record of a second attempt is the last. -/
theorem Call.Trying.fresh {ρ α : Type} {c : Call ρ α} {n : ℕ} (h : c.Trying n) {a : Attempt}
    (hopened : n = 1 → a.opened = true) : ∀ b ∈ (c.log a).history[1]?, b.opened = true := by
  intro b hb
  have hb' : (c.history ++ [a])[1]? = some b := hb
  have hone : n = 1 := by
    have hlen := (List.getElem?_eq_some_iff.1 hb).1
    have htwo := h.two
    rw [h.log_length] at hlen
    omega
  rw [List.getElem?_append_right (Nat.le_of_eq (h.passes.trans hone)), h.passes, hone] at hb'
  cases hb'
  exact hopened hone

namespace Client.Sound

variable {ρ α : Type} {serde : Serde ρ α} {addr : String} {s t : Client ρ α} {i n : ℕ}
  {c : Call ρ α}

/-- **A call returns**: with a complete response line, or after its second attempt. -/
theorem returns (h : s.Sound serde) (hc : s.calls[i]? = some c) (hlock : s.lock = some i)
    (htrying : c.Trying n) (a : Attempt) (hopened : n = 1 → a.opened = true)
    (hcalls : t.calls = s.calls) (hfree : ∀ k ∈ t.conn, k.owed = [])
    (hkept : a.ending.complete = true → ∃ k, t.conn = some k ∧ a.conn = some k.id)
    {r : Except Failure α} (hown : ∀ v, r = .ok v → ∃ line,
      a.ending.response = some (i, line) ∧ c.reply serde (line ++ [newline]) = some v)
    (hend : a.ending.complete = true ∨ n = 1) : (t.finish i (c.log a) r).Sound serde := by
  have hlast : (c.log a).history.getLast? = some a := List.getLast?_concat
  have hretried : a.ending.complete = true ∨ (c.log a).history.length = 2 ∧
      ∀ b ∈ (c.log a).history, b.ending.complete = false := by
    cases hcomplete : a.ending.complete with
    | true => exact Or.inl rfl
    | false =>
        refine Or.inr ⟨?_, fun b hb => ?_⟩
        · rw [htrying.log_length, hend.resolve_left (by simp [hcomplete])]
        · rcases List.mem_append.1 hb with hold | hnew
          · exact htrying.failed b hold
          · rw [List.mem_singleton.1 hnew]
            exact hcomplete
  have hsound : Call.Sound serde i { c.log a with phase := .done r } := by
    show Call.Lawful serde i _
    refine ⟨?_, htrying.fresh hopened, fun v hv => ?_, fun _ _ => ?_⟩
    · show (c.log a).history.length ≤ 2
      rw [htrying.log_length]
      exact htrying.two
    · obtain ⟨line, hresponse, hreply⟩ := hown v (Phase.done.inj hv)
      exact ⟨a, line, hlast, hresponse, hreply⟩
    · rcases hretried with hcomplete | htwice
      · exact Or.inl ⟨a, hlast, hcomplete⟩
      · exact Or.inr (Or.inl htwice)
  refine h.release hc hlock ?_ rfl rfl hsound rfl hfree fun b hb hcomplete => ?_
  · show t.calls.set i _ = _
    rw [hcalls]
  · have hb' : (c.log a).history.getLast? = some b := hb
    rw [hlast] at hb'
    cases hb'
    obtain ⟨k, hk, hid⟩ := hkept hcomplete
    exact ⟨k, hk, hid, hfree k hk⟩

/-- **An attempt failed**: the call tries again, or has failed twice. -/
theorem retry (h : s.Sound serde) (hc : s.calls[i]? = some c) (hlock : s.lock = some i)
    (htrying : c.Trying n) {a : Attempt} (ha : a.ending.complete = false)
    (hopened : n = 1 → a.opened = true) (hcalls : t.calls = s.calls) (hlock' : t.lock = some i)
    (hconn : t.conn = none) (e : Failure) : (t.retry i (c.log a) n e).Sound serde := by
  unfold Client.retry
  split
  case isTrue hn =>
    have htop : (t.top (n + 1) : Phase α) = .connecting (n + 1) := by
      unfold Client.top
      rw [hconn]
    rw [htop]
    have hsound : Call.Sound serde i { c.log a with phase := .connecting (n + 1) } :=
      (htrying.log ha hn).phase _
    refine h.hold hc (Or.inl hlock) ?_ hlock' hsound hconn
    show t.calls.set i _ = _
    rw [hcalls]
  case isFalse hn =>
    have hone : n = 1 := by
      have htwo := htrying.two
      omega
    refine h.returns hc hlock htrying a hopened hcalls (fun k hk => ?_) (fun hcomplete => ?_)
      (fun v hv => nomatch hv) (Or.inr hone)
    · rw [hconn] at hk
      cases hk
    · rw [ha] at hcomplete
      cases hcomplete

end Client.Sound

/-! ## §5. A read. -/

theorem utf8_nil : utf8 [] = some "" := by decide

/-- Of nothing read no text is returned. -/
theorem received_nil {d : Delivery} (h : readLine d = readLine.decode []) (text : String) :
    received d ≠ .ok text := by
  unfold received
  rw [h]
  unfold readLine.decode
  rw [utf8_nil]
  exact fun hok => nomatch hok

/-- A read that returns a text has met a line, or a part of one that is text. -/
theorem received_ok {d : Delivery} {text : String} (h : received d = .ok text) :
    (∃ line, d = .whole line ∧ utf8 (line ++ [newline]) = some text) ∨
      ∃ line part, d = .cut line part ∧ part ≠ [] ∧ utf8 part = some text := by
  have hdecode : ∀ bytes, readLine d = readLine.decode bytes → utf8 bytes = some text := by
    intro bytes hd
    unfold received at h
    rw [hd] at h
    unfold readLine.decode at h
    cases hutf : utf8 bytes with
    | none =>
        rw [hutf] at h
        cases h
    | some w =>
        rw [hutf] at h
        dsimp only at h
        split at h
        case isTrue => cases h
        case isFalse =>
          cases h
          rfl
  cases d with
  | whole line => exact Or.inl ⟨line, rfl, hdecode _ rfl⟩
  | cut line part =>
      refine Or.inr ⟨line, part, rfl, fun hnil => ?_, hdecode _ rfl⟩
      subst hnil
      exact received_nil rfl text h
  | closed => exact absurd h (received_nil rfl text)
  | broken e => cases h

/-- A reply is a decoding. -/
theorem Call.reply_eq_some {ρ α : Type} {serde : Serde ρ α} {c : Call ρ α} {bytes : List UInt8}
    {text : String} {v : α} (hutf : utf8 bytes = some text)
    (hparse : parseResponse serde c.request text = .ok v) : c.reply serde bytes = some v := by
  unfold Call.reply
  rw [hutf]
  show (parseResponse serde c.request text).toOption = some v
  rw [hparse]
  rfl

namespace Client.Sound

variable {ρ α : Type} {serde : Serde ρ α} {addr : String} {s t : Client ρ α} {i n : ℕ}
  {c : Call ρ α} {conn : Conn} {opened : Bool}

/-- A complete response line arrives. -/
theorem answered (h : s.Sound serde) (hc : s.calls[i]? = some c) (hlock : s.lock = some i)
    (htrying : c.Trying n) (hopened : n = 1 → opened = true) (howed : conn.owed = [i])
    {line : List UInt8} {text : String} (hutf : utf8 (line ++ [newline]) = some text) :
    ({ s with conn := some (conn.after (.whole line)) }.finish i
      (c.log ⟨some conn.id, opened, conn.ending (.whole line)⟩)
      (parseResponse serde c.request text)).Sound serde := by
  have hending : conn.ending (.whole line) = .answered i line := by
    unfold Conn.ending
    rw [howed]
    rfl
  rw [hending]
  refine h.returns (t := { s with conn := some (conn.after (.whole line)) }) hc hlock htrying
    ⟨some conn.id, opened, .answered i line⟩ hopened rfl (fun k hk => ?_) (fun _ => ⟨_, rfl, rfl⟩)
    (fun v hv => ⟨line, rfl, Call.reply_eq_some hutf hv⟩) (Or.inl rfl)
  cases hk
  show conn.owed.tail = []
  rw [howed]
  rfl

/-- A second attempt is cut short, where the part says nothing else than the line. -/
theorem cutShort (h : s.Sound serde) (hc : s.calls[i]? = some c) (hlock : s.lock = some i)
    (htrying : c.Trying 1) (hopened : opened = true) (howed : conn.owed = [i])
    {line part : List UInt8} {text : String} (hutf : utf8 part = some text)
    (hreply : c.reply serde part = none ∨
      c.reply serde part = c.reply serde (line ++ [newline])) :
    ({ s with conn := some (conn.after (.cut line part)) }.finish i
      (c.log ⟨some conn.id, opened, conn.ending (.cut line part)⟩)
      (parseResponse serde c.request text)).Sound serde := by
  have hending : conn.ending (.cut line part) = .cut i line := by
    unfold Conn.ending
    rw [howed]
    rfl
  rw [hending]
  refine h.returns (t := { s with conn := some (conn.after (.cut line part)) }) hc hlock htrying
    ⟨some conn.id, opened, .cut i line⟩ (fun _ => hopened) rfl (fun k hk => ?_)
    (fun hcomplete => nomatch hcomplete) (fun v hv => ⟨line, rfl, ?_⟩) (Or.inr rfl)
  · cases hk
    rfl
  · have hpart := Call.reply_eq_some hutf hv
    rcases hreply with hnone | hsame
    · rw [hnone] at hpart
      cases hpart
    · rw [← hsame]
      exact hpart

/-! ## §6. Every event. -/

/-- The passes of a running call. -/
theorem trying (h : s.Sound serde) (hc : s.calls[i]? = some c) :
    (∀ n, c.phase = .connecting n → c.Trying n) ∧
    ∀ n opened, c.phase = .writing n opened ∨ c.phase = .flushing n opened ∨
      c.phase = .reading n opened → c.Trying n ∧ (n = 1 → opened = true) := by
  have hsound := h.calls i c hc
  unfold Call.Sound at hsound
  refine ⟨fun n hphase => ?_, fun n opened hphase => ?_⟩
  · rw [hphase] at hsound
    exact hsound
  · rcases hphase with hphase | hphase | hphase
    · rw [hphase] at hsound
      exact hsound
    · rw [hphase] at hsound
      exact hsound
    · rw [hphase] at hsound
      exact hsound

/-- A call is made. -/
theorem made (h : s.Sound serde) {d : Call ρ α} (hd : d.Sound serde s.calls.length)
    (hidle : d.phase.running = false) (hnone : d.history = []) :
    Client.Sound serde { s with calls := s.calls ++ [d] } := by
  have hcases : ∀ (j : ℕ) (x : Call ρ α), (s.calls ++ [d])[j]? = some x →
      s.calls[j]? = some x ∨ j = s.calls.length ∧ x = d := by
    intro j x hx
    rcases Nat.lt_or_ge j s.calls.length with hlt | hge
    · rw [List.getElem?_append_left hlt] at hx
      exact Or.inl hx
    · rw [List.getElem?_append_right hge] at hx
      have hzero := (List.getElem?_eq_some_iff.1 hx).1
      have hj : j = s.calls.length := by
        rw [List.length_singleton] at hzero
        omega
      rw [hj, Nat.sub_self] at hx
      exact Or.inr ⟨hj, (Option.some.inj hx).symm⟩
  refine ⟨fun j x hx => ?_, h.free, fun j x hx hrun => ?_, fun j hj => ?_, fun j x a hlock hj hx => ?_⟩
  · rcases hcases j x hx with hold | ⟨rfl, rfl⟩
    · exact h.calls j x hold
    · exact hd
  · rcases hcases j x hx with hold | ⟨-, rfl⟩
    · exact h.held j x hold hrun
    · rw [hidle] at hrun
      cases hrun
  · obtain ⟨x, hx, hstream⟩ := h.holds j hj
    refine ⟨x, ?_, hstream⟩
    show (s.calls ++ [d])[j]? = _
    rw [List.getElem?_append_left (List.getElem?_eq_some_iff.1 hx).1]
    exact hx
  · rcases hcases j x hx with hold | ⟨-, rfl⟩
    · exact h.kept j x a hlock hj hold
    · intro hlast
      rw [hnone] at hlast
      cases hlast

/-- The peer closes the connection. -/
theorem hangup (h : s.Sound serde) (hconn : s.conn = some conn) :
    Client.Sound serde { s with conn := some { conn with closed := true } } := by
  have hstream : ∀ j (p : Phase α), Stream j p s.conn →
      Stream j p (some { conn with closed := true }) := by
    intro j p hp
    rw [hconn] at hp
    cases p with
    | writing | flushing | reading =>
        obtain ⟨k, hk, howed⟩ := hp
        cases hk
        exact ⟨_, rfl, howed⟩
    | connecting => cases hp
    | waiting | done => exact hp
  refine ⟨h.calls, fun hlock k hk => ?_, h.held, fun j hj => ?_, fun j x a hlock hj hx hlast hcomplete => ?_⟩
  · cases hk
    exact h.free hlock conn hconn
  · obtain ⟨x, hx, hp⟩ := h.holds j hj
    exact ⟨x, hx, hstream j _ hp⟩
  · obtain ⟨k, hk, hid, howed⟩ := h.kept j x a hlock hj hx hlast hcomplete
    rw [hconn] at hk
    cases hk
    exact ⟨_, rfl, hid, howed⟩

/-- A waiting call gets the mutex. -/
theorem acquired (h : s.Sound serde) (hlock : s.lock = none) (hc : s.calls[i]? = some c)
    (hphase : c.phase = .waiting) :
    ({ s with lock := some i }.put i { c with phase := s.top 0 }).Sound serde := by
  have hnone : c.history = [] := by
    have hsound := h.calls i c hc
    unfold Call.Sound at hsound
    rw [hphase] at hsound
    exact hsound
  have htrying : c.Trying 0 := by
    refine ⟨by rw [hnone]; rfl, Nat.two_pos, fun a ha => ?_⟩
    rw [hnone] at ha
    cases ha
  have htop : s.conn = none ∧ s.top 0 = (.connecting 0 : Phase α) ∨
      ∃ k, s.conn = some k ∧ s.top 0 = (.writing 0 false : Phase α) := by
    unfold Client.top
    cases s.conn with
    | none => exact Or.inl ⟨rfl, rfl⟩
    | some k => exact Or.inr ⟨k, rfl, rfl⟩
  rcases htop with ⟨hconn, htop⟩ | ⟨k, hconn, htop⟩
  · rw [htop]
    have hsound : Call.Sound serde i { c with phase := .connecting 0 } := htrying.phase _
    exact h.hold hc (Or.inr hlock) rfl rfl hsound hconn
  · rw [htop]
    have hsound : Call.Sound serde i { c with phase := .writing 0 false } :=
      ⟨htrying.phase _, fun hone => nomatch hone⟩
    exact h.hold hc (Or.inr hlock) rfl rfl hsound ⟨k, hconn, h.free hlock k hconn⟩

/-- A connect ends. -/
theorem connects (h : s.Sound serde) {res : Except String Unit}
    (ht : s.next serde addr (.connect i res) = some t) : t.Sound serde := by
  obtain ⟨c, hc, ht⟩ := Option.bind_eq_some_iff.1 ht
  split at ht
  case h_1 n _ hphase _ =>
    obtain ⟨hlock, -⟩ := h.stream hc (by rw [hphase]; rfl)
    cases ht
    have hsound : Call.Sound serde i { c with phase := .writing n true } :=
      ⟨((h.trying hc).1 n hphase).phase _, fun _ => rfl⟩
    exact h.hold hc (Or.inl hlock) rfl hlock hsound ⟨_, rfl, rfl⟩
  case h_2 n _ hphase _ =>
    obtain ⟨hlock, hstream⟩ := h.stream hc (by rw [hphase]; rfl)
    cases ht
    rw [hphase] at hstream
    exact h.retry hc hlock ((h.trying hc).1 n hphase) rfl (fun _ => rfl) rfl hlock hstream _
  case h_3 => cases ht

/-- A write ends. -/
theorem writes (h : s.Sound serde) {res : Except String Unit}
    (ht : s.next serde addr (.write i res) = some t) : t.Sound serde := by
  obtain ⟨c, hc, ht⟩ := Option.bind_eq_some_iff.1 ht
  obtain ⟨conn, hconn, ht⟩ := Option.bind_eq_some_iff.1 ht
  split at ht
  case h_1 n opened _ hphase _ _ =>
    obtain ⟨hlock, hstream⟩ := h.stream hc (by rw [hphase]; rfl)
    obtain ⟨htrying, hopened⟩ := (h.trying hc).2 n opened (Or.inl hphase)
    cases ht
    rw [hphase] at hstream
    obtain ⟨k, hk, howed⟩ := hstream
    rw [hconn] at hk
    cases hk
    have hsound : Call.Sound serde i { c with phase := .flushing n opened } :=
      ⟨htrying.phase _, hopened⟩
    refine h.hold hc (Or.inl hlock) rfl hlock hsound ⟨_, rfl, ?_⟩
    unfold Conn.hear
    split
    case isTrue => exact Or.inl howed
    case isFalse =>
      right
      show conn.owed ++ [i] = [i]
      rw [howed]
      rfl
  case h_2 n opened _ hphase _ _ =>
    obtain ⟨hlock, -⟩ := h.stream hc (by rw [hphase]; rfl)
    obtain ⟨htrying, hopened⟩ := (h.trying hc).2 n opened (Or.inl hphase)
    cases ht
    exact h.retry (t := { s with conn := none }) hc hlock htrying rfl hopened rfl hlock rfl _
  case h_3 => cases ht

/-- A flush ends. -/
theorem flushes (h : s.Sound serde) {res : Except String Unit}
    (ht : s.next serde addr (.flush i res) = some t) : t.Sound serde := by
  obtain ⟨c, hc, ht⟩ := Option.bind_eq_some_iff.1 ht
  obtain ⟨conn, hconn, ht⟩ := Option.bind_eq_some_iff.1 ht
  split at ht
  case h_1 n opened _ hphase _ _ =>
    obtain ⟨hlock, hstream⟩ := h.stream hc (by rw [hphase]; rfl)
    obtain ⟨htrying, hopened⟩ := (h.trying hc).2 n opened (Or.inr (Or.inl hphase))
    cases ht
    rw [hphase] at hstream
    have hsound : Call.Sound serde i { c with phase := .reading n opened } :=
      ⟨htrying.phase _, hopened⟩
    exact h.hold hc (Or.inl hlock) rfl hlock hsound hstream
  case h_2 n opened _ hphase _ _ =>
    obtain ⟨hlock, -⟩ := h.stream hc (by rw [hphase]; rfl)
    obtain ⟨htrying, hopened⟩ := (h.trying hc).2 n opened (Or.inr (Or.inl hphase))
    cases ht
    exact h.retry (t := { s with conn := none }) hc hlock htrying rfl hopened rfl hlock rfl _
  case h_3 => cases ht

/-- A read ends, where the condition is met. -/
theorem reads [DecidableEq α] (h : s.Sound serde) {d : Delivery}
    (hok : s.Unbroken serde (.read i d)) (ht : s.next serde addr (.read i d) = some t) :
    t.Sound serde := by
  obtain ⟨c, hc, ht⟩ := Option.bind_eq_some_iff.1 ht
  obtain ⟨conn, hconn, ht⟩ := Option.bind_eq_some_iff.1 ht
  split at ht
  case h_2 => cases ht
  case h_1 n opened hphase =>
    obtain ⟨hlock, hstream⟩ := h.stream hc (by rw [hphase]; rfl)
    obtain ⟨htrying, hopened⟩ := (h.trying hc).2 n opened (Or.inr (Or.inr hphase))
    rw [hphase] at hstream
    obtain ⟨k, hk, howed⟩ := hstream
    rw [hconn] at hk
    cases hk
    by_cases hpossible : d.Possible conn
    · rw [if_pos hpossible] at ht
      cases hreceived : received d with
      | error e =>
          rw [hreceived] at ht
          cases ht
          exact h.retry (t := { s with conn := none }) hc hlock htrying rfl hopened rfl hlock rfl _
      | ok text =>
          rw [hreceived] at ht
          cases ht
          rcases received_ok hreceived with ⟨line, rfl, hutf⟩ | ⟨line, part, rfl, hne, hutf⟩
          · exact h.answered hc hlock htrying hopened (howed.resolve_left hpossible.2.1) hutf
          · -- By the condition this is a second attempt.
            rcases hok c hc with hnil | hnone | ⟨hlen, hreply⟩
            · exact absurd hnil hne
            · rw [hnone] at hutf
              cases hutf
            · have hone : n = 1 := htrying.passes.symm.trans hlen
              subst hone
              exact h.cutShort hc hlock htrying (hopened rfl) (howed.resolve_left hpossible.2.1)
                hutf hreply
    · rw [if_neg hpossible] at ht
      cases ht

/-- **Every event that meets the condition keeps the invariant.** -/
theorem next [DecidableEq α] (h : s.Sound serde) {e : Event ρ} (hok : s.Unbroken serde e)
    (ht : s.next serde addr e = some t) : t.Sound serde := by
  cases e with
  | call request =>
      unfold Client.next at ht
      dsimp only at ht
      split at ht
      case h_1 e htext =>
        cases ht
        refine h.made ?_ rfl rfl
        exact ⟨Nat.zero_le 2, fun a ha => (nomatch ha), fun v hv => (nomatch hv),
          fun _ _ => Or.inr (Or.inr ⟨rfl, e, htext⟩)⟩
      case h_2 =>
        cases ht
        exact h.made rfl rfl rfl
  | acquire i =>
      unfold Client.next at ht
      dsimp only at ht
      split at ht
      case h_2 => cases ht
      case h_1 c hlock hc =>
        split at ht
        case h_2 => cases ht
        case h_1 hphase =>
          cases ht
          exact h.acquired hlock hc hphase
  | connect i res => exact h.connects ht
  | write i res => exact h.writes ht
  | flush i res => exact h.flushes ht
  | read i d => exact h.reads hok ht
  | hangup =>
      obtain ⟨conn, hconn, rfl⟩ := Option.map_eq_some_iff.1 ht
      exact h.hangup hconn

end Client.Sound

namespace Client

variable {ρ α : Type} {serde : Serde ρ α} {addr : String}

theorem sound_new : (new : Client ρ α).Sound serde where
  calls := fun _ _ hc => nomatch hc
  free := fun _ _ hk => nomatch hk
  held := fun _ _ hc => nomatch hc
  holds := fun _ hlock => nomatch hlock
  kept := fun _ _ _ _ hj => nomatch hj

theorem begun_le (c : Call ρ α) : c.begun ≤ c.history.length + 1 := by
  unfold Call.begun
  split
  case h_1 => exact Nat.le_succ _
  case h_2 => exact Nat.le_succ _
  case h_3 => exact Nat.le_refl _

/-- A call that has not returned, after fewer than two passes. -/
theorem lawful_of_running {i : ℕ} {c : Call ρ α} (hpasses : c.history.length < 2)
    (hphase : ∀ r, c.phase ≠ .done r) : c.Lawful serde i := by
  have hbegun := begun_le c
  refine ⟨by omega, fun a ha => ?_, fun v hv => absurd hv (hphase _), fun r hr => absurd hr (hphase r)⟩
  rw [List.getElem?_eq_none (by omega)] at ha
  cases ha

theorem Sound.lawful {s : Client ρ α} (h : s.Sound serde) : s.Lawful serde where
  calls := by
    intro i c hc
    have hsound := h.calls i c hc
    unfold Call.Sound at hsound
    cases hphase : c.phase with
    | waiting =>
        rw [hphase] at hsound
        have hnone : c.history.length = 0 := List.length_eq_zero_iff.2 hsound
        exact lawful_of_running (by omega) fun r hr => by rw [hphase] at hr; cases hr
    | connecting n =>
        rw [hphase] at hsound
        have hpasses : c.history.length < 2 := hsound.passes ▸ hsound.two
        exact lawful_of_running hpasses fun r hr => by rw [hphase] at hr; cases hr
    | writing n opened | flushing n opened | reading n opened =>
        rw [hphase] at hsound
        have hpasses : c.history.length < 2 := hsound.1.passes ▸ hsound.1.two
        exact lawful_of_running hpasses fun r hr => by rw [hphase] at hr; cases hr
    | done r =>
        rw [hphase] at hsound
        exact hsound
  kept := h.kept

/-- **The calls of one client**, over every interleaving and every outcome of the
connection whose steps meet the condition. -/
theorem calls_lawful [DecidableEq α] {s : Client ρ α}
    (h : ((machine serde addr).guarded fun s e => s.Unbroken serde e).Reachable s) :
    s.Lawful serde := by
  have hsound : s.Sound serde :=
    Machine.Reachable.guarded_invariant (P := fun s => s.Sound serde)
      (fun _ h0 => by
        cases h0
        exact sound_new)
      (fun _ _ _ hs hok hst => hs.next hok hst) h
  exact hsound.lawful

end Client

/-! ## §7. Two calls at a time, and a response cut short. -/

/-- JSON booleans, and an error line. -/
def booleans : Serde Bool Bool where
  toText b := .ok (if b then "true" else "false")
  fromText _ line :=
    if line = "true\n" ∨ line = "true" then .ok true
    else if line = "false\n" ∨ line = "false" then .ok false
    else .error "expected value"
  errorText line := if line = "\x7b\"error\":\"busy\"\x7d\n" then some "busy" else none

/-- The bytes of a line. -/
def bytes (line : String) : List UInt8 := line.toList.map fun c => c.val.toUInt8

/-- An attempt without a failure; the server answers with the line. -/
def exchange (i : ℕ) (line : String) : List (Event Bool) :=
  [.write i (.ok ()), .flush i (.ok ()), .read i (.whole (bytes line))]

/-- How the call ended: not yet, without a reply, or with one. -/
def Call.outcome {ρ α : Type} (c : Call ρ α) : Option (Option α) :=
  match c.phase with
  | .done r => some r.toOption
  | _ => none

/-- The attempts of each call, and how it ended. -/
def Client.account {ρ α : Type} (s : Client ρ α) : List (List Ending × Option (Option α)) :=
  s.calls.map fun c => (c.history.map (·.ending), c.outcome)

/-- Two calls wait for each other.  The peer hangs up before it answers the first, answers
it on a fresh connection, and the second with an error line; a third call follows. -/
def turns : List (Event Bool) :=
  [.call true, .acquire 0, .call false, .connect 0 (.ok ()), .write 0 (.ok ()), .flush 0 (.ok ()),
    .hangup, .read 0 .closed, .connect 0 (.ok ())] ++ exchange 0 "true" ++
    .acquire 1 :: exchange 1 "\x7b\"error\":\"busy\"\x7d" ++
    .call false :: .acquire 2 :: exchange 2 "false"

namespace Client

theorem turns_lawful :
    ∃ t, Machine.replay (Machine.guardedNext (fun s e => s.Unbroken booleans e)
        (next booleans "localhost:9000")) new turns = some t ∧
      t.account = [([.lost, .answered 0 (bytes "true")], some (some true)),
        ([.answered 1 (bytes "\x7b\"error\":\"busy\"\x7d")], some none),
        ([.answered 2 (bytes "false")], some (some false))] ∧ t.Lawful booleans := by
  have hdone : (Machine.replay (Machine.guardedNext (fun s e => s.Unbroken booleans e)
      (next booleans "localhost:9000")) new turns).map account
        = some [([.lost, .answered 0 (bytes "true")], some (some true)),
          ([.answered 1 (bytes "\x7b\"error\":\"busy\"\x7d")], some none),
          ([.answered 2 (bytes "false")], some (some false))] := by
    decide
  obtain ⟨t, ht, haccount⟩ := Option.map_eq_some_iff.1 hdone
  have hreach : ((machine booleans "localhost:9000").guarded
      fun s e => s.Unbroken booleans e).Reachable t :=
    Machine.Reachable.of_guarded_replay (fun _ _ _ hst => hst) _ (.init rfl) ht
  exact ⟨t, ht, haccount, calls_lawful hreach⟩

/-- A call that returned after a single attempt without its response line. -/
theorem not_lawful_of_once {ρ α : Type} {serde : Serde ρ α} {i : ℕ} {c : Call ρ α} {e : Ending}
    {v : Option α} (hhistory : c.history.map (·.ending) = [e]) (houtcome : c.outcome = some v)
    (he : e.complete = false) : ¬ c.Lawful serde i := by
  obtain ⟨a, l, hattempts, hending, hnil⟩ := List.map_eq_cons_iff.1 hhistory
  rw [List.map_eq_nil_iff.1 hnil] at hattempts
  obtain ⟨r, hphase⟩ : ∃ r, c.phase = .done r := by
    unfold Call.outcome at houtcome
    split at houtcome
    case h_1 r hphase => exact ⟨r, hphase⟩
    case h_2 => cases houtcome
  intro hlawful
  rcases hlawful.retried r hphase with ⟨b, hlast, hcomplete⟩ | ⟨hlen, -⟩ | ⟨hnone, -⟩
  · rw [hattempts, List.getLast?_singleton] at hlast
    cases hlast
    rw [hending, he] at hcomplete
    cases hcomplete
  · rw [hattempts] at hlen
    cases hlen
  · rw [hattempts] at hnone
    cases hnone

/-- The peer closes the connection after the first letters of the response. -/
def cutEarly : List (Event Bool) :=
  [.call true, .acquire 0, .connect 0 (.ok ()), .write 0 (.ok ()), .flush 0 (.ok ()),
    .read 0 (.cut (bytes "true") (bytes "tr"))]

/-- **A response cut short**: the call returns after one attempt. -/
theorem cut_not_retried :
    ∃ t, (machine booleans "localhost:9000").Reachable t ∧ ¬ t.Lawful booleans := by
  have hdone : (Machine.replay (next booleans "localhost:9000") new cutEarly).map account
      = some [([.cut 0 (bytes "true")], some none)] := by
    decide
  obtain ⟨t, ht, haccount⟩ := Option.map_eq_some_iff.1 hdone
  refine ⟨t, Machine.Reachable.of_replay (fun _ _ _ hst => hst) _ (.init rfl) ht, fun hlawful => ?_⟩
  obtain ⟨c, l, hcalls, hcall, -⟩ := List.map_eq_cons_iff.1 haccount
  obtain ⟨hhistory, houtcome⟩ := Prod.mk.inj hcall
  have hc : t.calls[0]? = some c := by rw [hcalls]; rfl
  exact not_lawful_of_once hhistory houtcome rfl (hlawful.calls 0 c hc)

end Client

end Toso.Tui.Aggregator
