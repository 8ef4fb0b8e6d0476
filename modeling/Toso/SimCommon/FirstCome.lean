/-
  Toso.SimCommon.FirstCome — a serialize channel is one server, and a line.

  The channel keeps a queue, the transfer it serves and one timer.  The line of a run
  writes down the transfers of the channel as they arrive and each resolution of a future
  as it happens; read as a schedule, it is that of a server that takes them one after
  another.

  Main results:
    * `Attended.step` — a task awaits a channel exactly while it has a transfer on it.
    * `Serves.register`, `Serves.finish` — what a channel owes its line.
    * `first_come_first_served` — over every run, each transfer completes its own cost
      after the larger of its arrival and the completion before it.
-/
import Toso.Lib.Server
import Toso.SimCommon.Resources
import Mathlib.Tactic.Linarith

namespace Toso.SimCommon

open Lib

/-! ## §1. What a channel has in flight. -/

namespace SerializeChannel

/-- The transfer it serves, and those that wait for it. -/
def inFlight (c : SerializeChannel) : List Transfer := (c.serving.map Prod.fst).toList ++ c.queue

/-- It is not idle while one is queued. -/
def Busy (c : SerializeChannel) : Prop := c.serving = none → c.queue = []

variable {c : SerializeChannel} {t : Transfer} {now w : ℚ}

theorem inFlight_nil (hbusy : c.Busy) (h : c.serving = none) : c.inFlight = [] := by
  unfold inFlight
  rw [h, hbusy h]
  rfl

theorem inFlight_cons {queue : List Transfer} :
    inFlight ⟨queue, some (t, w)⟩ = t :: queue := rfl

/-- One that is offered is the last in flight. -/
theorem inFlight_register (hbusy : c.Busy) (t : Transfer) (now : ℚ) :
    (c.register t now).inFlight = c.inFlight ++ [t] := by
  obtain ⟨queue, serving⟩ := c
  cases serving with
  | none =>
      obtain rfl : queue = [] := hbusy rfl
      rfl
  | some e => rfl

theorem busy_register (hbusy : c.Busy) (t : Transfer) (now : ℚ) : (c.register t now).Busy := by
  obtain ⟨queue, serving⟩ := c
  cases serving with
  | none =>
      obtain rfl : queue = [] := hbusy rfl
      exact fun h => nomatch h
  | some e => exact fun h => nomatch h

theorem inFlight_startNext (queue : List Transfer) (serving : Option (Transfer × ℚ)) (now : ℚ) :
    (startNext ⟨queue, serving⟩ now).inFlight = queue := by
  cases queue <;> rfl

theorem busy_startNext (c : SerializeChannel) (now : ℚ) : (c.startNext now).Busy := by
  obtain ⟨queue, serving⟩ := c
  cases queue with
  | nil => exact fun _ => rfl
  | cons t rest => exact fun h => nomatch h

end SerializeChannel

/-! ## §2. Who awaits a channel. -/

variable {χ : Type*} [DecidableEq χ]

namespace Loop

omit [DecidableEq χ] in
theorem awaits_setTask (s : Loop χ) (id : ℕ) (task : Task χ) (x : ℕ) (key : χ) :
    (s.setTask id task).Awaits x key ↔
      (x = id ∧ task.phase = .awaiting key) ∨ (x ≠ id ∧ s.Awaits x key) := by
  by_cases hx : x = id
  · subst hx
    rw [awaits_iff (get?_setTask_self _ _ _)]
    exact ⟨fun h => .inl ⟨rfl, h⟩, fun h => h.elim And.right fun h => absurd rfl h.1⟩
  · unfold Awaits
    rw [get?_setTask_ne _ _ (Ne.symm hx)]
    exact ⟨fun h => .inr ⟨hx, h⟩, fun h => h.elim (fun h => absurd h.1 hx) And.right⟩

omit [DecidableEq χ] in
/-- A task that awaits nothing goes on, and awaits nothing. -/
theorem awaits_setTask_idle {s : Loop χ} {id : ℕ} {task : Task χ}
    (hbefore : ∀ key, ¬ s.Awaits id key) (hafter : ∀ key, task.phase ≠ .awaiting key) (x : ℕ)
    (key : χ) : (s.setTask id task).Awaits x key ↔ s.Awaits x key := by
  rw [awaits_setTask]
  constructor
  · rintro (⟨_, hphase⟩ | ⟨_, haw⟩)
    · exact absurd hphase (hafter key)
    · exact haw
  · intro haw
    refine .inr ⟨?_, haw⟩
    rintro rfl
    exact hbefore key haw

omit [DecidableEq χ] in
/-- A task whose future is resolved does not await it any more. -/
theorem awaits_resolve (s : Loop χ) (future x : ℕ) (key : χ) :
    (s.resolve future).Awaits x key ↔ x ≠ future ∧ s.Awaits x key := by
  by_cases hx : x = future
  · subst hx
    refine ⟨fun h => ?_, fun h => absurd rfl h.1⟩
    by_cases haw : ∃ key', s.Awaits x key'
    · obtain ⟨key', haw⟩ := haw
      obtain ⟨started, charges, left, htask⟩ := haw.task
      have hready := (awaits_iff (get?_resolve_self s htask) key).mp h
      cases hready
    · -- nothing was awaited, and nothing is
      have hsame : s.resolve x = s := by
        unfold resolve
        split
        · rename_i hget
          exact absurd ⟨_, (awaits_iff hget _).mpr rfl⟩ haw
        · rfl
      rw [hsame] at h
      exact absurd ⟨key, h⟩ haw
  · unfold Awaits
    rw [get?_resolve_ne s (Ne.symm hx)]
    exact ⟨fun h => ⟨hx, h⟩, And.right⟩

end Loop

/-- **The invariant of a loop whose channels serialize**: a task awaits a channel exactly
while a transfer of its is in flight there, and one is at a time. -/
structure Attended (s : Loop χ) : Prop where
  channel : ∀ key c, s.channels.get? key = some c → ∃ sc : SerializeChannel,
    c = .serialize sc ∧ sc.Busy ∧ (sc.inFlight.map Transfer.future).Nodup ∧
      ∀ t ∈ sc.inFlight, s.Awaits t.future key
  carried : ∀ x key, s.Awaits x key → ∃ sc : SerializeChannel,
    s.channels.get? key = some (.serialize sc) ∧ ∃ t ∈ sc.inFlight, t.future = x

namespace Attended

variable {s t : Loop χ}

/-- What a step that changes no channel and nothing that is awaited leaves. -/
theorem frame (h : Attended s) (hchannels : t.channels = s.channels)
    (hawaits : ∀ x key, t.Awaits x key ↔ s.Awaits x key) : Attended t where
  channel key c hc := by
    rw [hchannels] at hc
    obtain ⟨sc, hsc, hbusy, honce, haw⟩ := h.channel key c hc
    exact ⟨sc, hsc, hbusy, honce, fun t ht => (hawaits _ _).mpr (haw t ht)⟩
  carried x key hx := by
    rw [hchannels]
    exact h.carried x key ((hawaits x key).mp hx)

/-- **A task offers a transfer** and awaits it. -/
theorem transfer (h : Attended s) {id : ℕ} {task : Task χ} (hbefore : ∀ key, ¬ s.Awaits id key)
    {key : χ} (hphase : task.phase = .awaiting key) (capacity latency : ℚ) (nbytes : ℕ) :
    Attended ((s.transfer .serialize id key capacity latency nbytes).setTask id task) := by
  -- `id` awaits this channel now, and every other task what it awaited
  have hawaits : ∀ x k, ((s.transfer .serialize id key capacity latency nbytes).setTask id
      task).Awaits x k ↔ (x = id ∧ k = key) ∨ s.Awaits x k := by
    intro x k
    rw [Loop.awaits_setTask, hphase]
    constructor
    · rintro (⟨hx, hk⟩ | ⟨_, haw⟩)
      · cases hk
        exact .inl ⟨hx, rfl⟩
      · exact .inr haw
    · rintro (⟨hx, rfl⟩ | haw)
      · exact .inl ⟨hx, rfl⟩
      · refine .inr ⟨?_, haw⟩
        rintro rfl
        exact hbefore k haw
  -- the channel it is offered to
  obtain ⟨sc, hchannel, hbusy, honce, haw⟩ : ∃ sc : SerializeChannel,
      (s.channels.get? key).getD (Channel.create .serialize capacity s.clock) = .serialize sc ∧
        sc.Busy ∧ (sc.inFlight.map Transfer.future).Nodup ∧
          ∀ t ∈ sc.inFlight, s.Awaits t.future key := by
    cases hget : s.channels.get? key with
    | none => exact ⟨⟨[], none⟩, rfl, fun _ => rfl, List.nodup_nil, fun t ht => nomatch ht⟩
    | some c => exact h.channel key c hget
  have hself : ((s.transfer .serialize id key capacity latency nbytes).setTask id
      task).channels.get? key =
        some (.serialize (sc.register ⟨s.seq + 1, nbytes, latency, capacity, id⟩ s.clock)) := by
    show (s.channels.set key (Channel.register _ _ _)).get? key = _
    rw [Dict.get?_set_self, hchannel]
    rfl
  have hflight := sc.inFlight_register hbusy ⟨s.seq + 1, nbytes, latency, capacity, id⟩ s.clock
  constructor
  case channel =>
    intro k c hc
    by_cases hk : key = k
    · subst hk
      rw [hself, Option.some.injEq] at hc
      refine ⟨_, hc.symm, sc.busy_register hbusy _ _, ?_, ?_⟩
      · rw [hflight, List.map_append, List.nodup_append]
        refine ⟨honce, List.nodup_singleton _, ?_⟩
        intro x hx y hy heq
        obtain ⟨t, ht, rfl⟩ := List.mem_map.mp hx
        obtain rfl := List.mem_singleton.mp hy
        exact hbefore key (heq ▸ haw t ht)
      · intro t ht
        rw [hflight, List.mem_append, List.mem_singleton] at ht
        rw [hawaits]
        rcases ht with ht | rfl
        · exact .inr (haw t ht)
        · exact .inl ⟨rfl, rfl⟩
    · obtain ⟨sc', hsc', hbusy', honce', haw'⟩ :=
        h.channel k c ((Dict.get?_set_ne _ _ hk).symm.trans hc)
      exact ⟨sc', hsc', hbusy', honce', fun t ht => (hawaits _ _).mpr (.inr (haw' t ht))⟩
  case carried =>
    intro x k hx
    rcases (hawaits x k).mp hx with ⟨rfl, rfl⟩ | hold
    · refine ⟨_, hself, ⟨s.seq + 1, nbytes, latency, capacity, x⟩, ?_, rfl⟩
      rw [hflight]
      exact List.mem_append_right _ List.mem_cons_self
    · obtain ⟨sc', hget, t, ht, rfl⟩ := h.carried x k hold
      by_cases hk : key = k
      · subst hk
        rw [hget] at hchannel
        cases hchannel
        refine ⟨_, hself, t, ?_, rfl⟩
        rw [hflight]
        exact List.mem_append_left _ ht
      · exact ⟨sc', (Dict.get?_set_ne _ _ hk).trans hget, t, ht, rfl⟩

/-- **A transfer is done**, and its task awaits no more. -/
theorem finish (h : Attended s) {key : χ} {queue : List Transfer} {tr : Transfer} {w : ℚ}
    (hget : s.channels.get? key = some (.serialize ⟨queue, some (tr, w)⟩)) :
    Attended ((s.setChannel key (.serialize
      (SerializeChannel.startNext ⟨queue, some (tr, w)⟩ s.clock))).resolve tr.future) := by
  obtain ⟨sc, hsc, hbusy, honce, haw⟩ := h.channel key _ hget
  cases hsc
  rw [SerializeChannel.inFlight_cons, List.map_cons, List.nodup_cons] at honce
  have htr : s.Awaits tr.future key := haw tr List.mem_cons_self
  have hflight : (SerializeChannel.startNext ⟨queue, some (tr, w)⟩ s.clock).inFlight = queue :=
    SerializeChannel.inFlight_startNext _ _ _
  constructor
  case channel =>
    intro k c hc
    rw [Loop.channels_resolve] at hc
    obtain ⟨rfl, rfl⟩ | ⟨hk, hold⟩ := Loop.get?_setChannel_cases hc
    · refine ⟨_, rfl, SerializeChannel.busy_startNext _ _, ?_, ?_⟩
      · rw [hflight]
        exact honce.2
      · intro t ht
        rw [hflight] at ht
        refine (Loop.awaits_resolve _ _ _ _).mpr ⟨?_, haw t (List.mem_cons_of_mem _ ht)⟩
        intro heq
        exact honce.1 (heq ▸ List.mem_map_of_mem ht)
    · obtain ⟨sc', rfl, hbusy', honce', haw'⟩ := h.channel k c hold
      refine ⟨sc', rfl, hbusy', honce', fun t ht => ?_⟩
      refine (Loop.awaits_resolve _ _ _ _).mpr ⟨?_, haw' t ht⟩
      intro heq
      -- a task awaits one channel
      have hone := haw' t ht
      unfold Loop.Awaits at hone htr
      rw [heq, htr] at hone
      cases hone
      exact hk rfl
  case carried =>
    intro x k hx
    obtain ⟨hne, hold⟩ := (Loop.awaits_resolve _ _ _ _).mp hx
    obtain ⟨sc', hget', t, ht, rfl⟩ := h.carried x k hold
    rw [Loop.channels_resolve]
    by_cases hk : key = k
    · subst hk
      rw [hget] at hget'
      cases hget'
      refine ⟨_, Dict.get?_set_self _ _ _, t, ?_, rfl⟩
      rw [hflight]
      rcases List.mem_cons.mp ht with rfl | ht
      · exact absurd rfl hne
      · exact ht
    · exact ⟨sc', (Dict.get?_set_ne _ _ hk).trans hget', t, ht, rfl⟩

end Attended

/-! ## §3. A run, and the line at a channel. -/

/-- A transfer offered to a channel. -/
structure Offer where
  transfer : Transfer
  arrives : ℚ
  deriving DecidableEq

/-- Its latency, and its bytes over its rate. -/
def Offer.cost (o : Offer) : ℚ :=
  o.transfer.latency + o.transfer.remaining / o.transfer.capacity

/-- How long it holds the channel: the clock does not go back. -/
def Offer.holds (o : Offer) : ℚ := max 0 o.cost

/-- The transfers of one channel as they arrived, and each resolution of a future, with its
time. -/
structure Line where
  arrived : List Offer
  resolved : List (ℕ × ℚ)
  deriving DecidableEq

namespace Line

/-- Nothing happened yet. -/
def empty : Line := ⟨[], []⟩

/-- What a step of the loop writes in the line of the channel `key`. -/
def note (key : χ) (s : Loop χ) (l : Line) : LoopEvent χ → Line
  | .run id =>
      match (s.tasks.get? id).map Task.left with
      | some (.transfer k capacity latency nbytes :: _) =>
          if k = key then
            { l with
              arrived := l.arrived ++ [⟨⟨s.seq + 1, nbytes, latency, capacity, id⟩, s.clock⟩] }
          else l
      | _ => l
  | .finish k =>
      match s.channels.get? k with
      | some (.serialize ⟨_, some (t, _)⟩) =>
          if k = key then { l with resolved := l.resolved ++ [(t.seq, s.clock)] } else l
      | _ => l
  | _ => l

end Line

/-- A loop with the line of one channel. -/
structure Lined (χ : Type*) where
  loop : Loop χ
  line : Line

/-- One step of the loop in serialize mode, written down. -/
def linedNext (key : χ) (s : Lined χ) (e : LoopEvent χ) : Option (Lined χ) :=
  (s.loop.next .serialize e).map fun t => ⟨t, s.line.note key s.loop e⟩

/-- The runs of the loop with the line of the channel `key`. -/
def linedMachine (key : χ) : Machine (Lined χ) (LoopEvent χ) :=
  Machine.ofPartial (fun s => s = ⟨Loop.initial, Line.empty⟩) (linedNext key)

/-- It has a rate, where it is a transfer. -/
def Charge.Rated : Charge χ → Prop
  | .sleep _ => True
  | .transfer _ capacity _ _ => capacity ≠ 0

instance : (charge : Charge χ) → Decidable charge.Rated
  | .sleep _ => inferInstanceAs (Decidable True)
  | .transfer _ capacity _ _ => inferInstanceAs (Decidable (capacity ≠ 0))

/-- A transfer that is offered has a rate. -/
def Rated (s : Lined χ) : LoopEvent χ → Prop
  | .run id => ∀ task ∈ s.loop.tasks.get? id, ∀ charge ∈ task.left.head?, charge.Rated
  | _ => True

instance (s : Lined χ) : (e : LoopEvent χ) → Decidable (Rated s e)
  | .run id => inferInstanceAs (Decidable
      (∀ task ∈ s.loop.tasks.get? id, ∀ charge ∈ task.left.head?, charge.Rated))
  | .call _ _ | .wake _ | .finish _ | .enter _ _ | .complete _ _ | .tick _ =>
      inferInstanceAs (Decidable True)

/-- **What a step of the loop can do** where all channels serialize: leave them as they
are, offer a transfer, be done with one, or move the clock. -/
theorem Attended.next_cases {s t : Loop χ} (h : Attended s) {e : LoopEvent χ}
    (hnext : s.next .serialize e = some t) :
    ((∀ key l, Line.note key s l e = l) ∧ t.channels = s.channels ∧ t.clock = s.clock ∧
      t.seq = s.seq ∧ ∀ x key, t.Awaits x key ↔ s.Awaits x key) ∨
    (∃ id task key capacity latency nbytes rest, e = .run id ∧
      s.tasks.get? id = some task ∧ task.phase = .ready ∧
      task.left = .transfer key capacity latency nbytes :: rest ∧
      t = (s.transfer .serialize id key capacity latency nbytes).setTask id
        { task with left := rest, phase := .awaiting key }) ∨
    (∃ key queue tr w, e = .finish key ∧
      s.channels.get? key = some (.serialize ⟨queue, some (tr, w)⟩) ∧ w ≤ s.clock ∧
      t = (s.setChannel key (.serialize
        (SerializeChannel.startNext ⟨queue, some (tr, w)⟩ s.clock))).resolve tr.future) ∨
    (∃ later, e = .tick later ∧ s.clock ≤ later ∧ s.Allows later ∧
      t = { s with clock := later }) := by
  -- a task in another phase awaits nothing
  have hidle : ∀ {id : ℕ} {task : Task χ}, s.tasks.get? id = some task →
      (∀ key, task.phase ≠ .awaiting key) → ∀ key, ¬ s.Awaits id key := by
    intro id task htask hphase key haw
    exact hphase key ((Loop.awaits_iff htask key).mp haw)
  cases Loop.moves_of_next hnext with
  | @call id charges hid =>
      refine .inl ⟨fun _ _ => rfl, rfl, rfl, rfl, Loop.awaits_setTask_idle ?_ ?_⟩
      · intro key haw
        obtain ⟨started, charges', left, htask⟩ := haw.task
        exact hid (Dict.mem_of_get? htask)
      · intro key hphase
        cases hphase
  | @run id task htask hready =>
      have hbefore := hidle htask fun key hphase => by
        rw [hready] at hphase
        cases hphase
      cases hleft : task.left with
      | nil =>
          have hrun : s.runTask .serialize id task =
              s.setTask id { task with phase := .finished s.clock } := by
            simp only [Loop.runTask, hleft]
          rw [hrun]
          refine .inl ⟨fun key l => ?_, rfl, rfl, rfl, Loop.awaits_setTask_idle hbefore ?_⟩
          · simp only [Line.note, htask, Option.map_some, hleft]
          · intro key hphase
            cases hphase
      | cons charge rest =>
          cases charge with
          | sleep dt =>
              have hrun : s.runTask .serialize id task = s.setTask id { task with
                  left := rest
                  phase := if dt ≤ 0 then .ready else .sleeping (s.clock + dt) } := by
                simp only [Loop.runTask, hleft]
              rw [hrun]
              refine .inl ⟨fun key l => ?_, rfl, rfl, rfl, Loop.awaits_setTask_idle hbefore ?_⟩
              · simp only [Line.note, htask, Option.map_some, hleft]
              · intro key
                show (if dt ≤ 0 then _ else _) ≠ _
                split_ifs <;> simp
          | transfer key capacity latency nbytes =>
              refine .inr (.inl ⟨id, task, key, capacity, latency, nbytes, rest, rfl, htask, hready,
                hleft, ?_⟩)
              simp only [Loop.runTask, hleft]
  | wake htask _ =>
      refine .inl ⟨fun _ _ => rfl, rfl, rfl, rfl, Loop.awaits_setTask_idle ?_ ?_⟩
      · refine hidle htask fun key hphase => ?_
        cases hphase
      · intro key hphase
        cases hphase
  | finish hget hdue => exact .inr (.inr (.inl ⟨_, _, _, _, rfl, hget, hdue, rfl⟩))
  -- no channel is progressive
  | enter hget _ _ =>
      obtain ⟨sc, hsc, _⟩ := h.channel _ _ hget
      cases hsc
  | complete hget _ _ =>
      obtain ⟨sc, hsc, _⟩ := h.channel _ _ hget
      cases hsc
  | tick hle hallows => exact .inr (.inr (.inr ⟨_, rfl, hle, hallows, rfl⟩))

/-- **One step of the loop keeps who awaits what.** -/
theorem Attended.step {s t : Loop χ} (h : Attended s) {e : LoopEvent χ}
    (hnext : s.next .serialize e = some t) : Attended t := by
  rcases h.next_cases hnext with ⟨_, hchannels, _, _, hawaits⟩ |
    ⟨id, task, key, capacity, latency, nbytes, rest, _, htask, hready, _, rfl⟩ |
    ⟨key, queue, tr, w, _, hget, _, rfl⟩ | ⟨later, _, _, _, rfl⟩
  · exact h.frame hchannels hawaits
  · refine h.transfer (fun key' haw => ?_) rfl capacity latency nbytes
    rw [Loop.awaits_iff htask, hready] at haw
    cases haw
  · exact h.finish hget
  · exact h.frame rfl fun _ _ => Iff.rfl

/-! ## §4. What a channel owes its line. -/

/-- When each transfer of a line starts and completes. -/
def slotsOf (offers : List Offer) : List (Offer × ℚ × ℚ) :=
  Server.slots Offer.arrives Offer.holds 0 offers

/-- When a line is through. -/
def clearsOf (offers : List Offer) : ℚ := Server.clears Offer.arrives Offer.holds 0 offers

/-- A completion, as it is written down. -/
def stamp (e : Offer × ℚ × ℚ) : ℕ × ℚ := (e.1.transfer.seq, e.2.2)

theorem holds_nonneg (o : Offer) : 0 ≤ o.holds := le_max_left _ _

theorem clearsOf_concat (offers : List Offer) (o : Offer) :
    clearsOf (offers ++ [o]) = max o.arrives (clearsOf offers) + o.holds :=
  Server.clears_concat _ _ _

/-- **What ties a channel to its line**: the transfers `done` were resolved as they were
through, and those `waiting` are in flight, the first of them being served. -/
structure Serves (c : SerializeChannel) (l : Line) (done waiting : List Offer) (seq : ℕ)
    (now : ℚ) : Prop where
  arrived : l.arrived = done ++ waiting
  resolved : l.resolved = (slotsOf done).map stamp
  inFlight : c.inFlight = waiting.map Offer.transfer
  through : clearsOf done ≤ now
  timer : ∀ t w, c.serving = some (t, w) → ∃ o rest, waiting = o :: rest ∧
    w = max o.arrives (clearsOf done) + o.cost ∧
      now ≤ max o.arrives (clearsOf done) + o.holds
  past : ∀ o ∈ l.arrived, 0 ≤ o.arrives ∧ o.arrives ≤ now
  fresh : ∀ o ∈ l.arrived, o.transfer.seq ≤ seq
  ordered : (l.arrived.map fun o => o.transfer.seq).Pairwise (· < ·)

namespace Serves

variable {c : SerializeChannel} {l : Line} {done waiting : List Offer} {seq : ℕ} {now : ℚ}

/-- A channel nothing was offered to. -/
theorem empty (seq : ℕ) (hnow : 0 ≤ now) : Serves ⟨[], none⟩ Line.empty [] [] seq now where
  arrived := rfl
  resolved := rfl
  inFlight := rfl
  through := hnow
  timer _ _ h := nomatch h
  past _ ho := nomatch ho
  fresh _ ho := nomatch ho
  ordered := List.Pairwise.nil

/-- Other channels use numbers too. -/
theorem mono (F : Serves c l done waiting seq now) {seq' : ℕ} (h : seq ≤ seq') :
    Serves c l done waiting seq' now :=
  { F with fresh := fun o ho => (F.fresh o ho).trans h }

/-- The clock moves, and passes no timer. -/
theorem tick (F : Serves c l done waiting seq now) {later : ℚ} (hle : now ≤ later)
    (hallows : ∀ w ∈ (Channel.serialize c).timers, later ≤ w) :
    Serves c l done waiting seq later where
  arrived := F.arrived
  resolved := F.resolved
  inFlight := F.inFlight
  through := F.through.trans hle
  timer t w h := by
    obtain ⟨o, rest, hwaiting, hw, _⟩ := F.timer t w h
    have hlater : later ≤ w := by
      refine hallows w ?_
      show w ∈ (c.serving.map Prod.snd).toList
      rw [h]
      exact List.mem_singleton_self w
    refine ⟨o, rest, hwaiting, hw, hlater.trans ?_⟩
    rw [hw]
    exact add_le_add_right (le_max_right _ _) _
  past o ho := ⟨(F.past o ho).1, (F.past o ho).2.trans hle⟩
  fresh := F.fresh
  ordered := F.ordered

/-- **A transfer is offered**: it is served at once where nothing is in flight. -/
theorem register (F : Serves c l done waiting seq now) (hbusy : c.Busy) (hnow : 0 ≤ now)
    {t : Transfer} (hseq : t.seq = seq + 1) :
    Serves (c.register t now) { l with arrived := l.arrived ++ [⟨t, now⟩] } done
      (waiting ++ [⟨t, now⟩]) (seq + 1) now where
  arrived := by
    rw [F.arrived, List.append_assoc]
  resolved := F.resolved
  inFlight := by
    rw [c.inFlight_register hbusy, F.inFlight, List.map_append]
    rfl
  through := F.through
  timer t' w h := by
    obtain ⟨queue, serving⟩ := c
    cases serving with
    | none =>
        -- idle: the transfer starts at once, and the channel has been free until now
        obtain rfl : queue = [] := hbusy rfl
        obtain rfl : waiting = [] := List.map_eq_nil_iff.mp F.inFlight.symm
        cases h
        refine ⟨⟨t, now⟩, [], rfl, ?_, ?_⟩
        · show _ = max now (clearsOf done) + _
          rw [max_eq_left F.through]
          rfl
        · show now ≤ max now (clearsOf done) + _
          rw [max_eq_left F.through]
          exact le_add_of_nonneg_right (holds_nonneg _)
    | some e =>
        -- busy: the one being served stays the first of those that wait
        obtain ⟨o, rest, rfl, hw, hle⟩ := F.timer t' w h
        exact ⟨o, rest ++ [⟨t, now⟩], rfl, hw, hle⟩
  past o ho := by
    rcases List.mem_append.mp ho with ho | ho
    · exact F.past o ho
    · obtain rfl := List.mem_singleton.mp ho
      exact ⟨hnow, le_rfl⟩
  fresh o ho := by
    rcases List.mem_append.mp ho with ho | ho
    · exact (F.fresh o ho).trans (Nat.le_succ seq)
    · obtain rfl := List.mem_singleton.mp ho
      exact hseq.le
  ordered := by
    rw [List.map_append, List.pairwise_append]
    refine ⟨F.ordered, List.pairwise_singleton _ _, ?_⟩
    intro x hx y hy
    obtain ⟨o, ho, rfl⟩ := List.mem_map.mp hx
    obtain rfl := List.mem_singleton.mp hy
    have hle := F.fresh o ho
    show o.transfer.seq < t.seq
    omega

/-- **The transfer being served is done**: at the end of its own time, and the next one
starts there. -/
theorem finish {queue : List Transfer} {t : Transfer} {w : ℚ}
    (F : Serves ⟨queue, some (t, w)⟩ l done waiting seq now) (hdue : w ≤ now) :
    ∃ o rest, waiting = o :: rest ∧ Serves (SerializeChannel.startNext ⟨queue, some (t, w)⟩ now)
      { l with resolved := l.resolved ++ [(t.seq, now)] } (done ++ [o]) rest seq now := by
  obtain ⟨o, rest, rfl, hw, hle⟩ := F.timer t w rfl
  have hflight : t :: queue = o.transfer :: rest.map Offer.transfer := F.inFlight
  obtain ⟨rfl, rfl⟩ := List.cons.inj hflight
  have hstart : max o.arrives (clearsOf done) ≤ now := by
    refine max_le (F.past o ?_).2 F.through
    rw [F.arrived]
    exact List.mem_append_right _ List.mem_cons_self
  -- the timer is due, and the clock has not passed the end: it is at the end
  have hnow : clearsOf (done ++ [o]) = now := by
    rw [clearsOf_concat]
    refine le_antisymm ?_ hle
    unfold Offer.holds
    rw [← max_add_add_left, add_zero]
    exact max_le hstart (hw ▸ hdue)
  refine ⟨o, rest, rfl, ?_, ?_, ?_, hnow.le, ?_, F.past, F.fresh, F.ordered⟩
  case refine_1 =>
    rw [F.arrived, List.append_assoc]
    rfl
  case refine_2 =>
    unfold slotsOf
    rw [Server.slots_concat, List.map_append]
    show _ = (slotsOf done).map stamp ++ [(o.transfer.seq, clearsOf (done ++ [o]))]
    rw [hnow, ← F.resolved]
  case refine_3 => exact SerializeChannel.inFlight_startNext _ _ _
  case refine_4 =>
    intro t' w' h
    cases rest with
    | nil => cases h
    | cons next rest =>
        cases h
        refine ⟨next, rest, rfl, ?_, ?_⟩
        all_goals
          -- the next one arrived before, so it starts at this completion
          have hpast : next.arrives ≤ now := by
            refine (F.past next ?_).2
            rw [F.arrived]
            exact List.mem_append_right _ (List.mem_cons_of_mem _ List.mem_cons_self)
          rw [hnow, max_eq_right hpast]
        · rfl
        · exact le_add_of_nonneg_right (holds_nonneg _)

end Serves

/-! ## §5. A run, and its line. -/

namespace Loop

/-- The channel of a key, one nothing was offered to where there is none yet. -/
def channelOf (s : Loop χ) (key : χ) : Channel :=
  (s.channels.get? key).getD (.serialize ⟨[], none⟩)

theorem channelOf_some {s : Loop χ} {key : χ} {c : Channel} (h : s.channels.get? key = some c) :
    s.channelOf key = c := by
  unfold channelOf
  rw [h]
  rfl

theorem channelOf_set_self {s t : Loop χ} {key : χ} {c : Channel}
    (h : t.channels = s.channels.set key c) : t.channelOf key = c := by
  refine channelOf_some ?_
  rw [h, Dict.get?_set_self]

theorem channelOf_set_ne {s t : Loop χ} {key k : χ} {c : Channel}
    (h : t.channels = s.channels.set k c) (hk : k ≠ key) : t.channelOf key = s.channelOf key := by
  unfold channelOf
  rw [h, Dict.get?_set_ne _ _ hk]

end Loop

/-- What tasks await on one channel. -/
theorem Attended.on {s : Loop χ} (h : Attended s) {key : χ} {c : SerializeChannel}
    (hc : s.channelOf key = .serialize c) : c.Busy ∧ (c.inFlight.map Transfer.future).Nodup ∧
      ∀ x, s.Awaits x key ↔ ∃ t ∈ c.inFlight, t.future = x := by
  cases hget : s.channels.get? key with
  | none =>
      unfold Loop.channelOf at hc
      rw [hget] at hc
      cases hc
      refine ⟨fun _ => rfl, List.nodup_nil, fun x => ⟨fun haw => ?_, fun hin => ?_⟩⟩
      · obtain ⟨sc, hsome, _⟩ := h.carried x key haw
        rw [hget] at hsome
        cases hsome
      · obtain ⟨t, ht, _⟩ := hin
        cases ht
  | some c' =>
      obtain ⟨sc, hsc, hbusy, honce, haw⟩ := h.channel key c' hget
      rw [Loop.channelOf_some hget, hsc] at hc
      cases hc
      refine ⟨hbusy, honce, fun x => ⟨fun hx => ?_, fun hin => ?_⟩⟩
      · obtain ⟨sc', hsome, hin⟩ := h.carried x key hx
        rw [hget, hsc] at hsome
        cases hsome
        exact hin
      · obtain ⟨t, ht, rfl⟩ := hin
        exact haw t ht

/-- **The invariant of a run**: tasks await what is in flight, and the channel owes its line
nothing else. -/
structure InTurn (key : χ) (s : Lined χ) : Prop where
  attended : Attended s.loop
  begun : 0 ≤ s.loop.clock
  served : ∃ c done waiting, s.loop.channelOf key = .serialize c ∧
    Serves c s.line done waiting s.loop.seq s.loop.clock

namespace InTurn

variable {key : χ} {s t : Loop χ} {l : Line}

/-- What a step that leaves the channel alone keeps. -/
theorem frame (h : InTurn key ⟨s, l⟩) (hattended : Attended t)
    (hchannel : t.channelOf key = s.channelOf key) (hclock : t.clock = s.clock)
    (hseq : s.seq ≤ t.seq) : InTurn key ⟨t, l⟩ := by
  obtain ⟨c, done, waiting, hc, F⟩ := h.served
  refine ⟨hattended, ?_, c, done, waiting, hchannel.trans hc, ?_⟩
  · show 0 ≤ t.clock
    rw [hclock]
    exact h.begun
  · show Serves c l done waiting t.seq t.clock
    rw [hclock]
    exact F.mono hseq

/-- **A transfer is offered**, on this channel or on another. -/
theorem offered (h : InTurn key ⟨s, l⟩) {id : ℕ} {task : Task χ} {k : χ} {capacity latency : ℚ}
    {nbytes : ℕ} {rest : List (Charge χ)} (htask : s.tasks.get? id = some task)
    (hleft : task.left = .transfer k capacity latency nbytes :: rest) (task' : Task χ)
    (hattended : Attended
      ((s.transfer .serialize id k capacity latency nbytes).setTask id task')) :
    InTurn key ⟨(s.transfer .serialize id k capacity latency nbytes).setTask id task',
      l.note key s (.run id)⟩ := by
  have hset : ((s.transfer .serialize id k capacity latency nbytes).setTask id task').channels =
      s.channels.set k ((s.channelOf k).register ⟨s.seq + 1, nbytes, latency, capacity, id⟩
        s.clock) := rfl
  simp only [Line.note, htask, Option.map_some, hleft]
  by_cases hk : k = key
  · subst hk
    obtain ⟨c, done, waiting, hc, F⟩ := h.served
    have hc' : s.channelOf k = .serialize c := hc
    rw [if_pos rfl]
    refine ⟨hattended, h.begun, c.register ⟨s.seq + 1, nbytes, latency, capacity, id⟩ s.clock,
      done, waiting ++ [⟨⟨s.seq + 1, nbytes, latency, capacity, id⟩, s.clock⟩], ?_, ?_⟩
    · rw [Loop.channelOf_set_self hset, hc']
      rfl
    · exact F.register (h.attended.on hc).1 h.begun rfl
  · rw [if_neg hk]
    exact h.frame hattended (Loop.channelOf_set_ne hset hk) rfl (Nat.le_succ _)

/-- **A transfer is done**, on this channel or on another. -/
theorem finished (h : InTurn key ⟨s, l⟩) {k : χ} {queue : List Transfer} {tr : Transfer} {w : ℚ}
    (hget : s.channels.get? k = some (.serialize ⟨queue, some (tr, w)⟩)) (hdue : w ≤ s.clock)
    (hattended : Attended ((s.setChannel k (.serialize
      (SerializeChannel.startNext ⟨queue, some (tr, w)⟩ s.clock))).resolve tr.future)) :
    InTurn key ⟨(s.setChannel k (.serialize
      (SerializeChannel.startNext ⟨queue, some (tr, w)⟩ s.clock))).resolve tr.future,
      l.note key s (.finish k)⟩ := by
  have hset : ((s.setChannel k (.serialize (SerializeChannel.startNext
      ⟨queue, some (tr, w)⟩ s.clock))).resolve tr.future).channels = s.channels.set k (.serialize
        (SerializeChannel.startNext ⟨queue, some (tr, w)⟩ s.clock)) := Loop.channels_resolve _ _
  simp only [Line.note, hget]
  by_cases hk : k = key
  · subst hk
    obtain ⟨c, done, waiting, hc, F⟩ := h.served
    rw [Loop.channelOf_some hget] at hc
    cases hc
    obtain ⟨o, rest, rfl, F'⟩ := F.finish hdue
    rw [if_pos rfl]
    refine ⟨hattended, ?_, SerializeChannel.startNext ⟨queue, some (tr, w)⟩ s.clock, done ++ [o],
      rest, Loop.channelOf_set_self hset, ?_⟩
    · show 0 ≤ Loop.clock _
      rw [Loop.clock_resolve]
      exact h.begun
    · show Serves _ _ _ _ (Loop.seq _) (Loop.clock _)
      rw [Loop.seq_resolve, Loop.clock_resolve]
      exact F'
  · rw [if_neg hk]
    refine h.frame hattended (Loop.channelOf_set_ne hset hk) (Loop.clock_resolve _ _) ?_
    rw [Loop.seq_resolve]
    exact le_rfl

/-- The clock moves. -/
theorem ticked (h : InTurn key ⟨s, l⟩) {later : ℚ} (hle : s.clock ≤ later)
    (hallows : s.Allows later) (hattended : Attended { s with clock := later }) :
    InTurn key ⟨{ s with clock := later }, l⟩ := by
  obtain ⟨c, done, waiting, hc, F⟩ := h.served
  refine ⟨hattended, h.begun.trans hle, c, done, waiting, hc, F.tick hle fun w hw => ?_⟩
  have hc' : s.channelOf key = .serialize c := hc
  cases hget : s.channels.get? key with
  | none =>
      unfold Loop.channelOf at hc'
      rw [hget] at hc'
      cases hc'
      cases hw
  | some c' =>
      rw [Loop.channelOf_some hget] at hc'
      subst hc'
      exact hallows.2 _ ((Dict.mem_values_iff _ _).mpr ⟨key, hget⟩) w hw

/-- **One step of the loop keeps channel and line together.** -/
theorem step {s t : Lined χ} (h : InTurn key s) {e : LoopEvent χ}
    (hnext : linedNext key s e = some t) : InTurn key t := by
  obtain ⟨s, l⟩ := s
  obtain ⟨t', hloop, rfl⟩ := Option.map_eq_some_iff.mp hnext
  have hattended := h.attended.step hloop
  rcases h.attended.next_cases hloop with ⟨hnote, hchannels, hclock, hseq, _⟩ |
    ⟨id, task, k, capacity, latency, nbytes, rest, rfl, htask, _, hleft, rfl⟩ |
    ⟨k, queue, tr, w, rfl, hget, hdue, rfl⟩ | ⟨later, rfl, hle, hallows, rfl⟩
  · show InTurn key ⟨t', l.note key s e⟩
    rw [hnote]
    refine h.frame hattended ?_ hclock hseq.ge
    unfold Loop.channelOf
    rw [hchannels]
  · exact h.offered htask hleft _ hattended
  · exact h.finished hget hdue hattended
  · exact h.ticked hle hallows hattended

/-- **The run lemma.** -/
theorem of_run {s : Lined χ} (h : (linedMachine key).Reachable s) : InTurn key s := by
  refine h.invariant (fun s hs => ?_) fun s e t hs hst => hs.step hst
  obtain rfl : s = ⟨Loop.initial, Line.empty⟩ := hs
  refine ⟨⟨fun k c hc => ?_, fun x k hx => ?_⟩, le_rfl, ⟨[], none⟩, [], [], rfl, ?_⟩
  · cases hc
  · obtain ⟨started, charges, left, htask⟩ := hx.task
    cases htask
  · exact .empty 0 le_rfl

end InTurn

/-! ## §6. First come, first served. -/

/-- The completion before the `i`-th, if there is one. -/
def Line.previous (l : Line) (i : ℕ) : Option ℚ := ((l.resolved.take i).getLast?).map Prod.snd

/-- When a transfer starts: when it has arrived and the one before it completed. -/
def Offer.starts (o : Offer) (previous : Option ℚ) : ℚ := previous.elim o.arrives (max o.arrives)

/-- The transfers whose futures are not resolved. -/
def Line.unresolved (l : Line) : List Offer := l.arrived.drop l.resolved.length

namespace Serves

variable {c : SerializeChannel} {l : Line} {done waiting : List Offer} {seq : ℕ} {now : ℚ}

theorem length (F : Serves c l done waiting seq now) : l.resolved.length = done.length := by
  rw [F.resolved, List.length_map]
  exact Server.length_slots _ _

theorem unresolved_eq (F : Serves c l done waiting seq now) : l.unresolved = waiting := by
  unfold Line.unresolved
  rw [F.length, F.arrived, List.drop_left]

/-- Where the recursion is up to. -/
theorem starts (F : Serves c l done waiting seq now) (i : ℕ) {o : Offer} (ho : 0 ≤ o.arrives) :
    o.starts (l.previous i) = max o.arrives (clearsOf (done.take i)) := by
  have hprevious : l.previous i = (slotsOf (done.take i)).getLast?.map fun e => e.2.2 := by
    unfold Line.previous slotsOf
    rw [F.resolved, ← List.map_take, List.getLast?_map, Option.map_map, slotsOf,
      Server.take_slots]
    rfl
  rw [hprevious]
  by_cases hnil : done.take i = []
  · rw [hnil]
    exact (max_eq_left ho).symm
  · unfold slotsOf
    rw [Server.getLast?_slots 0 hnil]
    rfl

/-- **When a transfer completed.** -/
theorem completed (F : Serves c l done waiting seq now) {i : ℕ} {o : Offer} {d : ℚ}
    (ho : l.arrived[i]? = some o) (hd : l.resolved[i]? = some (o.transfer.seq, d)) :
    d = o.starts (l.previous i) + o.holds := by
  have hi : i < done.length := by
    rw [← F.length]
    exact (List.getElem?_eq_some_iff.mp hd).1
  rw [F.arrived, List.getElem?_append_left hi] at ho
  rw [F.resolved, List.getElem?_map] at hd
  unfold slotsOf at hd
  rw [Server.getElem?_slots, ho] at hd
  have hpast := F.past o (by
    rw [F.arrived]
    exact List.mem_append_left _ (List.mem_of_getElem? ho))
  rw [F.starts i hpast.1]
  exact (congrArg Prod.snd (Option.some.inj hd)).symm

/-- Futures are resolved in the order of arrival. -/
theorem in_order (F : Serves c l done waiting seq now) : l.resolved.map Prod.fst =
    (l.arrived.map fun o => o.transfer.seq).take l.resolved.length := by
  have hdone : l.arrived.take l.resolved.length = done := by
    rw [F.length, F.arrived, List.take_left]
  have hslots : (slotsOf done).map Prod.fst = done := Server.map_fst_slots done 0
  rw [← List.map_take, hdone, F.resolved, List.map_map]
  calc (slotsOf done).map (Prod.fst ∘ stamp)
      = ((slotsOf done).map Prod.fst).map fun o => o.transfer.seq := by
        rw [List.map_map]
        rfl
    _ = done.map fun o => o.transfer.seq := by rw [hslots]

/-- The first of those that wait is served. -/
theorem serving (F : Serves c l done waiting seq now) (hbusy : c.Busy) {o : Offer}
    {rest : List Offer} (hwaiting : waiting = o :: rest) : c =
      ⟨rest.map Offer.transfer,
        some (o.transfer, o.starts (l.previous l.resolved.length) + o.cost)⟩ := by
  subst hwaiting
  obtain ⟨queue, serving⟩ := c
  cases serving with
  | none => cases F.inFlight.symm.trans (SerializeChannel.inFlight_nil hbusy rfl)
  | some served =>
      obtain ⟨t, w⟩ := served
      have hflight : t :: queue = o.transfer :: rest.map Offer.transfer := F.inFlight
      obtain ⟨rfl, rfl⟩ := List.cons.inj hflight
      obtain ⟨o', rest', hcons, rfl, _⟩ := F.timer _ w rfl
      obtain ⟨rfl, rfl⟩ := List.cons.inj hcons
      have hpast := F.past o (by
        rw [F.arrived]
        exact List.mem_append_right _ List.mem_cons_self)
      rw [F.starts l.resolved.length hpast.1, F.length, List.take_length]

/-- None is late. -/
theorem on_time (F : Serves c l done waiting seq now) (hbusy : c.Busy) {e : Offer × ℚ × ℚ}
    (he : e ∈ (slotsOf l.arrived).drop l.resolved.length) : now ≤ e.2.2 := by
  have hslots : (slotsOf l.arrived).drop l.resolved.length =
      Server.slots Offer.arrives Offer.holds (clearsOf done) waiting := by
    unfold slotsOf
    rw [F.arrived, Server.slots_append, F.length]
    exact List.drop_left' (Server.length_slots done 0)
  rw [hslots] at he
  obtain ⟨queue, serving⟩ := c
  cases serving with
  | none =>
      have hnil : waiting = [] :=
        List.map_eq_nil_iff.mp (F.inFlight.symm.trans (SerializeChannel.inFlight_nil hbusy rfl))
      rw [hnil] at he
      cases he
  | some served =>
      -- the one being served is not late, and those after it complete later
      obtain ⟨o, rest, rfl, _, hnow⟩ := F.timer served.1 served.2 rfl
      rcases List.mem_cons.mp he with rfl | he
      · exact hnow
      · exact hnow.trans (Server.le_of_mem_slots (fun x _ => holds_nonneg x) he)

end Serves

/-- **A serialize channel is first come, first served.**  In every run in which transfers
have a rate, whatever tasks offer them and whatever goes on on other channels: futures are
resolved once each, in the order of arrival; a transfer completes its latency and its bytes
over its rate after the larger of its arrival and the completion before it (or at that
instant, were its cost negative); none is resolved later; while one is not resolved, the
first of them is being served, up to then, and the others wait behind it in order; and it is
those that tasks await, one each. -/
theorem first_come_first_served (key : χ) {s : Lined χ}
    (h : ((linedMachine key).guarded Rated).Reachable s) :
    ((s.line.arrived.map fun o => o.transfer.seq).Pairwise (· < ·) ∧
      s.line.resolved.map Prod.fst =
        (s.line.arrived.map fun o => o.transfer.seq).take s.line.resolved.length) ∧
    (∀ (i : ℕ) (o : Offer) (d : ℚ), s.line.arrived[i]? = some o →
      s.line.resolved[i]? = some (o.transfer.seq, d) →
      (0 ≤ o.cost → d = o.starts (s.line.previous i) + o.cost) ∧
        (o.cost ≤ 0 → d = o.starts (s.line.previous i))) ∧
    (∀ e ∈ (slotsOf s.line.arrived).drop s.line.resolved.length, s.loop.clock ≤ e.2.2) ∧
    (∀ o rest, s.line.unresolved = o :: rest → s.loop.channels.get? key = some (.serialize
      ⟨rest.map Offer.transfer,
        some (o.transfer, o.starts (s.line.previous s.line.resolved.length) + o.cost)⟩)) ∧
    (s.line.unresolved.map fun o => o.transfer.future).Nodup ∧
      ∀ x, s.loop.Awaits x key ↔ ∃ o ∈ s.line.unresolved, o.transfer.future = x := by
  have hrun := InTurn.of_run h.of_guarded
  obtain ⟨c, done, waiting, hc, F⟩ := hrun.served
  obtain ⟨hbusy, honce, hawaits⟩ := hrun.attended.on hc
  rw [F.inFlight, List.map_map] at honce
  rw [F.unresolved_eq]
  refine ⟨⟨F.ordered, F.in_order⟩, ?_, fun e he => F.on_time hbusy he, ?_, honce, fun x => ?_⟩
  · intro i o d ho hd
    have hcompleted := F.completed ho hd
    constructor
    · intro hcost
      rw [hcompleted, Offer.holds, max_eq_right hcost]
    · intro hcost
      rw [hcompleted, Offer.holds, max_eq_left hcost, add_zero]
  · intro o rest hwaiting
    have hserving := F.serving hbusy hwaiting
    -- where something waits there is a channel
    cases hget : s.loop.channels.get? key with
    | none =>
        unfold Loop.channelOf at hc
        rw [hget] at hc
        cases hc
        cases congrArg SerializeChannel.serving hserving
    | some c' =>
        rw [Loop.channelOf_some hget] at hc
        rw [hc, hserving]
  · rw [hawaits, F.inFlight]
    simp

/-- Two bytes at two a second after a latency of one, nothing at all, and one byte that is
offered at the instant the first transfer completes. -/
def offeredInTurn : List (LoopEvent Unit) :=
  [.call 1 [.transfer () 2 1 2], .call 2 [.transfer () 1 0 0],
    .call 3 [.sleep 2, .transfer () 1 0 1], .run 1, .run 2, .run 3, .tick 2, .wake 3, .run 3,
    .finish (), .finish (), .run 1, .run 2, .tick 3, .finish ()]

/-- They complete at 2, 2 and 3. -/
theorem offered_in_turn : ∃ s : Lined Unit,
    s.line.arrived[2]? = some ⟨⟨3, 1, 0, 1, 3⟩, 2⟩ ∧
      s.line.resolved = [(1, 2), (2, 2), (3, 3)] ∧
      (3 : ℚ) = (⟨⟨3, 1, 0, 1, 3⟩, 2⟩ : Offer).starts (s.line.previous 2) +
        (⟨⟨3, 1, 0, 1, 3⟩, 2⟩ : Offer).cost := by
  have hrun : (Machine.replay (Machine.guardedNext Rated (linedNext ()))
      ⟨Loop.initial, Line.empty⟩ offeredInTurn).any
      (fun s => decide (s.line.arrived[2]? = some ⟨⟨3, 1, 0, 1, 3⟩, 2⟩ ∧
        s.line.resolved = [(1, 2), (2, 2), (3, 3)])) = true := by
    decide +kernel
  obtain ⟨s, hs, hends⟩ := (Option.any_eq_true _ _).mp hrun
  obtain ⟨harrived, hresolved⟩ := of_decide_eq_true hends
  have hreach : ((linedMachine ()).guarded Rated).Reachable s :=
    Machine.Reachable.of_guarded_replay (fun _ _ _ hst => hst) _ (.init rfl) hs
  refine ⟨s, harrived, hresolved, ?_⟩
  refine ((first_come_first_served () hreach).2.1 2 _ 3 harrived ?_).1 (by decide +kernel)
  rw [hresolved]
  rfl

end Toso.SimCommon
