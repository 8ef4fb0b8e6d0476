/-
  Toso.SimCommon.Trace — recorded events, the chain of their digests, and where two runs
  first differ.

  A trace folds its events into a chain, each digest made of the one before it and the
  next event.  Two digests of one index are made of as many events, so where the hash
  tells its inputs apart they agree only if all events so far do.  A digest is of bytes,
  and a text that holds a surrogate has none.

  What a float is written as and the hash itself are parameters.

  Main results:
    * `chainFrom_eq`, `foldFrom_eq` — the chain is one fold over the events' bytes.
    * `digests_agree_iff` — what an index at which two chains agree says.
    * `firstDivergence_spec` — the divergence found is the first difference.
    * `Trace.Kept.record` — the chain kept while recording is the fold of what is recorded.
    * `localized_iff` — when both hold.
-/
import Toso.Lib.PrefixChain
import Toso.Lib.Utf8
import Toso.StoreReader.Json
import Mathlib.Data.Set.Function

namespace Toso.SimCommon.Tracing

open Lib StoreReader

variable {τ : Type*}

/-! ## §1. Digests. -/

abbrev Bytes := List UInt8

/-- `_SEP`, the unit separator. -/
def sep : UInt8 := 0x1f

/-- The bytes of a literal of the source. -/
def ascii (s : String) : Bytes := s.toList.map fun c => UInt8.ofNat c.toNat

/-- `_CHAIN_SEED`. -/
def chainSeed : Bytes := ascii "toso-sim-trace-chain-v1"

/-- `Event`: a time, a kind and a message. -/
structure Event (τ : Type*) where
  now : τ
  kind : Text
  msg : Text
  deriving DecidableEq

/-- What digests are made with: the bytes of `repr(float(t))`, which are lossless and hold
no separator, and `blake2b` at sixteen bytes. -/
structure Hashing (τ : Type*) where
  repr : τ → Bytes
  repr_inj : ∀ s t, repr s = repr t → s = t
  repr_sep : ∀ t, sep ∉ repr t
  blake2b : Bytes → Bytes
  length_blake2b : ∀ b, (blake2b b).length = 16

/-- `str.encode("utf-8")`: none where it raises. -/
def encoded (t : Text) : Option Bytes := Utf8.encode (t.map Fin.val)

variable (D : Hashing τ)

/-- `_fold`: the digest after one event, none where a text has no bytes. -/
def fold (prev : Bytes) (e : Event τ) : Option Bytes :=
  -- the two separators stand after the time and after the kind; the message runs to the end
  (encoded e.kind).bind fun kind => (encoded e.msg).map fun msg =>
    D.blake2b (prev ++ (D.repr e.now ++ sep :: (kind ++ sep :: msg)))

/-- The loop of `chain_digests`. -/
def chainFrom : Bytes → List (Event τ) → Option (List Bytes)
  | _, [] => some []
  | h, e :: rest => (fold D h e).bind fun h => (chainFrom h rest).map (h :: ·)

/-- `chain_digests`. -/
def chainDigests (events : List (Event τ)) : Option (List Bytes) := chainFrom D chainSeed events

/-- The loop of `_fold_all`. -/
def foldFrom : Bytes → List (Event τ) → Option Bytes
  | h, [] => some h
  | h, e :: rest => (fold D h e).bind fun h => foldFrom h rest

/-- `_fold_all`. -/
def foldAll (events : List (Event τ)) : Option Bytes := foldFrom D chainSeed events

/-- `bytes.hex()`. -/
def hex (b : Bytes) : String :=
  String.ofList (b.flatMap fun x => [Nat.digitChar (x.toNat / 16), Nat.digitChar (x.toNat % 16)])

/-- `_fingerprint`. -/
def fingerprintOf (events : List (Event τ)) : Option String := (foldAll D events).map hex

/-! ## §2. Traces. -/

/-- `Trace`. -/
structure Trace (τ : Type*) where
  events : List (Event τ)
  hashChain : Bool
  enabled : Bool
  chain : Bytes

/-- `Trace(...)`: what it is built with is folded, where the chain is kept. -/
def Trace.build (events : List (Event τ)) (hashChain enabled : Bool) : Option (Trace τ) :=
  -- `__post_init__`
  if hashChain then (foldFrom D chainSeed events).map fun chain => ⟨events, true, enabled, chain⟩
  else some ⟨events, false, enabled, chainSeed⟩

/-- `record`: the trace after it, or as it is left where folding raises. -/
def Trace.record (tr : Trace τ) (e : Event τ) : Except (Trace τ) (Trace τ) :=
  if tr.enabled then
    let tr := { tr with events := tr.events ++ [e] }
    if tr.hashChain then
      -- the event was appended before its folding raises
      match fold D tr.chain e with
      | none => .error tr
      | some chain => .ok { tr with chain := chain }
    else .ok tr
  else .ok tr

/-- Events recorded one after another. -/
def Trace.recordAll : Trace τ → List (Event τ) → Except (Trace τ) (Trace τ)
  | tr, [] => .ok tr
  | tr, e :: rest => (tr.record D e).bind fun tr => recordAll tr rest

/-- `fingerprint`. -/
def Trace.fingerprint (tr : Trace τ) : Option String :=
  if tr.hashChain then some (hex tr.chain) else (foldAll D tr.events).map hex

/-! ## §3. Divergence. -/

/-- `Events`: a trace or a bare sequence. -/
inductive Events (τ : Type*)
  | trace (tr : Trace τ)
  | sequence (events : List (Event τ))

/-- `_events`. -/
def Events.list : Events τ → List (Event τ)
  | .trace tr => tr.events
  | .sequence events => events

/-- `Divergence`. -/
structure Divergence (τ : Type*) where
  index : ℕ
  aEvent : Option (Event τ)
  bEvent : Option (Event τ)
  context : List (Event τ)
  deriving DecidableEq

/-- The loop over both chains: the first index from `i` on at which they differ. -/
def firstMismatch : List Bytes → List Bytes → ℕ → Option ℕ
  | x :: xs, y :: ys, i => if x ≠ y then some i else firstMismatch xs ys (i + 1)
  | _, _, _ => none

/-- The divergence at an index. -/
def divergenceAt (ea eb : List (Event τ)) (context : ℤ) (idx : ℕ) : Divergence τ :=
  ⟨idx, ea[idx]?, eb[idx]?, (ea.take idx).drop (max 0 (idx - context)).toNat⟩

/-- `first_divergence`: none where it raises, else what it returns. -/
def firstDivergence (a b : Events τ) (context : ℤ) : Option (Option (Divergence τ)) :=
  (chainDigests D a.list).bind fun ca => (chainDigests D b.list).map fun cb =>
    match firstMismatch ca cb 0 with
    | some idx => some (divergenceAt a.list b.list context idx)
    -- one ended where the other goes on, or they are the same
    | none =>
        if a.list.length = b.list.length then none
        else some (divergenceAt a.list b.list context (min ca.length cb.length))

/-! ## §4. The bytes of an event. -/

/-- The bytes an event adds to what is hashed. -/
def body (e : Event τ) : Option Bytes :=
  (encoded e.kind).bind fun kind => (encoded e.msg).map fun msg =>
    D.repr e.now ++ sep :: (kind ++ sep :: msg)

/-- The bytes of events. -/
def bodies : List (Event τ) → Option (List Bytes)
  | [] => some []
  | e :: rest => (body D e).bind fun b => (bodies rest).map (b :: ·)

/-- The digest after the bytes of one more event. -/
def digest (prev b : Bytes) : Bytes := D.blake2b (prev ++ b)

/-- An event whose texts have bytes. -/
def Event.Encodable (e : Event τ) : Prop :=
  Utf16.Scalar (e.kind.map Fin.val) ∧ Utf16.Scalar (e.msg.map Fin.val)

/-- A kind that does not contain the separator. -/
def Event.SepFree (e : Event τ) : Prop := ∀ kind, encoded e.kind = some kind → sep ∉ kind

variable {D}

theorem encoded_inj {s t : Text} {b : Bytes} (hs : encoded s = some b) (ht : encoded t = some b) :
    s = t :=
  List.map_injective_iff.mpr Fin.val_injective (Utf8.encode_inj hs ht)

theorem fold_eq (prev : Bytes) (e : Event τ) : fold D prev e = (body D e).map (digest D prev) := by
  unfold fold body digest
  cases encoded e.kind with
  | none => rfl
  | some kind => cases encoded e.msg <;> rfl

/-- The parts of an event's bytes. -/
theorem body_eq_some {e : Event τ} {b : Bytes} (h : body D e = some b) : ∃ kind msg,
    encoded e.kind = some kind ∧ encoded e.msg = some msg ∧
      b = D.repr e.now ++ sep :: (kind ++ sep :: msg) := by
  obtain ⟨kind, hkind, h⟩ := Option.bind_eq_some_iff.mp h
  obtain ⟨msg, hmsg, rfl⟩ := Option.map_eq_some_iff.mp h
  exact ⟨kind, msg, hkind, hmsg, rfl⟩

theorem body_isSome_iff (e : Event τ) : (∃ b, body D e = some b) ↔ e.Encodable := by
  unfold Event.Encodable
  rw [← Utf8.encode_isSome_iff, ← Utf8.encode_isSome_iff]
  constructor
  · rintro ⟨b, h⟩
    obtain ⟨kind, msg, hkind, hmsg, _⟩ := body_eq_some h
    exact ⟨⟨kind, hkind⟩, ⟨msg, hmsg⟩⟩
  · rintro ⟨⟨kind, hkind⟩, ⟨msg, hmsg⟩⟩
    refine ⟨D.repr e.now ++ sep :: (kind ++ sep :: msg), ?_⟩
    unfold body encoded
    rw [hkind, hmsg]
    rfl

/-- What ends at the first separator. -/
theorem before_sep_inj {x x' z z' : Bytes} (hx : sep ∉ x) (hx' : sep ∉ x')
    (h : x ++ sep :: z = x' ++ sep :: z') : x = x' ∧ z = z' := by
  induction x generalizing x' with
  | nil =>
      cases x' with
      | nil => exact ⟨rfl, (List.cons.inj h).2⟩
      | cons c rest =>
          rw [(List.cons.inj h).1] at hx'
          exact absurd List.mem_cons_self hx'
  | cons c rest ih =>
      cases x' with
      | nil =>
          rw [← (List.cons.inj h).1] at hx
          exact absurd List.mem_cons_self hx
      | cons c' rest' =>
          obtain ⟨rfl, htail⟩ := List.cons.inj h
          obtain ⟨rfl, rfl⟩ := ih (fun hc => hx (List.mem_cons_of_mem c hc))
            (fun hc => hx' (List.mem_cons_of_mem c hc)) htail
          exact ⟨rfl, rfl⟩

/-- **An event's bytes tell the event**, whatever its message holds: the time and the kind
end at the first separators. -/
theorem body_inj {e f : Event τ} {b : Bytes} (he : body D e = some b) (hf : body D f = some b)
    (hse : e.SepFree) (hsf : f.SepFree) : e = f := by
  obtain ⟨kind, msg, hkind, hmsg, hb⟩ := body_eq_some he
  obtain ⟨kind', msg', hkind', hmsg', hb'⟩ := body_eq_some hf
  obtain ⟨hnow, htail⟩ := before_sep_inj (D.repr_sep e.now) (D.repr_sep f.now)
    (hb.symm.trans hb')
  obtain ⟨hk, hm⟩ := before_sep_inj (hse kind hkind) (hsf kind' hkind') htail
  rw [hk] at hkind
  rw [hm] at hmsg
  obtain ⟨now, ekind, emsg⟩ := e
  obtain ⟨now', fkind, fmsg⟩ := f
  obtain rfl := D.repr_inj _ _ hnow
  obtain rfl := encoded_inj hkind hkind'
  obtain rfl := encoded_inj hmsg hmsg'
  rfl

theorem bodies_isSome_iff (events : List (Event τ)) :
    (∃ bs, bodies D events = some bs) ↔ ∀ e ∈ events, e.Encodable := by
  induction events with
  | nil => exact ⟨fun _ e he => absurd he List.not_mem_nil, fun _ => ⟨[], rfl⟩⟩
  | cons e rest ih =>
      rw [List.forall_mem_cons, ← ih, ← body_isSome_iff (D := D)]
      constructor
      · rintro ⟨bs, h⟩
        obtain ⟨b, hb, h⟩ := Option.bind_eq_some_iff.mp h
        obtain ⟨bs', hbs', _⟩ := Option.map_eq_some_iff.mp h
        exact ⟨⟨b, hb⟩, ⟨bs', hbs'⟩⟩
      · rintro ⟨⟨b, hb⟩, ⟨bs, hbs⟩⟩
        refine ⟨b :: bs, ?_⟩
        unfold bodies
        rw [hb, Option.bind_some, hbs]
        rfl

theorem length_bodies {events : List (Event τ)} {bs : List Bytes} (h : bodies D events = some bs) :
    bs.length = events.length := by
  induction events generalizing bs with
  | nil =>
      obtain rfl := Option.some.inj h
      rfl
  | cons e rest ih =>
      obtain ⟨b, _, h⟩ := Option.bind_eq_some_iff.mp h
      obtain ⟨bs', hbs', rfl⟩ := Option.map_eq_some_iff.mp h
      rw [List.length_cons, List.length_cons, ih hbs']

theorem take_bodies {events : List (Event τ)} {bs : List Bytes} (h : bodies D events = some bs)
    (n : ℕ) : bodies D (events.take n) = some (bs.take n) := by
  induction events generalizing bs n with
  | nil =>
      obtain rfl := Option.some.inj h
      simp [bodies]
  | cons e rest ih =>
      obtain ⟨b, hb, h⟩ := Option.bind_eq_some_iff.mp h
      obtain ⟨bs', hbs', rfl⟩ := Option.map_eq_some_iff.mp h
      cases n with
      | zero => rfl
      | succ n =>
          show (body D e).bind _ = _
          rw [hb, Option.bind_some, ih hbs' n]
          rfl

/-- The bytes of events tell the events. -/
theorem bodies_inj {events events' : List (Event τ)} {bs : List Bytes}
    (h : bodies D events = some bs) (h' : bodies D events' = some bs)
    (hs : ∀ e ∈ events, e.SepFree) (hs' : ∀ e ∈ events', e.SepFree) : events = events' := by
  induction events generalizing events' bs with
  | nil =>
      have hlen := length_bodies h'
      obtain rfl := Option.some.inj h
      exact (List.eq_nil_of_length_eq_zero hlen.symm).symm
  | cons e rest ih =>
      obtain ⟨b, hb, h⟩ := Option.bind_eq_some_iff.mp h
      obtain ⟨bs', hbs', rfl⟩ := Option.map_eq_some_iff.mp h
      -- both lists are as long, and their heads have the same bytes
      cases events' with
      | nil => cases h'
      | cons e' rest' =>
          obtain ⟨b', hb', h'⟩ := Option.bind_eq_some_iff.mp h'
          obtain ⟨bs'', hbs'', hcons⟩ := Option.map_eq_some_iff.mp h'
          obtain ⟨rfl, rfl⟩ := List.cons.inj hcons
          rw [body_inj hb hb' (hs e List.mem_cons_self) (hs' e' List.mem_cons_self),
            ih hbs' hbs'' (fun x hx => hs x (List.mem_cons_of_mem e hx))
              fun x hx => hs' x (List.mem_cons_of_mem e' hx)]

/-! ## §5. The chain. -/

/-- **The chain is one fold over the events' bytes.** -/
theorem chainFrom_eq (h : Bytes) (events : List (Event τ)) :
    chainFrom D h events = (bodies D events).map (Lib.chain (digest D) h) := by
  induction events generalizing h with
  | nil => rfl
  | cons e rest ih =>
      unfold chainFrom bodies
      rw [fold_eq]
      cases body D e with
      | none => rfl
      | some b =>
          show (chainFrom D (digest D h b) rest).map _ = _
          rw [ih]
          cases bodies D rest <;> rfl

theorem foldFrom_eq (h : Bytes) (events : List (Event τ)) :
    foldFrom D h events = (bodies D events).map (List.foldl (digest D) h) := by
  induction events generalizing h with
  | nil => rfl
  | cons e rest ih =>
      unfold foldFrom bodies
      rw [fold_eq]
      cases body D e with
      | none => rfl
      | some b =>
          show foldFrom D (digest D h b) rest = _
          rw [ih]
          cases bodies D rest <;> rfl

variable (D) in
/-- What is hashed along a chain. -/
def hashed : Bytes → List Bytes → List Bytes
  | _, [] => []
  | h, b :: rest => (h ++ b) :: hashed (digest D h b) rest

variable (D) in
/-- What is hashed of a sequence of events. -/
def hashedOf (events : List (Event τ)) : List Bytes :=
  ((bodies D events).map (hashed D chainSeed)).getD []

theorem mem_hashed {h b : Bytes} {bs : List Bytes} {i : ℕ} (hb : bs[i]? = some b) :
    (bs.take i).foldl (digest D) h ++ b ∈ hashed D h bs := by
  induction bs generalizing h i with
  | nil => cases hb
  | cons first rest ih =>
      cases i with
      | zero =>
          obtain rfl := Option.some.inj hb
          exact List.mem_cons_self
      | succ i => exact List.mem_cons_of_mem _ (ih hb)

/-- A digest is of sixteen bytes, past the seed. -/
theorem length_foldl_digest (h : Bytes) (bs : List Bytes) :
    (bs.foldl (digest D) h).length = if bs = [] then h.length else 16 := by
  cases bs using List.reverseRecOn with
  | nil => rfl
  | append_singleton rest b =>
      rw [if_neg (by simp), List.foldl_append]
      exact D.length_blake2b _

/-- **Digests tell the bytes**: two chains of one length that end alike are of the same
bytes, where what they hash is told apart. -/
theorem bytes_of_digest {bs bs' : List Bytes}
    (hinj : Set.InjOn D.blake2b {x | x ∈ hashed D chainSeed bs ∨ x ∈ hashed D chainSeed bs'})
    (n : ℕ) (hn : n ≤ bs.length) (hn' : n ≤ bs'.length)
    (h : (bs.take n).foldl (digest D) chainSeed = (bs'.take n).foldl (digest D) chainSeed) :
    bs.take n = bs'.take n := by
  refine eq_of_foldl_join (by rw [List.length_take, List.length_take]; omega) ?_ h
  intro i b b' hb hb' hdigest
  have hi : i < n := by
    have hlt := (List.getElem?_eq_some_iff.mp hb).1
    rw [List.length_take] at hlt
    omega
  rw [List.getElem?_take_of_lt hi] at hb hb'
  rw [List.take_take, List.take_take, Nat.min_eq_left hi.le] at hdigest ⊢
  have hsame := hinj (.inl (mem_hashed hb)) (.inr (mem_hashed hb')) hdigest
  -- both are past as many digests, so what was hashed before is as long
  have hlen : ((bs.take i).foldl (digest D) chainSeed).length =
      ((bs'.take i).foldl (digest D) chainSeed).length := by
    rw [length_foldl_digest, length_foldl_digest]
    have hnil : bs.take i = [] ↔ bs'.take i = [] := by
      rw [List.take_eq_nil_iff, List.take_eq_nil_iff, ← List.length_eq_zero_iff,
        ← List.length_eq_zero_iff]
      omega
    by_cases hz : bs.take i = []
    · rw [if_pos hz, if_pos (hnil.mp hz)]
    · rw [if_neg hz, if_neg fun hz' => hz (hnil.mpr hz')]
  exact List.append_inj hsame hlen

/-! ## §6. The first difference. -/

theorem firstMismatch_none : ∀ {xs ys : List Bytes} {i : ℕ}, firstMismatch xs ys i = none →
    ∀ j, j < xs.length → j < ys.length → xs[j]? = ys[j]?
  | [], _, _, _, j, hj, _ => absurd hj (Nat.not_lt_zero j)
  | x :: xs, [], _, _, j, _, hj => absurd hj (Nat.not_lt_zero j)
  | x :: xs, y :: ys, i, h, j, hj, hj' => by
      unfold firstMismatch at h
      by_cases hxy : x ≠ y
      · rw [if_pos hxy] at h
        cases h
      · rw [if_neg hxy] at h
        cases j with
        | zero => exact congrArg some (not_not.mp hxy)
        | succ j =>
            exact firstMismatch_none h j (Nat.lt_of_succ_lt_succ hj) (Nat.lt_of_succ_lt_succ hj')

theorem firstMismatch_some : ∀ {xs ys : List Bytes} {i k : ℕ}, firstMismatch xs ys i = some k →
    ∃ j, k = i + j ∧ j < xs.length ∧ j < ys.length ∧ xs[j]? ≠ ys[j]? ∧
      ∀ m < j, xs[m]? = ys[m]?
  | [], _, _, _, h => by cases h
  | x :: xs, [], _, _, h => by cases h
  | x :: xs, y :: ys, i, k, h => by
      unfold firstMismatch at h
      by_cases hxy : x ≠ y
      · rw [if_pos hxy, Option.some.injEq] at h
        exact ⟨0, h.symm, Nat.succ_pos _, Nat.succ_pos _, fun heq => hxy (Option.some.inj heq),
          fun m hm => absurd hm (Nat.not_lt_zero m)⟩
      · rw [if_neg hxy] at h
        obtain ⟨j, rfl, hj, hj', hne, hsame⟩ := firstMismatch_some h
        refine ⟨j + 1, by omega, Nat.succ_lt_succ hj, Nat.succ_lt_succ hj', hne, fun m hm => ?_⟩
        cases m with
        | zero => exact congrArg some (not_not.mp hxy)
        | succ m => exact hsame m (Nat.lt_of_succ_lt_succ hm)

/-- The first index at which two sequences differ, a missing event being a difference. -/
def IsFirst (a b : List (Event τ)) (i : ℕ) : Prop := a[i]? ≠ b[i]? ∧ ∀ j < i, a[j]? = b[j]?

/-- **What is to be returned**: nothing for the same sequence, else its first difference,
with what either recorded there and what they shared before. -/
def Localizes (a b : List (Event τ)) (context : ℤ) : Option (Divergence τ) → Prop
  | none => a = b
  | some d => IsFirst a b d.index ∧ d = divergenceAt a b context d.index

section Agree

variable {a b : List (Event τ)} {bs bs' : List Bytes} (ha : bodies D a = some bs)
  (hb : bodies D b = some bs') (hsep : ∀ e, e ∈ a ∨ e ∈ b → e.SepFree)
  (hinj : Set.InjOn D.blake2b {x | x ∈ hashedOf D a ∨ x ∈ hashedOf D b})

include ha hb hsep hinj

/-- **An index at which two chains agree**: all the events up to it are the same. -/
theorem digests_agree_iff {i : ℕ} (hi : i < a.length) (hi' : i < b.length) :
    (Lib.chain (digest D) chainSeed bs)[i]? = (Lib.chain (digest D) chainSeed bs')[i]? ↔
      a.take (i + 1) = b.take (i + 1) := by
  have hlen := length_bodies ha
  have hlen' := length_bodies hb
  -- the digest at `i` folds the first `i + 1` bodies
  have hget : ∀ {l : List Bytes}, i < l.length → (Lib.chain (digest D) chainSeed l)[i]? =
      some ((l.take (i + 1)).foldl (digest D) chainSeed) := by
    intro l hl
    have hsome : i < (Lib.chain (digest D) chainSeed l).length := by rwa [length_chain]
    rw [List.getElem?_eq_getElem hsome,
      (getElem?_chain (List.getElem?_eq_getElem hsome)).2]
  have hinj' : Set.InjOn D.blake2b
      {x | x ∈ hashed D chainSeed bs ∨ x ∈ hashed D chainSeed bs'} := by
    unfold hashedOf at hinj
    rw [ha, hb] at hinj
    exact hinj
  rw [hget (by omega), hget (by omega), Option.some.injEq]
  constructor
  · intro h
    have hbytes := bytes_of_digest hinj' (i + 1) (by omega) (by omega) h
    refine bodies_inj (take_bodies ha (i + 1)) (hbytes ▸ take_bodies hb (i + 1)) ?_ ?_
    · exact fun e he => hsep e (.inl (List.mem_of_mem_take he))
    · exact fun e he => hsep e (.inr (List.mem_of_mem_take he))
  · intro h
    have hbytes : bs.take (i + 1) = bs'.take (i + 1) := by
      have htake := take_bodies ha (i + 1)
      rw [h, take_bodies hb (i + 1), Option.some.injEq] at htake
      exact htake.symm
    rw [hbytes]

/-- Chains that agree up to an index are of sequences that agree up to it. -/
theorem events_agree {n : ℕ} (hn : n ≤ a.length) (hn' : n ≤ b.length)
    (h : ∀ j < n, (Lib.chain (digest D) chainSeed bs)[j]? =
      (Lib.chain (digest D) chainSeed bs')[j]?) : a.take n = b.take n := by
  cases n with
  | zero => rfl
  | succ n => exact (digests_agree_iff ha hb hsep hinj hn hn').mp (h n (Nat.lt_succ_self n))

/-- **The divergence found is the first difference.** -/
theorem firstDivergence_spec (x y : Events τ) (hx : x.list = a) (hy : y.list = b) (context : ℤ) :
    ∃ r, firstDivergence D x y context = some r ∧ Localizes a b context r := by
  subst hx hy
  have hlen := length_bodies ha
  have hlen' := length_bodies hb
  have hget : ∀ {l l' : List (Event τ)} {n j : ℕ}, l.take n = l'.take n → j < n →
      l[j]? = l'[j]? := by
    intro l l' n j htake hj
    rw [← List.getElem?_take_of_lt hj, htake, List.getElem?_take_of_lt hj]
  unfold firstDivergence chainDigests
  rw [chainFrom_eq, chainFrom_eq, ha, hb]
  simp only [Option.map_some, Option.bind_some]
  refine ⟨_, rfl, ?_⟩
  cases hfirst : firstMismatch (Lib.chain (digest D) chainSeed bs)
      (Lib.chain (digest D) chainSeed bs') 0 with
  | some idx =>
      obtain ⟨j, hidx, hj, hj', hne, hsame⟩ := firstMismatch_some hfirst
      rw [Nat.zero_add] at hidx
      subst hidx
      rw [length_chain, hlen] at hj
      rw [length_chain, hlen'] at hj'
      have htake := events_agree ha hb hsep hinj hj.le hj'.le hsame
      refine ⟨⟨fun heq => hne ?_, fun m hm => hget htake hm⟩, rfl⟩
      refine (digests_agree_iff ha hb hsep hinj hj hj').mpr ?_
      rw [List.take_add_one, List.take_add_one, htake]
      exact congrArg (fun e => y.list.take idx ++ Option.toList e) heq
  | none =>
      have hall := firstMismatch_none hfirst
      rw [length_chain, length_chain, hlen, hlen'] at hall
      have htake := events_agree (n := min x.list.length y.list.length) ha hb hsep hinj
        (Nat.min_le_left _ _) (Nat.min_le_right _ _) fun j hj => hall j (by omega) (by omega)
      rw [length_chain, length_chain, hlen, hlen']
      by_cases hsame : x.list.length = y.list.length
      · rw [if_pos hsame]
        rw [hsame, Nat.min_self, List.take_length, ← hsame, List.take_length] at htake
        exact htake
      · rw [if_neg hsame]
        refine ⟨⟨fun heq => ?_, fun m hm => hget htake hm⟩, rfl⟩
        -- one sequence ends there and the other goes on
        change x.list[min x.list.length y.list.length]? =
          y.list[min x.list.length y.list.length]? at heq
        rcases Nat.lt_or_gt_of_ne hsame with hlt | hgt
        · rw [Nat.min_eq_left hlt.le, List.getElem?_eq_none_iff.mpr le_rfl,
            List.getElem?_eq_getElem hlt] at heq
          cases heq
        · rw [Nat.min_eq_right hgt.le, List.getElem?_eq_getElem hgt,
            List.getElem?_eq_none_iff.mpr le_rfl] at heq
          cases heq

end Agree

/-! ## §7. The chain kept while recording. -/

variable (D) in
/-- **The invariant of a trace**: a chain that is kept is the fold of the events. -/
def Trace.Kept (tr : Trace τ) : Prop := tr.hashChain = true → foldAll D tr.events = some tr.chain

theorem foldFrom_concat (h : Bytes) (events : List (Event τ)) (e : Event τ) :
    foldFrom D h (events ++ [e]) = (foldFrom D h events).bind fun h => fold D h e := by
  induction events generalizing h with
  | nil =>
      show (fold D h e).bind some = fold D h e
      exact Option.bind_fun_some _
  | cons first rest ih =>
      show (fold D h first).bind _ = Option.bind ((fold D h first).bind _) _
      rw [Option.bind_assoc]
      exact congrArg _ (funext ih)

theorem Trace.Kept.build {events : List (Event τ)} {hashChain enabled : Bool} {tr : Trace τ}
    (h : Trace.build D events hashChain enabled = some tr) : tr.Kept D := by
  unfold Trace.build at h
  cases hashChain with
  | false =>
      obtain rfl := Option.some.inj h
      exact fun hon => nomatch hon
  | true =>
      rw [if_pos rfl] at h
      obtain ⟨chain, hchain, rfl⟩ := Option.map_eq_some_iff.mp h
      exact fun _ => hchain

/-- **The chain kept while recording** is the fold of what is recorded. -/
theorem Trace.Kept.record {tr tr' : Trace τ} {e : Event τ} (hkept : tr.Kept D)
    (h : tr.record D e = .ok tr') : tr'.Kept D := by
  obtain ⟨events, hashChain, enabled, chain⟩ := tr
  unfold Trace.record at h
  cases enabled with
  | false =>
      obtain rfl := Except.ok.inj h
      exact hkept
  | true =>
      cases hashChain with
      | false =>
          obtain rfl := Except.ok.inj h
          exact fun hon => nomatch hon
      | true =>
          simp only [if_true] at h
          cases hfold : fold D chain e with
          | none =>
              rw [hfold] at h
              cases h
          | some next =>
              rw [hfold] at h
              obtain rfl := Except.ok.inj h
              intro _
              show foldFrom D chainSeed (events ++ [e]) = some next
              rw [foldFrom_concat, show foldFrom D chainSeed events = some chain from hkept rfl]
              exact hfold

theorem Trace.Kept.recordAll {tr tr' : Trace τ} {events : List (Event τ)} (hkept : tr.Kept D)
    (h : tr.recordAll D events = .ok tr') : tr'.Kept D := by
  induction events generalizing tr with
  | nil =>
      obtain rfl := Except.ok.inj h
      exact hkept
  | cons e rest ih =>
      unfold Trace.recordAll at h
      cases hrec : tr.record D e with
      | error left =>
          rw [hrec] at h
          cases h
      | ok next =>
          rw [hrec] at h
          exact ih (hkept.record hrec) h

/-- **Its fingerprint** is that of its events, whenever it is asked. -/
theorem Trace.Kept.fingerprint {tr : Trace τ} (hkept : tr.Kept D) :
    tr.fingerprint D = fingerprintOf D tr.events := by
  unfold Trace.fingerprint
  by_cases hon : tr.hashChain = true
  · rw [if_pos hon]
    unfold fingerprintOf
    rw [hkept hon]
    rfl
  · rw [if_neg hon]
    rfl

theorem foldAll_isSome_iff (events : List (Event τ)) :
    (∃ h, foldAll D events = some h) ↔ ∀ e ∈ events, e.Encodable := by
  unfold foldAll
  rw [foldFrom_eq, ← bodies_isSome_iff (D := D)]
  constructor
  · rintro ⟨h, hh⟩
    obtain ⟨bs, hbs, _⟩ := Option.map_eq_some_iff.mp hh
    exact ⟨bs, hbs⟩
  · rintro ⟨bs, hbs⟩
    exact ⟨_, by rw [hbs]; rfl⟩

/-- An event that has bytes is recorded. -/
theorem Trace.record_encodable {tr : Trace τ} {e : Event τ} (hon : tr.enabled = true)
    (he : e.Encodable) :
    ∃ tr', tr.record D e = .ok tr' ∧ tr'.enabled = true ∧ tr'.events = tr.events ++ [e] := by
  obtain ⟨events, hashChain, enabled, chain⟩ := tr
  obtain rfl : enabled = true := hon
  cases hashChain with
  | false => exact ⟨_, rfl, rfl, rfl⟩
  | true =>
      obtain ⟨b, hb⟩ := (body_isSome_iff (D := D) e).mpr he
      have hfold : fold D chain e = some (digest D chain b) := by
        rw [fold_eq, hb]
        rfl
      refine ⟨⟨events ++ [e], true, true, digest D chain b⟩, ?_, rfl, rfl⟩
      unfold Trace.record
      simp only [if_true, hfold]

/-- Events that have bytes are all recorded. -/
theorem Trace.recordAll_encodable (tr : Trace τ) {events : List (Event τ)}
    (hon : tr.enabled = true) (he : ∀ e ∈ events, e.Encodable) :
    ∃ tr', tr.recordAll D events = .ok tr' ∧ tr'.events = tr.events ++ events := by
  induction events generalizing tr with
  | nil => exact ⟨tr, rfl, (List.append_nil _).symm⟩
  | cons e rest ih =>
      rw [List.forall_mem_cons] at he
      obtain ⟨mid, hmid, honmid, hevents⟩ := record_encodable (D := D) hon he.1
      obtain ⟨tr', hrest, hall⟩ := ih mid honmid he.2
      refine ⟨tr', ?_, ?_⟩
      · unfold Trace.recordAll
        rw [hmid]
        exact hrest
      · rw [hall, hevents, List.append_assoc]
        rfl

/-! ## §8. When both hold. -/

variable (D) in
/-- **The fingerprint kept is the one folded afterwards**, wherever recording starts. -/
def Fingerprinted (events : List (Event τ)) : Prop :=
  ∀ before later, before ++ later = events → ∃ tr tr' f,
    Trace.build D before true true = some tr ∧ tr.recordAll D later = .ok tr' ∧
      tr'.events = events ∧ tr'.fingerprint D = some f ∧ fingerprintOf D events = some f

theorem fingerprinted_iff (events : List (Event τ)) :
    Fingerprinted D events ↔ ∀ e ∈ events, e.Encodable := by
  constructor
  · intro h
    obtain ⟨_, _, f, _, _, _, _, hf⟩ := h events [] (List.append_nil events)
    obtain ⟨d, hd, _⟩ := Option.map_eq_some_iff.mp hf
    exact (foldAll_isSome_iff events).mp ⟨d, hd⟩
  · rintro he before later rfl
    rw [List.forall_mem_append] at he
    obtain ⟨d, hd⟩ := (foldAll_isSome_iff (D := D) before).mpr he.1
    have hbuild : Trace.build D before true true = some ⟨before, true, true, d⟩ := by
      unfold Trace.build
      rw [if_pos rfl, show foldFrom D chainSeed before = some d from hd]
      rfl
    obtain ⟨tr', hall, hevents⟩ :=
      Trace.recordAll_encodable (D := D) ⟨before, true, true, d⟩ rfl he.2
    have hkept := (Trace.Kept.build hbuild).recordAll hall
    obtain ⟨f, hf⟩ := (foldAll_isSome_iff (D := D) (before ++ later)).mpr
      (List.forall_mem_append.mpr he)
    have hprint : fingerprintOf D (before ++ later) = some (hex f) := by
      unfold fingerprintOf
      rw [hf]
      rfl
    refine ⟨_, tr', hex f, hbuild, hall, hevents, ?_, hprint⟩
    rw [hkept.fingerprint, hevents]
    exact hprint

/-- **When both hold**: the first difference is found and every fingerprint kept is the one
folded afterwards, exactly where every text has bytes. -/
theorem localized_iff (x y : Events τ) (context : ℤ)
    (hsep : ∀ e, e ∈ x.list ∨ e ∈ y.list → e.SepFree)
    (hinj : Set.InjOn D.blake2b {z | z ∈ hashedOf D x.list ∨ z ∈ hashedOf D y.list}) :
    ((∃ r, firstDivergence D x y context = some r ∧ Localizes x.list y.list context r) ∧
        Fingerprinted D x.list ∧ Fingerprinted D y.list) ↔
      (∀ e ∈ x.list, e.Encodable) ∧ ∀ e ∈ y.list, e.Encodable := by
  rw [fingerprinted_iff, fingerprinted_iff]
  -- folding afterwards already needs every text's bytes
  constructor
  · exact fun h => h.2
  · intro h
    obtain ⟨bs, hbs⟩ := (bodies_isSome_iff (D := D) x.list).mpr h.1
    obtain ⟨bs', hbs'⟩ := (bodies_isSome_iff (D := D) y.list).mpr h.2
    exact ⟨firstDivergence_spec hbs hbs' hsep hinj x y rfl rfl context, h⟩

/-- Two times, and the digests of three events at them. -/
def timesTable : Hashing Bool where
  repr late := if late then ascii "1.5" else ascii "0.0"
  repr_inj := by decide +kernel
  repr_sep := by decide +kernel
  blake2b b :=
    let first : Bytes := [181, 69, 93, 201, 154, 13, 248, 222, 74, 32, 103, 26, 81, 251, 112, 28]
    if b = chainSeed ++ (ascii "0.0" ++ sep :: (ascii "put" ++ sep :: ascii "x")) then first
    else if b = first ++ (ascii "1.5" ++ sep :: (ascii "get" ++ sep :: ascii "x")) then
      [118, 196, 78, 231, 248, 91, 210, 77, 113, 57, 161, 39, 165, 196, 134, 206]
    else if b = first ++ (ascii "1.5" ++ sep :: (ascii "get" ++ sep :: (ascii "y" ++ [sep]))) then
      [25, 20, 11, 4, 249, 124, 67, 134, 130, 216, 49, 228, 36, 86, 177, 233]
    else List.replicate 16 0
  length_blake2b b := by
    show (if _ then _ else if _ then _ else if _ then _ else _ : Bytes).length = 16
    split_ifs <;> rfl

/-- Two runs that differ in their second message, which in one of them ends in the
separator. -/
theorem localized_second :
    let a : List (Event Bool) := [⟨false, text "put", text "x"⟩, ⟨true, text "get", text "x"⟩]
    let b : List (Event Bool) :=
      [⟨false, text "put", text "x"⟩, ⟨true, text "get", text "y" ++ [0x1f]⟩]
    (∃ r, firstDivergence timesTable (.sequence a) (.sequence b) 3 = some r ∧
      Localizes a b 3 r) ∧ Fingerprinted timesTable a ∧ Fingerprinted timesTable b := by
  intro a b
  have hsep : ∀ e, e ∈ a ∨ e ∈ b → e.SepFree := by
    have hkinds : ∀ e ∈ a ++ b, e.kind = text "put" ∨ e.kind = text "get" := by decide
    intro e he kind hkind
    have hput : encoded (text "put") = some (ascii "put") := by decide +kernel
    have hget : encoded (text "get") = some (ascii "get") := by decide +kernel
    rcases hkinds e (List.mem_append.mpr he) with h | h
    · rw [h, hput, Option.some.injEq] at hkind
      subst hkind
      decide
    · rw [h, hget, Option.some.injEq] at hkind
      subst hkind
      decide
  have hinj : Set.InjOn timesTable.blake2b
      {z | z ∈ hashedOf timesTable a ∨ z ∈ hashedOf timesTable b} := by
    have hkey : ∀ u ∈ hashedOf timesTable a ++ hashedOf timesTable b,
        ∀ v ∈ hashedOf timesTable a ++ hashedOf timesTable b,
          timesTable.blake2b u = timesTable.blake2b v → u = v := by decide +kernel
    exact fun u hu v hv => hkey u (List.mem_append.mpr hu) v (List.mem_append.mpr hv)
  have henc : ∀ e ∈ a ++ b, (∀ c ∈ e.kind.map Fin.val, c.isValidChar) ∧
      ∀ c ∈ e.msg.map Fin.val, c.isValidChar := by decide +kernel
  refine (localized_iff (.sequence a) (.sequence b) 3 hsep hinj).mpr ⟨?_, ?_⟩
  · exact fun e he => henc e (List.mem_append_left b he)
  · exact fun e he => henc e (List.mem_append_right a he)

/-- **A surrogate has no bytes**: a run whose message holds one was recorded, but it is not
compared, even with itself, and has no fingerprint to fold afterwards. -/
theorem surrogate_raises :
    let e : Event Bool := ⟨false, text "k", [0xd800]⟩
    Trace.recordAll timesTable ⟨[], false, true, chainSeed⟩ [e] =
        .ok ⟨[e], false, true, chainSeed⟩ ∧ e.SepFree ∧
      Set.InjOn timesTable.blake2b {z | z ∈ hashedOf timesTable [e]} ∧
      firstDivergence timesTable (.sequence [e]) (.sequence [e]) 3 = none ∧
      fingerprintOf timesTable [e] = none := by
  intro e
  have hkind : encoded (text "k") = some (ascii "k") := by decide +kernel
  have hnothing : hashedOf timesTable [e] = [] := by decide +kernel
  refine ⟨rfl, ?_, ?_, ?_, ?_⟩
  · intro kind h
    obtain rfl := Option.some.inj (hkind.symm.trans h)
    decide
  · intro z hz
    have hz : z ∈ hashedOf timesTable [e] := hz
    rw [hnothing] at hz
    exact absurd hz List.not_mem_nil
  · decide +kernel
  · decide +kernel

end Toso.SimCommon.Tracing
