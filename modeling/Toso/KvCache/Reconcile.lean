/-
  Toso.KvCache.Reconcile — what the volumes were told against what the rows say.

  The run of `Serving` with its data plane: the prefill of each request and what
  it published, the handoff that came or was missed, the chain and the generated
  blocks a decode host keeps, and the tokens the client counted.  `told` is every
  key a put on a host's volume ever named, kept or refused.  The directory is
  assumed of, not modelled: where it is read, it lists a host for a key only if a
  put there named the key.

  Main results:
    * `Recorded.next` — every step keeps the two sides in step.
    * `told_reconciles` — at the end of a run the keys a volume was told are the
      keys the rows imply, no more and no fewer.
-/
import Toso.KvCache.Prefill
import Toso.KvCache.Serving
import Mathlib.Algebra.Order.Floor.Semiring
import Mathlib.Data.Rat.Floor

namespace Toso.KvCache

open Lib Proposed SimCommon Domain

variable {ν ι κ : Type*}

/-! ## §1. Keys past the end of a chain. -/

/-- The loop of `continuation_keys`: `grow acc i` is `f"{acc}|g{i}"`. -/
def growKeys (grow : κ → ℕ → κ) : ℕ → κ → ℕ → List κ
  | 0, _, _ => []
  | count + 1, acc, i => grow acc i :: growKeys grow count (grow acc i) (i + 1)

/-- `continuation_keys`: from the last prompt block, or from the id where there is none. -/
def Request.continuationKeys (grow : κ → ℕ → κ) (root : ν → κ) (request : Request ν κ)
    (count : ℕ) : List κ :=
  growKeys grow count (request.blockKeys.getLast?.getD (root request.id)) 1

/-! ## §2. The data plane. -/

/-- A run's data plane.  `told` is every key a put on a volume named; `stale` the pulls
that raised `KeyError`, `published` the prefills that published, `missed` the handoffs
that found no chain, `resided` the decode hosts done with the chain; `generated` the
tokens of a decode, `received` the tokens the client counted. -/
structure DataPlane (ν ι κ : Type*) where
  serving : Serving ν ι κ
  told : ι → List κ
  stale : List ν
  published : List ν
  missed : List ν
  resided : List ν
  generated : Dict ν ℕ
  received : Dict ν ℕ

/-- What happens next. -/
inductive DataEvent (ν ι κ : Type*)
  /-- A step that moves no KV: an arrival, a report, a clock. -/
  | serve (e : Event ν ι κ)
  | ask (id : ν) (located : κ → List ι)
  /-- The prefix pull, and whether it came back. -/
  | pull (id : ν) (located : κ → List ι) (fetched : Bool)
  /-- The pass, and its publish; `room` is the volume's answer. -/
  | publish (id : ν) (room : Bool)
  | finish (id : ν) (seen : ℚ)
  /-- The handoff, and whether it raised `KeyError`. -/
  | handoff (id : ν) (located : κ → List ι) (missed : Bool)
  /-- The decode host keeps the chain it pulled. -/
  | reside (id : ν) (room : Bool)
  /-- A host with no decode engine answers. -/
  | engineless (id : ν)
  | join (id : ν)
  /-- The last token: `tokens` of them were generated. -/
  | leave (id : ν) (tokens : ℕ)
  /-- The decode host keeps what it generated, and the client has its answer. -/
  | keep (id : ν) (room : Bool)

/-- Events of the serving plane that move no KV. -/
def Event.quiet : Event ν ι κ → Bool
  | .arrive _ _ => true
  | .report _ _ => true
  | .deliver _ => true
  | .busy _ _ => true
  | .tick _ => true
  | _ => false

/-- The response a stage carries, and the phase it is in. -/
def Stage.serving : Stage ι κ → Option (Response ι κ × Phase)
  | .served response phase => some (response, phase)
  | _ => none

namespace Serving

section Reads

variable [DecidableEq ν]

/-- An accepted request and its response. -/
def servedBy (s : Serving ν ι κ) (id : ν) : Option (Request ν κ × Response ι κ) :=
  (s.legs.get? id).bind fun leg => leg.stage.serving.map fun served => (leg.request, served.1)

/-- Where an accepted request stands. -/
def phaseOf (s : Serving ν ι κ) (id : ν) : Option Phase :=
  (s.legs.get? id).bind fun leg => leg.stage.serving.map Prod.snd

end Reads

end Serving

namespace DataPlane

section Step

variable [LinearOrder ι] [DecidableEq κ] [DecidableEq ν]

/-- Nothing served, nothing told. -/
def start (cfg : Settings ι) (now : ℚ) : DataPlane ν ι κ :=
  ⟨Serving.start cfg now, fun _ => [], [], [], [], [], Dict.empty, Dict.empty⟩

/-- A put on `host`'s volume that names `keys`. -/
def tell (host : ι) (keys : List κ) (s : DataPlane ν ι κ) : DataPlane ν ι κ :=
  { s with told := Function.update s.told host (s.told host ++ keys) }

variable (cfg : Settings ι) (grow : κ → ℕ → κ) (root : ν → κ)

/-- The pass of a prefill that was accepted, and what it published. -/
def filled (s : DataPlane ν ι κ) (id : ν) (room : Bool) (request : Request ν κ)
    (response : Response ι κ) : Except PrefillError (Filled ν ι κ) :=
  prefill (fun tokens => prefillTime tokens cfg.profile cfg.model) cfg.blockTokens
    (decide (id ∉ s.stale)) room request response

/-- `_reside`: a set of blocks registered here, unless there are none. -/
def resides (host : ι) (room : Bool) (keys : List κ) (blocks : List (KV κ))
    (s : DataPlane ν ι κ) : Option (DataPlane ν ι κ) :=
  match publish room keys blocks with
  | .error _ => none
  | .ok (_, named) => some (s.tell host (named.map Prod.fst))

/-- The blocks a generation of `tokens` tokens left, past the prompt. -/
def generatedKv (request : Request ν κ) (tokens count : ℕ) : List (KV κ) :=
  kvBlocks cfg.blockTokens ((List.range tokens).map (request.promptTokens + ·)) count

/-- One step, where it is enabled: a host that raises anything else has none. -/
def next (s : DataPlane ν ι κ) : DataEvent ν ι κ → Option (DataPlane ν ι κ)
  | .serve e =>
      if e.quiet then (s.serving.next cfg e).map fun t => { s with serving := t } else none
  | .ask id located =>
      (s.serving.next cfg (.ask id located)).map fun t => { s with serving := t }
  | .pull id located fetched =>
      (s.serving.next cfg (.pull id located)).map fun t =>
        { s with serving := t, stale := if fetched then s.stale else id :: s.stale }
  | .publish id room =>
      if id ∈ s.published then none
      else (s.serving.at? id .prefilling).bind fun (leg, response) =>
        match s.filled cfg id room leg.request response with
        | .error _ => none
        | .ok run => some ({ s with published := id :: s.published }.tell leg.host
            (run.named.map Prod.fst))
  | .finish id seen =>
      if id ∈ s.published then
        (s.serving.next cfg (.finish id seen)).map fun t => { s with serving := t }
      else none
  | .handoff id located missed =>
      (s.serving.at? id .prefilled).map fun (leg, response) =>
        { s with
          serving := s.serving.handoff cfg leg response located
          missed := if missed = true ∧ response.decode ≠ response.prefill ∧
              leg.request.blockKeys ≠ [] then id :: s.missed else s.missed }
  | .reside id room =>
      if id ∈ s.resided then none
      else (s.serving.at? id .handed).bind fun (leg, response) =>
        let s' := { s with resided := id :: s.resided }
        if response.decode = response.prefill ∨ id ∈ s.missed then some s'
        else s'.resides response.decode room leg.request.blockKeys
          (leg.request.blockKeys.map .stored)
  | .engineless id =>
      if id ∈ s.resided then
        (s.serving.at? id .handed).map fun (leg, response) =>
          { s with
            serving := s.serving.setLeg leg.request.id
              { leg with stage := .served response .done }
            received := s.received.set id 1 }
      else none
  | .join id =>
      if id ∈ s.resided then
        (s.serving.at? id .handed).map fun (leg, response) =>
          { s with
            serving := s.serving.join leg response
            generated := if leg.request.decodeTokens = 0 then s.generated.set id 0
              else s.generated }
      else none
  | .leave id tokens =>
      (s.serving.at? id .decoding).map fun (leg, response) =>
        { s with
          serving := s.serving.leave leg response
          generated := s.generated.set id tokens }
  | .keep id room =>
      if (s.received.get? id).isSome then none
      else (s.serving.at? id .done).bind fun (leg, response) =>
        (s.generated.get? id).bind fun tokens =>
          match blocksFor cfg.blockTokens tokens with
          | .error _ => none
          | .ok count => { s with received := s.received.set id (tokens + 1) }.resides
              response.decode room (leg.request.continuationKeys grow root count)
              (generatedKv cfg leg.request tokens count)

/-- The machine of a run. -/
def machine : Machine (DataPlane ν ι κ) (DataEvent ν ι κ) :=
  .ofPartial (fun s => ∃ now, s = start cfg now) (next cfg grow root)

/-- What is assumed of the directory: where a decision reads it, it lists a host for a
key only if a put there named the key. -/
def Listed (s : DataPlane ν ι κ) : DataEvent ν ι κ → Prop
  | .ask id located => ∀ leg ∈ s.serving.legs.get? id, ∀ key ∈ leg.request.blockKeys,
      ∀ host ∈ located key, key ∈ s.told host
  | _ => True

/-- Nobody is on the way any more: no call is being answered, and each accepted request
was served to its end. -/
def Over (s : DataPlane ν ι κ) : Prop :=
  ∀ id leg, s.serving.legs.get? id = some leg → leg.stage ≠ .asking ∧
    ∀ response phase, leg.stage = .served response phase → phase = .done ∧
      (cfg.simulateDecode = true → (s.received.get? id).isSome = true)

end Step

/-! ## §3. Where requests stand. -/

end DataPlane

namespace Serving

section Stands

variable [DecidableEq ν]

theorem servedBy_eq_some {s : Serving ν ι κ} {id : ν} {request : Request ν κ}
    {response : Response ι κ} :
    s.servedBy id = some (request, response) ↔ ∃ leg phase, s.legs.get? id = some leg ∧
      leg.request = request ∧ leg.stage = .served response phase := by
  unfold servedBy
  rw [Option.bind_eq_some_iff]
  constructor
  · rintro ⟨leg, hl, hserved⟩
    cases hs : leg.stage with
    | served r phase =>
        rw [hs] at hserved
        have hpair : (leg.request, r) = (request, response) := Option.some.inj hserved
        rw [Prod.mk.injEq] at hpair
        exact ⟨leg, phase, hl, hpair.1, by rw [hs, hpair.2]⟩
    | asking => rw [hs] at hserved; cases hserved
    | refused => rw [hs] at hserved; cases hserved
    | raised => rw [hs] at hserved; cases hserved
    | lost => rw [hs] at hserved; cases hserved
  · rintro ⟨leg, phase, hl, rfl, hs⟩
    exact ⟨leg, hl, by rw [hs]; rfl⟩

theorem phaseOf_of_served {s : Serving ν ι κ} {id : ν} {leg : Leg ν ι κ}
    {response : Response ι κ} {phase : Phase} (hl : s.legs.get? id = some leg)
    (hs : leg.stage = .served response phase) : s.phaseOf id = some phase := by
  unfold phaseOf
  rw [hl, Option.bind_some, hs]
  rfl

/-- A request with a phase is one that is served. -/
theorem servedBy_of_phaseOf {s : Serving ν ι κ} {id : ν} {phase : Phase}
    (h : s.phaseOf id = some phase) : ∃ leg response, s.legs.get? id = some leg ∧
      leg.stage = .served response phase := by
  unfold phaseOf at h
  obtain ⟨leg, hl, hp⟩ := Option.bind_eq_some_iff.mp h
  cases hs : leg.stage with
  | served response p =>
      rw [hs] at hp
      obtain rfl := Option.some.inj hp
      exact ⟨leg, response, hl, hs⟩
  | asking => rw [hs] at hp; cases hp
  | refused => rw [hs] at hp; cases hp
  | raised => rw [hs] at hp; cases hp
  | lost => rw [hs] at hp; cases hp

/-- A leg replaced: the other requests stand where they stood. -/
theorem reads_set {s t : Serving ν ι κ} {id : ν} {leg : Leg ν ι κ}
    (hlegs : t.legs = s.legs.set id leg) (x : ν) :
    t.servedBy x = (if id = x then leg.stage.serving.map fun served => (leg.request, served.1)
      else s.servedBy x) ∧
    t.phaseOf x = (if id = x then leg.stage.serving.map Prod.snd else s.phaseOf x) := by
  unfold servedBy phaseOf
  rw [hlegs, Dict.get?_set]
  by_cases hx : id = x
  · rw [if_pos hx, if_pos hx, if_pos hx]
    exact ⟨rfl, rfl⟩
  · rw [if_neg hx, if_neg hx, if_neg hx]
    exact ⟨rfl, rfl⟩

/-- A leg replaced: a leg that is there is the new one, or was there. -/
theorem legs_cases {s t : Serving ν ι κ} {id x : ν} {leg l : Leg ν ι κ}
    (hlegs : t.legs = s.legs.set id leg) (hx : t.legs.get? x = some l) :
    (id = x ∧ l = leg) ∨ s.legs.get? x = some l := by
  rw [hlegs] at hx
  exact (Dict.get?_set_cases hx).imp_right And.right

/-- A leg replaced by one of the same request: every request keeps its leg. -/
theorem leg_kept {s t : Serving ν ι κ} {id x : ν} {leg l : Leg ν ι κ}
    (hlegs : t.legs = s.legs.set id leg)
    (hrequest : ∀ l, s.legs.get? id = some l → leg.request = l.request)
    (hl : s.legs.get? x = some l) : ∃ l', t.legs.get? x = some l' ∧ l'.request = l.request := by
  rw [hlegs]
  by_cases hx : id = x
  · subst hx
    exact ⟨leg, Dict.get?_set_self _ _ _, hrequest l hl⟩
  · exact ⟨l, (Dict.get?_set_ne _ _ hx).trans hl, rfl⟩

/-- One phase replaced: a phase that is read is the new one, or was there. -/
theorem phase_cases {s t : Serving ν ι κ} {id x : ν} {q phase : Phase}
    (hphase : ∀ x, t.phaseOf x = if id = x then some q else s.phaseOf x)
    (hx : t.phaseOf x = some phase) : (id = x ∧ phase = q) ∨ s.phaseOf x = some phase := by
  rw [hphase] at hx
  by_cases hid : id = x
  · rw [if_pos hid] at hx
    exact .inl ⟨hid, (Option.some.inj hx).symm⟩
  · rw [if_neg hid] at hx
    exact .inr hx

/-- **A served request in its next phase** is served by what it was. -/
theorem reads_moved {s t : Serving ν ι κ} {id : ν} {leg : Leg ν ι κ} {response : Response ι κ}
    {p q : Phase} (hl : s.legs.get? id = some leg) (hs : leg.stage = .served response p)
    (hlegs : t.legs = s.legs.set id { leg with stage := .served response q }) :
    t.servedBy = s.servedBy ∧ ∀ x, t.phaseOf x = if id = x then some q else s.phaseOf x := by
  refine ⟨funext fun x => ?_, fun x => (reads_set hlegs x).2⟩
  rw [(reads_set hlegs x).1]
  by_cases hx : id = x
  · subst hx
    rw [if_pos rfl]
    exact (servedBy_eq_some.mpr ⟨leg, p, hl, rfl, hs⟩).symm
  · rw [if_neg hx]

/-- A request that is not served stays so in any stage that serves it by nothing. -/
theorem reads_unserved {s t : Serving ν ι κ} {id : ν} {leg : Leg ν ι κ}
    (hlegs : t.legs = s.legs.set id leg) (hnew : leg.stage.serving = none)
    (hold : s.servedBy id = none) : t.servedBy = s.servedBy ∧ t.phaseOf = s.phaseOf := by
  have hphase : s.phaseOf id = none := by
    cases hp : s.phaseOf id with
    | none => rfl
    | some phase =>
        obtain ⟨l, r, hl, hs⟩ := servedBy_of_phaseOf hp
        rw [servedBy_eq_some.mpr ⟨l, phase, hl, rfl, hs⟩] at hold
        cases hold
  constructor <;> funext x
  · rw [(reads_set hlegs x).1]
    by_cases hx : id = x
    · subst hx
      rw [if_pos rfl, hnew, hold]
      rfl
    · rw [if_neg hx]
  · rw [(reads_set hlegs x).2]
    by_cases hx : id = x
    · subst hx
      rw [if_pos rfl, hnew, hphase]
      rfl
    · rw [if_neg hx]

end Stands

section Moves

variable [LinearOrder ι] [DecidableEq κ] [DecidableEq ν] (cfg : Settings ι)
  (s : Serving ν ι κ) (leg : Leg ν ι κ) (response : Response ι κ) (located : κ → List ι)

/-- A fetch moves its own leg, and leaves what is placed alone. -/
theorem fetch_moves (host : ι) (keys : List κ) (priced : Option ι) (after : Phase) :
    (s.fetch cfg leg response host keys priced located after).legs
        = s.legs.set leg.request.id { leg with stage := .served response after } ∧
      (s.fetch cfg leg response host keys priced located after).plane.placed
        = s.plane.placed := by
  obtain ⟨answer, _, heq⟩ := fetch_eq cfg s leg response host keys priced located after
  rw [heq]
  exact ⟨rfl, rfl⟩

theorem pull_moves :
    (s.pull cfg leg response located).legs
        = s.legs.set leg.request.id { leg with stage := .served response .prefilling } ∧
      (s.pull cfg leg response located).plane.placed = s.plane.placed := by
  rcases pull_cases cfg s leg response located with ⟨_, heq⟩ | ⟨m, _, heq⟩
  · rw [heq]
    exact ⟨rfl, rfl⟩
  · rw [heq]
    exact fetch_moves ..

theorem handoff_moves :
    (s.handoff cfg leg response located).legs
        = s.legs.set leg.request.id { leg with stage := .served response .handed } ∧
      (s.handoff cfg leg response located).plane.placed = s.plane.placed := by
  rcases handoff_cases cfg s leg response located with ⟨_, heq⟩ | ⟨_, heq⟩
  · rw [heq]
    exact ⟨rfl, rfl⟩
  · rw [heq]
    exact fetch_moves ..

omit [DecidableEq κ] in
/-- An admitted request decodes, or is done at once. -/
theorem join_moves : ∃ q, (q = .decoding ∨ q = .done) ∧
    (s.join leg response).legs
        = s.legs.set leg.request.id { leg with stage := .served response q } ∧
      (s.join leg response).plane.placed = s.plane.placed := by
  rcases join_cases s leg response with ⟨_, heq⟩ | ⟨_, heq⟩
  · rw [heq]
    exact ⟨.done, .inr rfl, rfl, rfl⟩
  · rw [heq]
    exact ⟨.decoding, .inl rfl, rfl, rfl⟩

/-- A quiet step lets at most a new request in, and places nothing. -/
theorem quiet_moves {cfg : Settings ι} {s t : Serving ν ι κ} {e : Event ν ι κ}
    (hquiet : e.quiet = true) (hst : s.next cfg e = some t) :
    t.plane.placed = s.plane.placed ∧ (t.legs = s.legs ∨ ∃ request host,
      s.legs.get? request.id = none ∧
        t.legs = s.legs.set request.id ⟨request, host, 0, .asking⟩) := by
  cases e with
  | arrive request host =>
      simp only [next, Option.ite_none_left_eq_some, Option.some.injEq] at hst
      obtain ⟨hnew, rfl⟩ := hst
      exact ⟨rfl, .inr ⟨request, host, Option.not_isSome_iff_eq_none.mp hnew, rfl⟩⟩
  | report host estimate =>
      cases hst
      exact ⟨rfl, .inl rfl⟩
  | deliver i =>
      obtain ⟨_, _, rfl⟩ := Option.map_eq_some_iff.mp hst
      exact ⟨rfl, .inl rfl⟩
  | busy host busyUntil =>
      cases hst
      exact ⟨rfl, .inl rfl⟩
  | tick now =>
      simp only [next, Option.ite_none_right_eq_some, Option.some.injEq] at hst
      obtain ⟨_, rfl⟩ := hst
      exact ⟨rfl, .inl rfl⟩
  | ask => cases hquiet
  | pull => cases hquiet
  | finish => cases hquiet
  | handoff => cases hquiet
  | join => cases hquiet
  | leave => cases hquiet

end Moves

end Serving

namespace DataPlane

section Recorded

variable [LinearOrder ι] [DecidableEq κ] [DecidableEq ν] (cfg : Settings ι)
  (grow : κ → ℕ → κ) (root : ν → κ)

/-- The tokens a decode host made, in blocks. -/
def blocksMade (received : ℕ) : ℕ := ⌈((received - 1 : ℕ) : ℚ) / (cfg.blockTokens : ℚ)⌉₊

/-- What one accepted request has put on a host's volume so far: its chain where it was
prefilled, its chain where it was handed to be decoded, and what it generated. -/
def Contributes (s : DataPlane ν ι κ) (id : ν) (request : Request ν κ) (response : Response ι κ)
    (host : ι) (key : κ) : Prop :=
  (id ∈ s.published ∧ response.prefill = host ∧ key ∈ request.blockKeys) ∨
  (id ∈ s.resided ∧ id ∉ s.missed ∧ response.decode = host ∧
    response.decode ≠ response.prefill ∧ key ∈ request.blockKeys) ∨
  (response.decode = host ∧ ∃ n, s.received.get? id = some n ∧
    key ∈ request.continuationKeys grow root (blocksMade cfg n))

/-- **The two sides in step**: what the volumes were told is what the accepted requests
put there, and each record of the data plane belongs to a request that got so far. -/
structure Recorded (s : DataPlane ν ι κ) : Prop where
  id_eq : ∀ id leg, s.serving.legs.get? id = some leg → leg.request.id = id
  host : ∀ id leg response phase, s.serving.legs.get? id = some leg →
    leg.stage = .served response phase → leg.host = response.prefill
  reused : ∀ id request response, s.serving.servedBy id = some (request, response) →
    ∀ key ∈ request.blockKeys.take response.plan.localBlocks, key ∈ s.told response.prefill
  placed : ∀ id response, s.serving.plane.placed.get? id = some response →
    ∃ leg, s.serving.legs.get? id = some leg ∧
      ∀ key ∈ leg.request.blockKeys.take response.plan.localBlocks, key ∈ s.told response.prefill
  told : ∀ host key, key ∈ s.told host ↔ ∃ id request response,
    s.serving.servedBy id = some (request, response) ∧
      s.Contributes cfg grow root id request response host key
  published : ∀ id ∈ s.published, ∃ phase, s.serving.phaseOf id = some phase
  past : ∀ id phase, s.serving.phaseOf id = some phase →
    phase = .prefilled ∨ phase = .handed ∨ phase = .decoding ∨ phase = .done → id ∈ s.published
  simulated : ∀ id phase, s.serving.phaseOf id = some phase →
    phase = .prefilled ∨ phase = .handed ∨ phase = .decoding → cfg.simulateDecode = true
  resided : ∀ id ∈ s.resided, cfg.simulateDecode = true ∧ ∃ phase,
    s.serving.phaseOf id = some phase ∧ (phase = .handed ∨ phase = .decoding ∨ phase = .done)
  decoding : ∀ id, s.serving.phaseOf id = some .decoding → id ∈ s.resided
  generated : ∀ id, (s.generated.get? id).isSome = true → id ∈ s.resided
  received : ∀ id, (s.received.get? id).isSome = true →
    id ∈ s.resided ∧ s.serving.phaseOf id = some .done

omit [DecidableEq κ] in
theorem recorded_start (now : ℚ) : (start cfg now : DataPlane ν ι κ).Recorded cfg grow root := by
  have hempty : ∀ id, (start cfg now : DataPlane ν ι κ).serving.legs.get? id = none :=
    fun _ => rfl
  constructor
  case id_eq =>
    intro id leg hl
    rw [hempty] at hl
    cases hl
  case host =>
    intro id leg response phase hl
    rw [hempty] at hl
    cases hl
  case reused =>
    intro id request response hserved
    obtain ⟨leg, _, hl, _⟩ := Serving.servedBy_eq_some.mp hserved
    rw [hempty] at hl
    cases hl
  case placed =>
    intro id response hp
    cases hp
  case told =>
    intro host key
    constructor
    · intro hmem
      cases hmem
    · rintro ⟨id, request, response, hserved, _⟩
      obtain ⟨leg, _, hl, _⟩ := Serving.servedBy_eq_some.mp hserved
      rw [hempty] at hl
      cases hl
  case published => exact nofun
  case past =>
    intro id phase hp
    obtain ⟨leg, _, hl, _⟩ := Serving.servedBy_of_phaseOf hp
    rw [hempty] at hl
    cases hl
  case simulated =>
    intro id phase hp
    obtain ⟨leg, _, hl, _⟩ := Serving.servedBy_of_phaseOf hp
    rw [hempty] at hl
    cases hl
  case resided => exact nofun
  case decoding =>
    intro id hp
    obtain ⟨leg, _, hl, _⟩ := Serving.servedBy_of_phaseOf hp
    rw [hempty] at hl
    cases hl
  case generated => exact nofun
  case received => exact nofun

/-! ## §4. What keeps them in step. -/

variable {cfg grow root} {s t : DataPlane ν ι κ}

omit [LinearOrder ι] [DecidableEq κ] in
/-- What a request contributes is read off its own records. -/
theorem contributes_congr {id : ν} (hpub : id ∈ t.published ↔ id ∈ s.published)
    (hres : id ∈ t.resided ↔ id ∈ s.resided)
    (hmiss : id ∈ s.resided → (id ∈ t.missed ↔ id ∈ s.missed))
    (hrec : t.received.get? id = s.received.get? id) (request : Request ν κ)
    (response : Response ι κ) (host : ι) (key : κ) :
    t.Contributes cfg grow root id request response host key ↔
      s.Contributes cfg grow root id request response host key := by
  unfold Contributes
  rw [hpub, hres, hrec]
  refine or_congr Iff.rfl (or_congr ?_ Iff.rfl)
  constructor
  · rintro ⟨hr, hm, hrest⟩
    exact ⟨hr, fun hmem => hm ((hmiss hr).mpr hmem), hrest⟩
  · rintro ⟨hr, hm, hrest⟩
    exact ⟨hr, fun hmem => hm ((hmiss hr).mp hmem), hrest⟩

omit [LinearOrder ι] [DecidableEq κ] in
/-- The volumes were told what they were, and so it still is what the requests put there. -/
theorem Recorded.told_same (h : s.Recorded cfg grow root)
    (hserved : t.serving.servedBy = s.serving.servedBy) (htold : t.told = s.told)
    (hpub : t.published = s.published) (hres : t.resided = s.resided)
    (hmiss : ∀ x ∈ s.resided, (x ∈ t.missed ↔ x ∈ s.missed)) (hrec : t.received = s.received)
    (host : ι) (key : κ) : key ∈ t.told host ↔ ∃ id request response,
      t.serving.servedBy id = some (request, response) ∧
        t.Contributes cfg grow root id request response host key := by
  have hsame : ∀ (x : ν) (request : Request ν κ) (r : Response ι κ),
      s.Contributes cfg grow root x request r host key ↔
        t.Contributes cfg grow root x request r host key := by
    intro x request r
    exact (contributes_congr (by rw [hpub]) (by rw [hres]) (hmiss x) (by rw [hrec])
      request r host key).symm
  rw [htold, h.told, hserved]
  simp only [hsame]

omit [LinearOrder ι] [DecidableEq κ] in
/-- **A served request moves on** to its next phase. -/
theorem Recorded.moved (h : s.Recorded cfg grow root) {id : ν} {leg : Leg ν ι κ}
    {response : Response ι κ} {p q : Phase} (hl : s.serving.legs.get? id = some leg)
    (hs : leg.stage = .served response p)
    (hlegs : t.serving.legs = s.serving.legs.set id { leg with stage := .served response q })
    (hplaced : t.serving.plane.placed = s.serving.plane.placed)
    (htold : t.told = s.told) (hpub : t.published = s.published) (hres : t.resided = s.resided)
    (hrec : t.received = s.received)
    (hmiss : ∀ x ∈ s.resided, (x ∈ t.missed ↔ x ∈ s.missed))
    (hgen : ∀ x, (t.generated.get? x).isSome = true → x ∈ s.resided)
    (hpast : q = .prefilled ∨ q = .handed ∨ q = .decoding ∨ q = .done → id ∈ s.published)
    (hsim : q = .prefilled ∨ q = .handed ∨ q = .decoding → cfg.simulateDecode = true)
    (hstay : id ∈ s.resided → q = .handed ∨ q = .decoding ∨ q = .done)
    (hdec : q = .decoding → id ∈ s.resided) (hdone : p ≠ .done) : t.Recorded cfg grow root := by
  obtain ⟨hserved, hphase⟩ := Serving.reads_moved hl hs hlegs
  constructor
  case id_eq =>
    intro x l hx
    rcases Serving.legs_cases hlegs hx with ⟨rfl, rfl⟩ | hold
    · exact h.id_eq id leg hl
    · exact h.id_eq x l hold
  case host =>
    intro x l r phase hx hr
    rcases Serving.legs_cases hlegs hx with ⟨rfl, rfl⟩ | hold
    · have hsame : Stage.served response q = .served r phase := hr
      cases hsame
      exact h.host id leg response p hl hs
    · exact h.host x l r phase hold hr
  case reused =>
    rw [hserved, htold]
    exact h.reused
  case placed =>
    intro x r hx
    rw [hplaced] at hx
    obtain ⟨l, hold, hkeys⟩ := h.placed x r hx
    -- the leg is the same but for its stage
    have hrequest : ∀ l, s.serving.legs.get? id = some l → leg.request = l.request :=
      fun l hl' => congrArg Leg.request (Option.some.inj (hl.symm.trans hl'))
    obtain ⟨l', hl', heq⟩ := Serving.leg_kept hlegs hrequest hold
    refine ⟨l', hl', ?_⟩
    rw [heq, htold]
    exact hkeys
  case told => exact h.told_same hserved htold hpub hres hmiss hrec
  case published =>
    intro x hx
    rw [hpub] at hx
    rw [hphase]
    by_cases hid : id = x
    · exact ⟨q, if_pos hid⟩
    · rw [if_neg hid]
      exact h.published x hx
  case past =>
    intro x phase hx hcase
    rw [hpub]
    rcases Serving.phase_cases hphase hx with ⟨rfl, rfl⟩ | hold
    · exact hpast hcase
    · exact h.past x phase hold hcase
  case simulated =>
    intro x phase hx hcase
    rcases Serving.phase_cases hphase hx with ⟨rfl, rfl⟩ | hold
    · exact hsim hcase
    · exact h.simulated x phase hold hcase
  case resided =>
    intro x hx
    rw [hres] at hx
    rw [hphase]
    refine ⟨(h.resided x hx).1, ?_⟩
    by_cases hid : id = x
    · rw [if_pos hid]
      -- blocks reside from the handoff on
      exact ⟨q, rfl, hstay (hid ▸ hx)⟩
    · rw [if_neg hid]
      exact (h.resided x hx).2
  case decoding =>
    intro x hx
    rw [hres]
    rcases Serving.phase_cases hphase hx with ⟨rfl, hq⟩ | hold
    · exact hdec hq.symm
    · exact h.decoding x hold
  case generated =>
    intro x hx
    rw [hres]
    exact hgen x hx
  case received =>
    intro x hx
    rw [hrec] at hx
    rw [hres, hphase]
    obtain ⟨hr, hp⟩ := h.received x hx
    refine ⟨hr, ?_⟩
    by_cases hid : id = x
    · -- a request with a count is done, and does not move on
      subst hid
      rw [Serving.phaseOf_of_served hl hs] at hp
      exact absurd (Option.some.inj hp) hdone
    · rw [if_neg hid]
      exact hp

omit [LinearOrder ι] [DecidableEq κ] in
/-- A leg that is served by nobody yet: it arrives, waits on, or ends unserved. -/
theorem Recorded.unserved (h : s.Recorded cfg grow root) {id : ν} {leg : Leg ν ι κ}
    (hlegs : t.serving.legs = s.serving.legs.set id leg) (hid : leg.request.id = id)
    (hstage : leg.stage.serving = none) (hold : s.serving.servedBy id = none)
    (hrequest : ∀ l, s.serving.legs.get? id = some l → leg.request = l.request)
    (hplaced : ∀ x r, t.serving.plane.placed.get? x = some r →
      s.serving.plane.placed.get? x = some r ∨ (x = id ∧
        ∀ key ∈ leg.request.blockKeys.take r.plan.localBlocks, key ∈ s.told r.prefill))
    (hrest : t = { s with serving := t.serving }) : t.Recorded cfg grow root := by
  obtain ⟨hserved, hphase⟩ := Serving.reads_unserved hlegs hstage hold
  -- nothing is told, published or resided: only the leg and the plane moved
  have htold : t.told = s.told := by rw [hrest]
  have hpub : t.published = s.published := by rw [hrest]
  have hres : t.resided = s.resided := by rw [hrest]
  have hmiss : t.missed = s.missed := by rw [hrest]
  have hgen : t.generated = s.generated := by rw [hrest]
  have hrec : t.received = s.received := by rw [hrest]
  constructor
  case id_eq =>
    intro x l hx
    rcases Serving.legs_cases hlegs hx with ⟨rfl, rfl⟩ | hx
    · exact hid
    · exact h.id_eq x l hx
  case host =>
    intro x l r phase hx hr
    rcases Serving.legs_cases hlegs hx with ⟨rfl, rfl⟩ | hx
    · rw [hr] at hstage
      cases hstage
    · exact h.host x l r phase hx hr
  case reused =>
    rw [hserved, htold]
    exact h.reused
  case placed =>
    intro x r hx
    rw [htold]
    rcases hplaced x r hx with hx | ⟨rfl, hkeys⟩
    · obtain ⟨l, hl, hkeys⟩ := h.placed x r hx
      obtain ⟨l', hl', heq⟩ := Serving.leg_kept hlegs hrequest hl
      refine ⟨l', hl', ?_⟩
      rw [heq]
      exact hkeys
    · exact ⟨leg, by rw [hlegs, Dict.get?_set_self], hkeys⟩
  case told =>
    exact h.told_same hserved htold hpub hres (fun _ _ => by rw [hmiss]) hrec
  case published =>
    rw [hpub, hphase]
    exact h.published
  case past =>
    rw [hpub, hphase]
    exact h.past
  case simulated =>
    rw [hphase]
    exact h.simulated
  case resided =>
    rw [hres, hphase]
    exact h.resided
  case decoding =>
    rw [hres, hphase]
    exact h.decoding
  case generated =>
    rw [hres, hgen]
    exact h.generated
  case received =>
    rw [hres, hrec, hphase]
    exact h.received

omit [LinearOrder ι] [DecidableEq κ] in
/-- A request nobody served has no records. -/
theorem Recorded.no_records (h : s.Recorded cfg grow root) {id : ν}
    (hold : s.serving.servedBy id = none) :
    id ∉ s.published ∧ id ∉ s.resided ∧ s.received.get? id = none := by
  have hphase : ∀ phase, s.serving.phaseOf id ≠ some phase := by
    intro phase hp
    obtain ⟨l, r, hl, hs⟩ := Serving.servedBy_of_phaseOf hp
    rw [Serving.servedBy_eq_some.mpr ⟨l, phase, hl, rfl, hs⟩] at hold
    cases hold
  have hres : id ∉ s.resided := by
    intro hmem
    obtain ⟨_, phase, hp, _⟩ := h.resided id hmem
    exact hphase phase hp
  refine ⟨?_, hres, ?_⟩
  · intro hmem
    obtain ⟨phase, hp⟩ := h.published id hmem
    exact hphase phase hp
  · cases hrec : s.received.get? id with
    | none => rfl
    | some n => exact absurd (h.received id (by rw [hrec]; rfl)).1 hres

omit [LinearOrder ι] [DecidableEq κ] in
/-- A request with no records has put nothing anywhere. -/
theorem not_contributes {id : ν} (hpub : id ∉ s.published) (hres : id ∉ s.resided)
    (hrec : s.received.get? id = none) {request : Request ν κ} {response : Response ι κ}
    {host : ι} {key : κ} : ¬ s.Contributes cfg grow root id request response host key := by
  rintro (⟨hp, _⟩ | ⟨hr, _⟩ | ⟨_, n, hn, _⟩)
  · exact hpub hp
  · exact hres hr
  · rw [hrec] at hn
    cases hn

omit [LinearOrder ι] [DecidableEq κ] in
/-- A leg just accepted, its local prefix told where it prefills. -/
theorem Recorded.accepted (h : s.Recorded cfg grow root) {id : ν} {leg : Leg ν ι κ}
    {response : Response ι κ} (hl : s.serving.legs.get? id = some leg)
    (hstage : leg.stage = .asking) (hhere : response.prefill = leg.host)
    (hlegs : t.serving.legs = s.serving.legs.set id
      { leg with stage := .served response .accepted })
    (hplaced : ∀ x r, t.serving.plane.placed.get? x = some r →
      s.serving.plane.placed.get? x = some r)
    (hkeys : ∀ key ∈ leg.request.blockKeys.take response.plan.localBlocks,
      key ∈ s.told response.prefill)
    (hrest : t = { s with serving := t.serving }) : t.Recorded cfg grow root := by
  have hnone : s.serving.servedBy id = none := by
    unfold Serving.servedBy
    rw [hl, Option.bind_some, hstage]
    rfl
  obtain ⟨hnopub, hnores, hnorec⟩ := h.no_records hnone
  have htold : t.told = s.told := by rw [hrest]
  have hpub : t.published = s.published := by rw [hrest]
  have hres : t.resided = s.resided := by rw [hrest]
  have hmiss : t.missed = s.missed := by rw [hrest]
  have hgen : t.generated = s.generated := by rw [hrest]
  have hrec : t.received = s.received := by rw [hrest]
  have hread := Serving.reads_set hlegs
  have hserved : ∀ x, t.serving.servedBy x = if id = x then some (leg.request, response)
      else s.serving.servedBy x := fun x => (hread x).1
  have hphase : ∀ x, t.serving.phaseOf x = if id = x then some .accepted
      else s.serving.phaseOf x := fun x => (hread x).2
  -- the requests with records stand where they stood
  have hother : ∀ x, x ≠ id → t.serving.phaseOf x = s.serving.phaseOf x := by
    intro x hx
    rw [hphase, if_neg (Ne.symm hx)]
  constructor
  case id_eq =>
    intro x l hx
    rcases Serving.legs_cases hlegs hx with ⟨rfl, rfl⟩ | hx
    · exact h.id_eq id leg hl
    · exact h.id_eq x l hx
  case host =>
    intro x l r phase hx hr
    rcases Serving.legs_cases hlegs hx with ⟨rfl, rfl⟩ | hx
    · have heq : Stage.served response .accepted = .served r phase := hr
      cases heq
      exact hhere.symm
    · exact h.host x l r phase hx hr
  case reused =>
    intro x request r hx
    rw [htold]
    rw [hserved] at hx
    by_cases hxid : id = x
    · rw [if_pos hxid] at hx
      cases hx
      exact hkeys
    · rw [if_neg hxid] at hx
      exact h.reused x request r hx
  case placed =>
    intro x r hx
    rw [htold]
    obtain ⟨l, hxl, hkeys⟩ := h.placed x r (hplaced x r hx)
    have hrequest : ∀ l, s.serving.legs.get? id = some l → leg.request = l.request :=
      fun l hl' => congrArg Leg.request (Option.some.inj (hl.symm.trans hl'))
    obtain ⟨l', hl', heq⟩ := Serving.leg_kept hlegs hrequest hxl
    refine ⟨l', hl', ?_⟩
    rw [heq]
    exact hkeys
  case told =>
    intro host key
    have hsame : ∀ (x : ν) (request : Request ν κ) (r : Response ι κ),
        t.Contributes cfg grow root x request r host key ↔
          s.Contributes cfg grow root x request r host key := by
      intro x request r
      exact contributes_congr (by rw [hpub]) (by rw [hres]) (fun _ => by rw [hmiss])
        (by rw [hrec]) request r host key
    rw [htold, h.told]
    simp only [hsame]
    constructor
    · rintro ⟨x, request, r, hx, hc⟩
      have hxid : ¬ id = x := by
        intro heq
        rw [← heq, hnone] at hx
        cases hx
      refine ⟨x, request, r, ?_, hc⟩
      rw [hserved, if_neg hxid]
      exact hx
    · rintro ⟨x, request, r, hx, hc⟩
      have hxid : ¬ id = x := by
        intro heq
        subst heq
        exact not_contributes hnopub hnores hnorec hc
      rw [hserved, if_neg hxid] at hx
      exact ⟨x, request, r, hx, hc⟩
  case published =>
    intro x hx
    rw [hpub] at hx
    rw [hother x fun heq => hnopub (heq ▸ hx)]
    exact h.published x hx
  case past =>
    intro x phase hx hcase
    rw [hpub]
    rcases Serving.phase_cases hphase hx with ⟨_, rfl⟩ | hold
    · rcases hcase with hc | hc | hc | hc <;> cases hc
    · exact h.past x phase hold hcase
  case simulated =>
    intro x phase hx hcase
    rcases Serving.phase_cases hphase hx with ⟨_, rfl⟩ | hold
    · rcases hcase with hc | hc | hc <;> cases hc
    · exact h.simulated x phase hold hcase
  case resided =>
    intro x hx
    rw [hres] at hx
    rw [hother x fun heq => hnores (heq ▸ hx)]
    exact h.resided x hx
  case decoding =>
    intro x hx
    rw [hres]
    rcases Serving.phase_cases hphase hx with ⟨_, hq⟩ | hold
    · cases hq
    · exact h.decoding x hold
  case generated =>
    rw [hres, hgen]
    exact h.generated
  case received =>
    intro x hx
    rw [hrec] at hx
    obtain ⟨hr, hp⟩ := h.received x hx
    rw [hres, hother x fun heq => hnores (heq ▸ hr)]
    exact ⟨hr, hp⟩

omit [DecidableEq κ] in
/-- **What an answer does to the leg that asked.** -/
theorem Recorded.answered (h : s.Recorded cfg grow root) {leg : Leg ν ι κ}
    {response : Response ι κ} (hl : s.serving.legs.get? leg.request.id = some leg)
    (hstage : leg.stage = .asking)
    (hlegs : t.serving.legs = s.serving.legs.set leg.request.id
      (Serving.answered leg (some response)))
    (hplaced : ∀ x r, t.serving.plane.placed.get? x = some r →
      s.serving.plane.placed.get? x = some r ∨
        (x = leg.request.id ∧ r = response ∧ response.prefill ≠ leg.host))
    (hkeys : ∀ key ∈ leg.request.blockKeys.take response.plan.localBlocks,
      key ∈ s.told response.prefill)
    (hrest : t = { s with serving := t.serving }) : t.Recorded cfg grow root := by
  have hnone : s.serving.servedBy leg.request.id = none := by
    unfold Serving.servedBy
    rw [hl, Option.bind_some, hstage]
    rfl
  by_cases hhere : response.prefill = leg.host
  · rw [Serving.answered_here hhere] at hlegs
    refine h.accepted hl hstage hhere hlegs (fun x r hx => ?_) hkeys hrest
    rcases hplaced x r hx with hold | ⟨_, _, hne⟩
    · exact hold
    · exact absurd hhere hne
  · -- sent on, or lost: the leg is served by nobody either way
    have hleg : (Serving.answered leg (some response)).stage.serving = none ∧
        (Serving.answered leg (some response)).request = leg.request := by
      simp only [Serving.answered, if_neg hhere]
      by_cases hhops : leg.hops + 1 < maxHops
      · rw [if_pos hhops]
        exact ⟨by rw [hstage]; rfl, rfl⟩
      · rw [if_neg hhops]
        exact ⟨rfl, rfl⟩
    refine h.unserved hlegs (by rw [hleg.2]) hleg.1 hnone ?_ ?_ hrest
    · intro l hl'
      obtain rfl := Option.some.inj (hl.symm.trans hl')
      exact hleg.2
    · intro x r hx
      rcases hplaced x r hx with hold | ⟨hxid, rfl, _⟩
      · exact .inl hold
      · refine .inr ⟨hxid, ?_⟩
        rw [hleg.2]
        exact hkeys

/-- What one ask does, with where a fresh answer was priced. -/
theorem ask_priced (cfg : Settings ι) (s : Serving ν ι κ) (leg : Leg ν ι κ)
    (located : κ → List ι) :
    (∃ placed, s.plane.placed.get? leg.request.id = some placed ∧
      s.ask cfg leg located =
        { s.setLeg leg.request.id (Serving.answered leg (some placed)) with
          plane := { s.plane with placed := s.plane.placed.erase leg.request.id } }) ∨
    s.ask cfg leg located = s.setLeg leg.request.id { leg with stage := .raised } ∨
    s.ask cfg leg located = s.setLeg leg.request.id { leg with stage := .refused } ∨
    ∃ response d, s.ask cfg leg located = s.booked leg response ∧
      Scheduler.price cfg s.plane located s.clock leg.request leg.host = .ok d ∧
      d.answer = some response := by
  unfold Serving.ask
  cases h : s.plane.decide cfg located s.clock leg.request leg.host with
  | error e => exact .inr (.inl rfl)
  | ok d =>
      rcases Scheduler.decide_cases h with ⟨placed, hp, rfl⟩ | ⟨hp, rfl⟩ | ⟨hp, response, rfl⟩
      · refine .inl ⟨placed, hp, ?_⟩
        simp [Serving.setLeg]
      · refine .inr (.inr (.inl ?_))
        simp [Serving.setLeg, Serving.answered]
      · unfold Scheduler.decide at h
        rw [hp] at h
        exact .inr (.inr (.inr ⟨response, _, rfl, h, rfl⟩))

/-- **An ask keeps them in step**: what a plan counts on finding at its own host was
put there, by the directory's word. -/
theorem Recorded.asked (h : s.Recorded cfg grow root) {id : ν} {located : κ → List ι}
    (hlisted : s.Listed (.ask id located)) {u : Serving ν ι κ}
    (hst : s.serving.next cfg (.ask id located) = some u) :
    ({ s with serving := u } : DataPlane ν ι κ).Recorded cfg grow root := by
  obtain ⟨leg, hl, hstage, rfl⟩ := Serving.next_ask hst
  obtain rfl := h.id_eq id leg hl
  have hnone : s.serving.servedBy leg.request.id = none := by
    unfold Serving.servedBy
    rw [hl, Option.bind_some, hstage]
    rfl
  have hsame : ∀ l, s.serving.legs.get? leg.request.id = some l → leg.request = l.request := by
    intro l hl'
    rw [Option.some.inj (hl.symm.trans hl')]
  rcases ask_priced cfg s.serving leg located with ⟨placed, hp, hask⟩ | hask | hask |
    ⟨response, d, hask, hprice, hanswer⟩
  · rw [hask]
    obtain ⟨l, hl', hkeys⟩ := h.placed _ placed hp
    obtain rfl := Option.some.inj (hl.symm.trans hl')
    refine h.answered hl hstage rfl (fun x r hx => .inl ?_) hkeys rfl
    have herase : (s.serving.plane.placed.erase leg.request.id).get? x = some r := hx
    rw [Dict.get?_erase] at herase
    by_cases hxid : leg.request.id = x
    · rw [if_pos hxid] at herase
      cases herase
    · rw [if_neg hxid] at herase
      exact herase
  · rw [hask]
    exact h.unserved rfl rfl rfl hnone hsame (fun x r hx => .inl hx) rfl
  · rw [hask]
    exact h.unserved rfl rfl rfl hnone hsame (fun x r hx => .inl hx) rfl
  · rw [hask]
    obtain ⟨plan, hplan, hthis⟩ := price_plan hprice hanswer
    have hlocal := (priced_fits hplan response.prefill).2
    rw [← hthis] at hlocal
    have hkeys : ∀ key ∈ leg.request.blockKeys.take response.plan.localBlocks,
        key ∈ s.told response.prefill := by
      intro key hkey
      exact hlisted leg hl key (List.mem_of_mem_take hkey) response.prefill
        (located_of_counted located leg.request.blockKeys response.prefill _ hlocal key hkey)
    refine h.answered hl hstage rfl (fun x r hx => ?_) hkeys rfl
    have hbook : (s.serving.plane.book leg.request leg.host response).plane.placed.get? x
        = some r := hx
    rw [Scheduler.book_placed] at hbook
    by_cases hhere : response.prefill = leg.host
    · rw [if_pos hhere] at hbook
      exact .inl hbook
    · rw [if_neg hhere] at hbook
      cases Dict.get?_set_cases hbook with
      | inl hnew => exact .inr ⟨hnew.1.symm, hnew.2, hhere⟩
      | inr hold => exact .inl hold.2

omit [LinearOrder ι] [DecidableEq κ] in
/-- A request that was not handed to a decode host has no chain there. -/
theorem Recorded.not_resided (h : s.Recorded cfg grow root) {id : ν} {phase : Phase}
    (hphase : s.serving.phaseOf id = some phase) (hhanded : phase ≠ .handed)
    (hdecoding : phase ≠ .decoding) (hdone : phase ≠ .done) : id ∉ s.resided := by
  intro hmem
  obtain ⟨_, phase', hp, hcase⟩ := h.resided id hmem
  obtain rfl := Option.some.inj (hphase.symm.trans hp)
  rcases hcase with hc | hc | hc
  · exact hhanded hc
  · exact hdecoding hc
  · exact hdone hc

/-! ### Puts. -/

omit [DecidableEq ν] in
/-- A record that stays as it is, as a put would add to it. -/
theorem mem_or_self (l : List ν) (id x : ν) : x ∈ l ↔ x ∈ l ∨ (x = id ∧ id ∈ l) := by
  constructor
  · exact .inl
  · rintro (hx | ⟨rfl, hx⟩) <;> exact hx

omit [DecidableEq ν] in
/-- A record that takes the request a put is for. -/
theorem mem_cons_or_self (l : List ν) (id x : ν) :
    x ∈ id :: l ↔ x ∈ l ∨ (x = id ∧ id ∈ id :: l) := by
  simp only [List.mem_cons, true_or, and_true]
  exact or_comm

omit [LinearOrder ι] [DecidableEq κ] in
/-- **A put is told** exactly what one request contributes by it. -/
theorem Recorded.telling (h : s.Recorded cfg grow root) (id : ν) (host : ι) (keys new : List κ)
    (hserving : t.serving = s.serving)
    (htold : ∀ x key, key ∈ t.told x ↔ key ∈ s.told x ∨ (x = host ∧ key ∈ keys))
    {request : Request ν κ} {response : Response ι κ}
    (hserved : s.serving.servedBy id = some (request, response))
    (hcontrib : ∀ x rq r, s.serving.servedBy x = some (rq, r) → ∀ y key,
      (t.Contributes cfg grow root x rq r y key ↔
        s.Contributes cfg grow root x rq r y key ∨ (x = id ∧ y = host ∧ key ∈ new)))
    (hkeys : ∀ key ∈ keys, key ∈ new) (hnew : ∀ key ∈ new, key ∈ keys ∨ key ∈ s.told host)
    (hpub : ∀ x, x ∈ t.published ↔ x ∈ s.published ∨ (x = id ∧ id ∈ t.published))
    (hres : ∀ x, x ∈ t.resided ↔ x ∈ s.resided ∨ (x = id ∧ id ∈ t.resided))
    (hstay : id ∈ t.resided → cfg.simulateDecode = true ∧ ∃ phase,
      s.serving.phaseOf id = some phase ∧ (phase = .handed ∨ phase = .decoding ∨ phase = .done))
    (hgen : t.generated = s.generated)
    (hrec : ∀ x, (t.received.get? x).isSome = true → (s.received.get? x).isSome = true ∨
      (x = id ∧ id ∈ s.resided ∧ s.serving.phaseOf id = some .done)) :
    t.Recorded cfg grow root := by
  have hmono : ∀ x key, key ∈ s.told x → key ∈ t.told x :=
    fun x key hkey => (htold x key).mpr (.inl hkey)
  have hgrew : ∀ x, x ∈ s.resided → x ∈ t.resided := fun x hx => (hres x).mpr (.inl hx)
  constructor
  case id_eq =>
    rw [hserving]
    exact h.id_eq
  case host =>
    rw [hserving]
    exact h.host
  case reused =>
    rw [hserving]
    intro x rq r hx key hkey
    exact hmono _ _ (h.reused x rq r hx key hkey)
  case placed =>
    rw [hserving]
    intro x r hx
    obtain ⟨leg, hl, hkeys⟩ := h.placed x r hx
    exact ⟨leg, hl, fun key hkey => hmono _ _ (hkeys key hkey)⟩
  case told =>
    -- a block this request contributes was put now, or its host was told of it before
    intro x key
    rw [hserving, htold, h.told]
    constructor
    · rintro (⟨y, rq, r, hy, hc⟩ | ⟨rfl, hkey⟩)
      · exact ⟨y, rq, r, hy, (hcontrib y rq r hy x key).mpr (.inl hc)⟩
      · exact ⟨id, request, response, hserved, (hcontrib id request response hserved x key).mpr
          (.inr ⟨rfl, rfl, hkeys key hkey⟩)⟩
    · rintro ⟨y, rq, r, hy, hc⟩
      rcases (hcontrib y rq r hy x key).mp hc with hc | ⟨rfl, rfl, hkey⟩
      · exact .inl ⟨y, rq, r, hy, hc⟩
      · rcases hnew key hkey with hkey | hkey
        · exact .inr ⟨rfl, hkey⟩
        · exact .inl ((h.told _ key).mp hkey)
  case published =>
    rw [hserving]
    intro x hx
    rcases (hpub x).mp hx with hx | ⟨rfl, _⟩
    · exact h.published x hx
    · obtain ⟨leg, phase, hl, _, hs⟩ := Serving.servedBy_eq_some.mp hserved
      exact ⟨phase, Serving.phaseOf_of_served hl hs⟩
  case past =>
    rw [hserving]
    intro x phase hx hcase
    exact (hpub x).mpr (.inl (h.past x phase hx hcase))
  case simulated =>
    rw [hserving]
    exact h.simulated
  case resided =>
    rw [hserving]
    intro x hx
    rcases (hres x).mp hx with hx | ⟨rfl, hx⟩
    · exact h.resided x hx
    · exact hstay hx
  case decoding =>
    rw [hserving]
    intro x hx
    exact hgrew x (h.decoding x hx)
  case generated =>
    intro x hx
    rw [hgen] at hx
    exact hgrew x (h.generated x hx)
  case received =>
    rw [hserving]
    intro x hx
    rcases hrec x hx with hx | ⟨rfl, hr, hp⟩
    · obtain ⟨hr, hp⟩ := h.received x hx
      exact ⟨hgrew x hr, hp⟩
    · exact ⟨hgrew x hr, hp⟩

omit [LinearOrder ι] [DecidableEq κ] [DecidableEq ν] in
theorem mem_tell [DecidableEq ι] (host : ι) (keys : List κ) (told : ι → List κ) (x : ι) (key : κ) :
    key ∈ Function.update told host (told host ++ keys) x ↔
      key ∈ told x ∨ (x = host ∧ key ∈ keys) := by
  by_cases hx : x = host
  · subst hx
    rw [Function.update_self, List.mem_append]
    simp
  · rw [Function.update_of_ne hx]
    simp [hx]

omit [LinearOrder ι] [DecidableEq κ] [DecidableEq ν] in
/-- A publish that does not raise names every key it was given. -/
theorem keys_of_publish {room kept : Bool} {keys : List κ} {blocks : List (KV κ)}
    {named : List (κ × KV κ)} (h : publish room keys blocks = .ok (kept, named)) :
    named.map Prod.fst = keys := by
  unfold publish at h
  by_cases hnil : keys = []
  · rw [if_pos hnil] at h
    cases h
    exact hnil.symm
  · rw [if_neg hnil] at h
    by_cases hlen : keys.length = blocks.length
    · rw [if_pos hlen] at h
      cases h
      exact List.map_fst_zip (le_of_eq hlen)
    · rw [if_neg hlen] at h
      cases h

omit [LinearOrder ι] [DecidableEq κ] [DecidableEq ν] in
theorem ok_of_bind {ε α β : Type*} {x : Except ε α} {f : α → Except ε β} {b : β}
    (h : x.bind f = .ok b) : ∃ a, x = .ok a ∧ f a = .ok b := by
  cases x with
  | error e => cases h
  | ok a => exact ⟨a, rfl, h⟩

omit [LinearOrder ι] [DecidableEq κ] [DecidableEq ν] in
theorem ok_of_map {ε α β : Type*} {x : Except ε α} {f : α → β} {b : β}
    (h : x.map f = .ok b) : ∃ a, x = .ok a ∧ f a = b := by
  cases x with
  | error e => cases h
  | ok a => exact ⟨a, rfl, Except.ok.inj h⟩

omit [LinearOrder ι] [DecidableEq ν] in
/-- A prefill that does not raise names the keys past its local prefix. -/
theorem keys_of_prefill {cost : ℕ → ℚ} {blockTokens : ℕ} {fetched room : Bool}
    {request : Request ν κ} {response : Response ι κ} {run : Filled ν ι κ}
    (h : prefill cost blockTokens fetched room request response = .ok run) :
    run.named.map Prod.fst = request.blockKeys.drop response.plan.localBlocks := by
  unfold prefill at h
  obtain ⟨kv, _, h⟩ := ok_of_bind h
  obtain ⟨⟨kept, named⟩, hpub, hrun⟩ := ok_of_map h
  subst hrun
  exact keys_of_publish hpub

omit [LinearOrder ι] [DecidableEq κ] [DecidableEq ν] in
/-- Blocks made are counted as the accelerator counts them. -/
theorem blocksMade_of_blocksFor {tokens count : ℕ}
    (h : blocksFor cfg.blockTokens tokens = .ok count) : blocksMade cfg (tokens + 1) = count := by
  unfold blocksFor at h
  by_cases hB : cfg.blockTokens = 0
  · rw [if_pos hB] at h
    cases h
  · rw [if_neg hB] at h
    have hcount := Except.ok.inj h
    unfold blocksMade
    rw [← Int.ceil_toNat]
    have hceil : ⌈((tokens + 1 - 1 : ℕ) : ℚ) / (cfg.blockTokens : ℚ)⌉
        = -(-(tokens : ℤ) / (cfg.blockTokens : ℤ)) := by
      rw [Nat.add_sub_cancel]
      exact Rat.ceil_natCast_div_natCast tokens cfg.blockTokens
    rw [hceil, ← hcount]
    omega

omit [LinearOrder ι] [DecidableEq κ] [DecidableEq ν] in
/-- A client that received one token had nothing generated for it. -/
theorem blocksMade_one : blocksMade cfg 1 = 0 := by
  unfold blocksMade
  simp

/-- **A prefill's publish**: with what its plan counted on, the whole chain is told. -/
theorem Recorded.publishing (h : s.Recorded cfg grow root) {id : ν} {room : Bool}
    (hst : next cfg grow root s (.publish id room) = some t) : t.Recorded cfg grow root := by
  simp only [next] at hst
  by_cases hpub : id ∈ s.published
  · rw [if_pos hpub] at hst
    cases hst
  · rw [if_neg hpub] at hst
    obtain ⟨⟨leg, response⟩, hat, hst⟩ := Option.bind_eq_some_iff.mp hst
    obtain ⟨hl, hs⟩ := Serving.at?_eq_some.mp hat
    simp only at hst
    cases hrun : s.filled cfg id room leg.request response with
    | error e =>
        rw [hrun] at hst
        cases hst
    | ok run =>
        rw [hrun] at hst
        obtain rfl := Option.some.inj hst
        have hnamed : run.named.map Prod.fst
            = leg.request.blockKeys.drop response.plan.localBlocks := keys_of_prefill hrun
        have hhost := h.host id leg response _ hl hs
        have hserved := Serving.servedBy_eq_some.mpr ⟨leg, _, hl, rfl, hs⟩
        refine h.telling id leg.host (run.named.map Prod.fst) leg.request.blockKeys rfl
          (fun x key => mem_tell _ _ _ x key) hserved ?_ ?_ ?_
          ?_ ?_ ?_ rfl (fun x hx => .inl hx)
        · intro x rq r hx y key
          unfold Contributes
          show (x ∈ id :: s.published ∧ _) ∨ _ ↔ _
          by_cases hxid : x = id
          · subst hxid
            obtain ⟨rfl, rfl⟩ := Prod.mk.injEq _ _ _ _ ▸ Option.some.inj (hserved.symm.trans hx)
            rw [hhost]
            simp only [List.mem_cons_self, true_and, hpub, false_and, false_or]
            rw [or_comm, @eq_comm _ response.prefill y]
            exact Iff.rfl
          · simp only [List.mem_cons, hxid, false_or, false_and, or_false]
            exact Iff.rfl
        · intro key hkey
          rw [hnamed] at hkey
          exact List.mem_of_mem_drop hkey
        · intro key hkey
          rw [hnamed, hhost]
          -- the local prefix was told before, the rest is told now
          rw [← List.take_append_drop response.plan.localBlocks leg.request.blockKeys] at hkey
          rcases List.mem_append.mp hkey with hkey | hkey
          · exact .inr (h.reused id leg.request response hserved key hkey)
          · exact .inl hkey
        · exact mem_cons_or_self s.published id
        · exact mem_or_self s.resided id
        · intro hx
          exact h.resided id hx

omit [DecidableEq κ] [DecidableEq ν] in
/-- A set of blocks that is registered at all is registered whole. -/
theorem tell_of_resides {host : ι} {room : Bool} {keys : List κ} {blocks : List (KV κ)}
    (h : s.resides host room keys blocks = some t) : t = s.tell host keys := by
  unfold resides at h
  cases hpub : publish room keys blocks with
  | error e =>
      rw [hpub] at h
      cases h
  | ok out =>
      obtain ⟨kept, named⟩ := out
      rw [hpub] at h
      obtain rfl := Option.some.inj h
      rw [keys_of_publish hpub]

omit [LinearOrder ι] [DecidableEq κ] in
/-- A chain handed over is one more contribution, unless it was there or never came. -/
theorem contributes_resided (id : ν) (hpub : t.published = s.published)
    (hres : t.resided = id :: s.resided) (hmiss : t.missed = s.missed)
    (hrec : t.received = s.received) (x : ν) (request : Request ν κ) (response : Response ι κ)
    (host : ι) (key : κ) :
    t.Contributes cfg grow root x request response host key ↔
      s.Contributes cfg grow root x request response host key ∨
        (x = id ∧ id ∉ s.missed ∧ response.decode = host ∧ response.decode ≠ response.prefill ∧
          key ∈ request.blockKeys) := by
  unfold Contributes
  rw [hpub, hres, hmiss, hrec, List.mem_cons]
  constructor
  · rintro (hc | ⟨rfl | hx, hrest⟩ | hc)
    · exact .inl (.inl hc)
    · exact .inr ⟨rfl, hrest⟩
    · exact .inl (.inr (.inl ⟨hx, hrest⟩))
    · exact .inl (.inr (.inr hc))
  · rintro ((hc | ⟨hx, hrest⟩ | hc) | ⟨rfl, hrest⟩)
    · exact .inl hc
    · exact .inr (.inl ⟨.inr hx, hrest⟩)
    · exact .inr (.inr hc)
    · exact .inr (.inl ⟨.inl rfl, hrest⟩)

omit [LinearOrder ι] [DecidableEq κ] in
/-- The blocks of a generation are one more contribution. -/
theorem contributes_received {id : ν} {n : ℕ} (hpub : t.published = s.published)
    (hres : t.resided = s.resided) (hmiss : t.missed = s.missed)
    (hrec : t.received = s.received.set id n) (hnone : s.received.get? id = none) (x : ν)
    (request : Request ν κ) (response : Response ι κ) (host : ι) (key : κ) :
    t.Contributes cfg grow root x request response host key ↔
      s.Contributes cfg grow root x request response host key ∨
        (x = id ∧ response.decode = host ∧
          key ∈ request.continuationKeys grow root (blocksMade cfg n)) := by
  unfold Contributes
  rw [hpub, hres, hmiss, hrec, Dict.get?_set]
  by_cases hid : id = x
  · subst hid
    rw [if_pos rfl, hnone]
    constructor
    · rintro (hc | hc | ⟨hd, m, hm, hkey⟩)
      · exact .inl (.inl hc)
      · exact .inl (.inr (.inl hc))
      · obtain rfl := Option.some.inj hm
        exact .inr ⟨rfl, hd, hkey⟩
    · rintro ((hc | hc | ⟨_, m, hm, _⟩) | ⟨_, hd, hkey⟩)
      · exact .inl hc
      · exact .inr (.inl hc)
      · cases hm
      · exact .inr (.inr ⟨hd, n, rfl, hkey⟩)
  · rw [if_neg hid]
    constructor
    · exact .inl
    · rintro (hc | ⟨rfl, _⟩)
      · exact hc
      · exact absurd rfl hid

/-- **A handoff's publish**: the chain is told where it was pulled to. -/
theorem Recorded.residing (h : s.Recorded cfg grow root) {id : ν} {room : Bool}
    (hst : next cfg grow root s (.reside id room) = some t) : t.Recorded cfg grow root := by
  simp only [next] at hst
  by_cases hres : id ∈ s.resided
  · rw [if_pos hres] at hst
    cases hst
  rw [if_neg hres] at hst
  obtain ⟨⟨leg, response⟩, hat, hst⟩ := Option.bind_eq_some_iff.mp hst
  obtain ⟨hl, hs⟩ := Serving.at?_eq_some.mp hat
  have hserved := Serving.servedBy_eq_some.mpr ⟨leg, _, hl, rfl, hs⟩
  have hphase := Serving.phaseOf_of_served hl hs
  have hsim := h.simulated id _ hphase (.inr (.inl rfl))
  have hsame : ∀ {rq r}, s.serving.servedBy id = some (rq, r) →
      rq = leg.request ∧ r = response := by
    intro rq r hx
    have hpair := Option.some.inj (hx.symm.trans hserved)
    rw [Prod.mk.injEq] at hpair
    exact hpair
  have hgrow := mem_cons_or_self s.resided id
  have hpubs := mem_or_self s.published id
  simp only at hst
  by_cases hown : response.decode = response.prefill ∨ id ∈ s.missed
  · -- the chain was here, or never came: nothing is put
    rw [if_pos hown] at hst
    obtain rfl := Option.some.inj hst
    refine h.telling id response.decode [] [] rfl ?_ hserved
      ?_ (fun _ hkey => hkey) (fun _ hkey => .inl hkey) hpubs hgrow
      (fun _ => ⟨hsim, _, hphase, .inl rfl⟩) rfl (fun x hx => .inl hx)
    · intro x key
      simp
    · intro x rq r hx y key
      refine Iff.trans (contributes_resided id ?_ ?_ ?_ ?_ x rq r y key)
        (or_congr Iff.rfl ?_)
      iterate 4 rfl
      constructor
      · rintro ⟨rfl, hmissed, _, hne, _⟩
        rw [(hsame hx).2] at hne
        rcases hown with hown | hown
        · exact absurd hown hne
        · exact absurd hown hmissed
      · rintro ⟨_, _, hkey⟩
        cases hkey
  · rw [if_neg hown] at hst
    obtain rfl := tell_of_resides hst
    refine h.telling id response.decode leg.request.blockKeys leg.request.blockKeys rfl
      (fun x key => mem_tell _ _ _ x key) hserved
      ?_ (fun _ hkey => hkey) (fun _ hkey => .inl hkey) hpubs hgrow
      (fun _ => ⟨hsim, _, hphase, .inl rfl⟩) rfl (fun x hx => .inl hx)
    intro x rq r hx y key
    refine Iff.trans (contributes_resided id ?_ ?_ ?_ ?_ x rq r y key)
      (or_congr Iff.rfl ?_)
    iterate 4 rfl
    constructor
    · rintro ⟨rfl, _, hd, _, hkey⟩
      obtain ⟨rfl, rfl⟩ := hsame hx
      exact ⟨rfl, hd.symm, hkey⟩
    · rintro ⟨rfl, hd, hkey⟩
      obtain ⟨rfl, rfl⟩ := hsame hx
      exact ⟨rfl, fun hm => hown (.inr hm), hd.symm, fun he => hown (.inl he), hkey⟩

omit [LinearOrder ι] [DecidableEq κ] in
/-- Tokens counted by the client, and the blocks they make told where they were made. -/
theorem Recorded.counted (h : s.Recorded cfg grow root) {id : ν} {n : ℕ} (keys : List κ)
    {request : Request ν κ} {response : Response ι κ}
    (hserved : s.serving.servedBy id = some (request, response))
    (hkeys : keys = request.continuationKeys grow root (blocksMade cfg n))
    (hnone : s.received.get? id = none) (hres : id ∈ s.resided)
    (hphase : s.serving.phaseOf id = some .done)
    (htold : ∀ x key, key ∈ t.told x ↔ key ∈ s.told x ∨ (x = response.decode ∧ key ∈ keys))
    (hrest : t = { s with told := t.told, received := s.received.set id n }) :
    t.Recorded cfg grow root := by
  have hserving : t.serving = s.serving := by rw [hrest]
  have hpub : t.published = s.published := by rw [hrest]
  have hresided : t.resided = s.resided := by rw [hrest]
  have hmiss : t.missed = s.missed := by rw [hrest]
  have hgen : t.generated = s.generated := by rw [hrest]
  have hrec : t.received = s.received.set id n := by rw [hrest]
  refine h.telling id response.decode keys keys hserving htold hserved ?_ (fun _ hkey => hkey)
    (fun _ hkey => .inl hkey) ?_ ?_ ?_ hgen ?_
  · intro x rq r hx y key
    rw [contributes_received hpub hresided hmiss hrec hnone]
    refine or_congr Iff.rfl ?_
    constructor
    · rintro ⟨rfl, hd, hkey⟩
      obtain ⟨rfl, rfl⟩ := Prod.mk.inj (Option.some.inj (hserved.symm.trans hx))
      exact ⟨rfl, hd.symm, hkeys ▸ hkey⟩
    · rintro ⟨rfl, hd, hkey⟩
      obtain ⟨rfl, rfl⟩ := Prod.mk.inj (Option.some.inj (hserved.symm.trans hx))
      exact ⟨rfl, hd.symm, hkeys ▸ hkey⟩
  · intro x
    rw [hpub]
    exact mem_or_self s.published id x
  · intro x
    rw [hresided]
    exact mem_or_self s.resided id x
  · intro hx
    exact h.resided id (hresided ▸ hx)
  · intro x hx
    rw [hrec] at hx
    cases Dict.isSome_get?_set.mp hx with
    | inl hid => exact .inr ⟨hid.symm, hres, hphase⟩
    | inr hold => exact .inl hold

/-- **A generation's publish**, and the client's count of it. -/
theorem Recorded.keeping (h : s.Recorded cfg grow root) {id : ν} {room : Bool}
    (hst : next cfg grow root s (.keep id room) = some t) : t.Recorded cfg grow root := by
  simp only [next] at hst
  by_cases hrec : (s.received.get? id).isSome = true
  · rw [if_pos hrec] at hst
    cases hst
  rw [if_neg hrec] at hst
  obtain ⟨⟨leg, response⟩, hat, hst⟩ := Option.bind_eq_some_iff.mp hst
  obtain ⟨hl, hs⟩ := Serving.at?_eq_some.mp hat
  obtain ⟨tokens, hgen, hst⟩ := Option.bind_eq_some_iff.mp hst
  cases hcount : blocksFor cfg.blockTokens tokens with
  | error e =>
      rw [hcount] at hst
      cases hst
  | ok count =>
      rw [hcount] at hst
      obtain rfl := tell_of_resides hst
      have hres : id ∈ s.resided := h.generated id (by rw [hgen]; rfl)
      refine h.counted _ (Serving.servedBy_eq_some.mpr ⟨leg, _, hl, rfl, hs⟩) ?_
        (Option.not_isSome_iff_eq_none.mp hrec) hres (Serving.phaseOf_of_served hl hs)
        (fun x key => mem_tell _ _ _ x key) rfl
      show leg.request.continuationKeys grow root count = _
      rw [blocksMade_of_blocksFor hcount]

/-! ### Steps that put nothing. -/

omit [LinearOrder ι] [DecidableEq κ] in
/-- The legs as they were: nothing about any request changes. -/
theorem Recorded.still (h : s.Recorded cfg grow root) (hlegs : t.serving.legs = s.serving.legs)
    (hplaced : t.serving.plane.placed = s.serving.plane.placed)
    (hrest : t = { s with serving := t.serving }) : t.Recorded cfg grow root := by
  have hserved : t.serving.servedBy = s.serving.servedBy := by
    unfold Serving.servedBy
    rw [hlegs]
  have hphase : t.serving.phaseOf = s.serving.phaseOf := by
    unfold Serving.phaseOf
    rw [hlegs]
  have htold : t.told = s.told := by rw [hrest]
  have hpub : t.published = s.published := by rw [hrest]
  have hres : t.resided = s.resided := by rw [hrest]
  have hmiss : t.missed = s.missed := by rw [hrest]
  have hgen : t.generated = s.generated := by rw [hrest]
  have hrec : t.received = s.received := by rw [hrest]
  constructor
  case id_eq =>
    rw [hlegs]
    exact h.id_eq
  case host =>
    rw [hlegs]
    exact h.host
  case reused =>
    rw [hserved, htold]
    exact h.reused
  case placed =>
    rw [hplaced, hlegs, htold]
    exact h.placed
  case told =>
    unfold Contributes
    rw [hserved, htold, hpub, hres, hmiss, hrec]
    exact h.told
  case published =>
    rw [hpub, hphase]
    exact h.published
  case past =>
    rw [hpub, hphase]
    exact h.past
  case simulated =>
    rw [hphase]
    exact h.simulated
  case resided =>
    rw [hres, hphase]
    exact h.resided
  case decoding =>
    rw [hres, hphase]
    exact h.decoding
  case generated =>
    rw [hres, hgen]
    exact h.generated
  case received =>
    rw [hres, hrec, hphase]
    exact h.received

theorem Recorded.quiet (h : s.Recorded cfg grow root) {e : Event ν ι κ} {u : Serving ν ι κ}
    (hquiet : e.quiet = true) (hst : s.serving.next cfg e = some u) :
    ({ s with serving := u } : DataPlane ν ι κ).Recorded cfg grow root := by
  obtain ⟨hplaced, hlegs | ⟨request, host, hnew, hlegs⟩⟩ := Serving.quiet_moves hquiet hst
  · exact h.still hlegs hplaced rfl
  · refine h.unserved hlegs rfl rfl ?_ ?_ ?_ rfl
    · unfold Serving.servedBy
      rw [hnew]
      rfl
    · intro l hl
      rw [hnew] at hl
      cases hl
    · intro x r hx
      exact .inl (hplaced ▸ hx)

/-- The pull of a plan, whatever it came to. -/
theorem Recorded.pulling (h : s.Recorded cfg grow root) {id : ν} {located : κ → List ι}
    {u : Serving ν ι κ} (hst : s.serving.next cfg (.pull id located) = some u)
    (stale : List ν) :
    ({ s with serving := u, stale := stale } : DataPlane ν ι κ).Recorded cfg grow root := by
  obtain ⟨leg, response, hl, hs, rfl⟩ := Serving.next_at hst
  obtain rfl := h.id_eq id leg hl
  obtain ⟨hlegs, hplaced⟩ := Serving.pull_moves cfg s.serving leg response located
  have hphase := Serving.phaseOf_of_served hl hs
  refine h.moved hl hs hlegs hplaced rfl rfl rfl rfl (fun _ _ => Iff.rfl) h.generated
    ?_ ?_ ?_ nofun nofun
  · rintro (hq | hq | hq | hq) <;> cases hq
  · rintro (hq | hq | hq) <;> cases hq
  · exact fun hmem => absurd hmem (h.not_resided hphase nofun nofun nofun)

/-- A prefill reported done has published. -/
theorem Recorded.finishing (h : s.Recorded cfg grow root) {id : ν} {seen : ℚ}
    (hst : next cfg grow root s (.finish id seen) = some t) : t.Recorded cfg grow root := by
  simp only [next, Option.ite_none_right_eq_some] at hst
  obtain ⟨hpub, hst⟩ := hst
  obtain ⟨u, hu, rfl⟩ := Option.map_eq_some_iff.mp hst
  obtain ⟨_, leg, response, hl, hs, rfl⟩ := Serving.next_finish hu
  obtain rfl := h.id_eq id leg hl
  have hphase := Serving.phaseOf_of_served hl hs
  refine h.moved (q := if cfg.simulateDecode then .prefilled else .done) hl hs rfl rfl rfl rfl rfl
    rfl (fun _ _ => Iff.rfl) h.generated (fun _ => hpub) ?_ ?_ ?_ nofun
  · cases hsim : cfg.simulateDecode with
    | true => exact fun _ => rfl
    | false => rintro (hq | hq | hq) <;> cases hq
  · exact fun hmem => absurd hmem (h.not_resided hphase nofun nofun nofun)
  · cases cfg.simulateDecode with
    | true => nofun
    | false => nofun

/-- A handoff, come or missed. -/
theorem Recorded.handing (h : s.Recorded cfg grow root) {id : ν} {located : κ → List ι}
    {missed : Bool} (hst : next cfg grow root s (.handoff id located missed) = some t) :
    t.Recorded cfg grow root := by
  simp only [next] at hst
  obtain ⟨leg, response, hl, hs, rfl⟩ := Serving.next_at hst
  obtain rfl := h.id_eq id leg hl
  obtain ⟨hlegs, hplaced⟩ := Serving.handoff_moves cfg s.serving leg response located
  have hphase := Serving.phaseOf_of_served hl hs
  -- it is done with no chain yet, so what it misses was nobody's contribution
  have hnores : leg.request.id ∉ s.resided := h.not_resided hphase nofun nofun nofun
  refine h.moved hl hs hlegs hplaced rfl rfl rfl rfl ?_ h.generated
    (fun _ => h.past _ _ hphase (.inl rfl)) (fun _ => h.simulated _ _ hphase (.inl rfl))
    (fun hmem => absurd hmem hnores) nofun nofun
  intro x hx
  simp only
  by_cases hmiss : missed = true ∧ response.decode ≠ response.prefill ∧ leg.request.blockKeys ≠ []
  · rw [if_pos hmiss, List.mem_cons]
    constructor
    · rintro (rfl | hmem)
      · exact absurd hx hnores
      · exact hmem
    · exact .inr
  · rw [if_neg hmiss]

/-- A host with no engine answers with one token, which makes no block. -/
theorem Recorded.answering (h : s.Recorded cfg grow root) {id : ν}
    (hst : next cfg grow root s (.engineless id) = some t) : t.Recorded cfg grow root := by
  simp only [next, Option.ite_none_right_eq_some] at hst
  obtain ⟨hres, hst⟩ := hst
  obtain ⟨leg, response, hl, hs, rfl⟩ := Serving.next_at hst
  obtain rfl := h.id_eq id leg hl
  have hphase := Serving.phaseOf_of_served hl hs
  let u : DataPlane ν ι κ := { s with
    serving := s.serving.setLeg leg.request.id { leg with stage := .served response .done } }
  have hmoved : u.Recorded cfg grow root := by
    refine h.moved hl hs rfl rfl rfl rfl rfl rfl (fun _ _ => Iff.rfl) h.generated
      (fun _ => h.past _ _ hphase (.inr (.inl rfl))) ?_ (fun _ => .inr (.inr rfl)) nofun nofun
    rintro (hq | hq | hq) <;> cases hq
  have hnone : s.received.get? leg.request.id = none := by
    cases hrec : s.received.get? leg.request.id with
    | none => rfl
    | some n =>
        have hdone := (h.received _ (by rw [hrec]; rfl)).2
        rw [hphase] at hdone
        cases hdone
  have hl' : u.serving.legs.get? leg.request.id
      = some { leg with stage := .served response .done } := Dict.get?_set_self _ _ _
  refine hmoved.counted (n := 1) [] (Serving.servedBy_eq_some.mpr ⟨_, _, hl', rfl, rfl⟩)
    ?_ hnone hres (Serving.phaseOf_of_served hl' rfl) ?_ rfl
  · rw [blocksMade_one]
    rfl
  · intro x key
    show key ∈ s.told x ↔ key ∈ s.told x ∨ _
    simp

/-- An admission, to the batch or past it. -/
theorem Recorded.joining (h : s.Recorded cfg grow root) {id : ν}
    (hst : next cfg grow root s (.join id) = some t) : t.Recorded cfg grow root := by
  simp only [next, Option.ite_none_right_eq_some] at hst
  obtain ⟨hres, hst⟩ := hst
  obtain ⟨leg, response, hl, hs, rfl⟩ := Serving.next_at hst
  obtain rfl := h.id_eq id leg hl
  have hphase := Serving.phaseOf_of_served hl hs
  obtain ⟨q, hq, hlegs, hplaced⟩ := Serving.join_moves s.serving leg response
  refine h.moved hl hs hlegs hplaced rfl rfl rfl rfl (fun _ _ => Iff.rfl) ?_
    (fun _ => h.past _ _ hphase (.inr (.inl rfl)))
    (fun _ => h.simulated _ _ hphase (.inr (.inl rfl))) (fun _ => .inr hq) (fun _ => hres) nofun
  intro x hx
  by_cases hz : leg.request.decodeTokens = 0
  · rw [if_pos hz] at hx
    cases Dict.isSome_get?_set.mp hx with
    | inl hid => exact hid ▸ hres
    | inr hold => exact h.generated x hold
  · rw [if_neg hz] at hx
    exact h.generated x hx

/-- A member's last token. -/
theorem Recorded.leaving (h : s.Recorded cfg grow root) {id : ν} {tokens : ℕ}
    (hst : next cfg grow root s (.leave id tokens) = some t) : t.Recorded cfg grow root := by
  simp only [next] at hst
  obtain ⟨leg, response, hl, hs, rfl⟩ := Serving.next_at hst
  obtain rfl := h.id_eq id leg hl
  have hphase := Serving.phaseOf_of_served hl hs
  refine h.moved (q := .done) hl hs rfl rfl rfl rfl rfl rfl (fun _ _ => Iff.rfl) ?_
    (fun _ => h.past _ _ hphase (.inr (.inr (.inl rfl)))) ?_ (fun _ => .inr (.inr rfl)) nofun nofun
  · intro x hx
    cases Dict.isSome_get?_set.mp hx with
    | inl hid => exact hid ▸ h.decoding _ hphase
    | inr hold => exact h.generated x hold
  · rintro (hq | hq | hq) <;> cases hq

/-! ## §5. Runs. -/

/-- **One step keeps the two sides in step.** -/
theorem Recorded.next (h : s.Recorded cfg grow root) {e : DataEvent ν ι κ}
    (hlisted : s.Listed e) (hst : DataPlane.next cfg grow root s e = some t) :
    t.Recorded cfg grow root := by
  cases e with
  | serve e =>
      simp only [DataPlane.next, Option.ite_none_right_eq_some] at hst
      obtain ⟨hquiet, hst⟩ := hst
      obtain ⟨u, hu, rfl⟩ := Option.map_eq_some_iff.mp hst
      exact h.quiet hquiet hu
  | ask id located =>
      obtain ⟨u, hu, rfl⟩ := Option.map_eq_some_iff.mp hst
      exact h.asked hlisted hu
  | pull id located fetched =>
      obtain ⟨u, hu, rfl⟩ := Option.map_eq_some_iff.mp hst
      exact h.pulling hu _
  | publish id room => exact h.publishing hst
  | finish id seen => exact h.finishing hst
  | handoff id located missed => exact h.handing hst
  | reside id room => exact h.residing hst
  | engineless id => exact h.answering hst
  | join id => exact h.joining hst
  | leave id tokens => exact h.leaving hst
  | keep id room => exact h.keeping hst

/-- **Every run keeps the two sides in step.** -/
theorem recorded_of_run (h : ((machine cfg grow root).guarded Listed).Reachable s) :
    s.Recorded cfg grow root := by
  refine h.guarded_invariant ?_ ?_
  · intro s hs
    obtain ⟨now, rfl⟩ := hs
    exact recorded_start cfg grow root now
  · intro s e t hs hlisted hst
    exact hs.next hlisted hst

/-- **No KV is held silently and none is registered for nobody**: at the end, the keys a
volume was ever told are the chain of each request its host prefilled, the chain of each
it decoded off a handoff that came, and the blocks each generation left there. -/
theorem told_reconciles (h : ((machine cfg grow root).guarded Listed).Reachable s)
    (hover : s.Over cfg) (host : ι) (key : κ) :
    key ∈ s.told host ↔ ∃ id request response, s.serving.servedBy id = some (request, response) ∧
      ((response.prefill = host ∧ key ∈ request.blockKeys) ∨
        (cfg.simulateDecode = true ∧ response.decode = host ∧
          response.decode ≠ response.prefill ∧ id ∉ s.missed ∧ key ∈ request.blockKeys) ∨
        (response.decode = host ∧ ∃ n, s.received.get? id = some n ∧
          key ∈ request.continuationKeys grow root (blocksMade cfg n))) := by
  have hrec := recorded_of_run h
  rw [hrec.told]
  refine exists_congr fun id => exists_congr fun request => exists_congr fun response => ?_
  refine and_congr_right fun hserved => ?_
  obtain ⟨leg, phase, hl, rfl, hs⟩ := Serving.servedBy_eq_some.mp hserved
  obtain ⟨rfl, hreceived⟩ := (hover id leg hl).2 response phase hs
  have hphase := Serving.phaseOf_of_served hl hs
  constructor
  · rintro (⟨_, hp, hkey⟩ | ⟨hres, hmiss, hd, hne, hkey⟩ | hgen)
    · exact .inl ⟨hp, hkey⟩
    · exact .inr (.inl ⟨(hrec.resided id hres).1, hd, hne, hmiss, hkey⟩)
    · exact .inr (.inr hgen)
  · rintro (⟨hp, hkey⟩ | ⟨hsim, hd, hne, hmiss, hkey⟩ | hgen)
    · exact .inl ⟨hrec.past id _ hphase (.inr (.inr (.inr rfl))), hp, hkey⟩
    · exact .inr (.inl ⟨(hrec.received id (hreceived hsim)).1, hmiss, hd, hne, hkey⟩)
    · exact .inr (.inr hgen)

/-! ## §6. A run that disaggregates. -/

instance (s : DataPlane ν ι κ) : (e : DataEvent ν ι κ) → Decidable (s.Listed e)
  | .ask id located => inferInstanceAs (Decidable (∀ leg ∈ s.serving.legs.get? id,
      ∀ key ∈ leg.request.blockKeys, ∀ host ∈ located key, key ∈ s.told host))
  | .serve _ | .pull _ _ _ | .publish _ _ | .finish _ _ | .handoff _ _ _ | .reside _ _
  | .engineless _ | .join _ | .leave _ _ | .keep _ _ => .isTrue trivial

omit [LinearOrder ι] [DecidableEq κ] in
/-- Whether a run is over is read off its legs. -/
theorem over_iff : s.Over cfg ↔ ∀ entry ∈ s.serving.legs.entries, entry.2.stage ≠ .asking ∧
    ∀ served ∈ entry.2.stage.serving, served.2 = .done ∧
      (cfg.simulateDecode = true → (s.received.get? entry.1).isSome = true) := by
  constructor
  · intro hover entry hentry
    obtain ⟨id, leg⟩ := entry
    obtain ⟨hasking, hserved⟩ := hover id leg ((Dict.get?_eq_some_iff _ _ _).mpr hentry)
    refine ⟨hasking, fun served hs => ?_⟩
    cases hstage : leg.stage with
    | served response phase =>
        simp only [hstage] at hs
        obtain rfl := Option.some.inj hs
        exact hserved response phase hstage
    | asking => simp only [hstage] at hs; cases hs
    | refused => simp only [hstage] at hs; cases hs
    | raised => simp only [hstage] at hs; cases hs
    | lost => simp only [hstage] at hs; cases hs
  · intro hitems id leg hl
    obtain ⟨hasking, hserved⟩ := hitems _ ((Dict.get?_eq_some_iff _ _ _).mp hl)
    refine ⟨hasking, fun response phase hstage => hserved (response, phase) ?_⟩
    simp only [hstage]
    rfl

instance [DecidableEq ι] (s : DataPlane ν ι κ) : Decidable (s.Over cfg) :=
  decidable_of_iff _ over_iff.symm

end Recorded

/-- Instance 0 prefills and instance 1 decodes, off what 0 holds. -/
def splitConfig : Settings ℕ :=
  { peersConfig with
    blockTokens := 512
    prefillPool := [0]
    decodePool := [1]
    sloTtft := none
    simulateDecode := true }

/-- A request for two blocks, the second not full, and four tokens. -/
def pairRequest (id : ℕ) : Request ℕ ℕ := ⟨id, 0, [10, 11], 1000, 4, 1000, "", rfl⟩

/-- Keys past the end of a chain, told apart from the chain's. -/
def nextKey (acc i : ℕ) : ℕ := 100 * acc + i

/-- Two requests for one chain: the second finds it where it prefills, and its handoff
finds nothing.  The volume has no room for what the first one generated. -/
def twoServed : List (DataEvent ℕ ℕ ℕ) :=
  [.serve (.arrive (pairRequest 1) 0), .ask 1 fun _ => [], .pull 1 (fun _ => []) true,
    .publish 1 true, .finish 1 0, .handoff 1 (fun _ => [0]) false, .reside 1 true, .join 1,
    .leave 1 3, .keep 1 false, .serve (.arrive (pairRequest 2) 0), .ask 2 fun _ => [0],
    .pull 2 (fun _ => [0]) true, .publish 2 true, .finish 2 0, .handoff 2 (fun _ => []) true,
    .reside 2 true, .join 2, .leave 2 3, .keep 2 true]

/-- The chain where it was prefilled, the chain and one generated block where it was
decoded. -/
theorem told_reconciles_split : ∃ s : DataPlane ℕ ℕ ℕ,
    s.told 0 = [10, 11] ∧ s.told 1 = [10, 11, 1101, 1101] ∧ s.missed = [2] ∧
    ∀ host key, key ∈ s.told host ↔ ∃ id request response,
      s.serving.servedBy id = some (request, response) ∧
        ((response.prefill = host ∧ key ∈ request.blockKeys) ∨
          (splitConfig.simulateDecode = true ∧ response.decode = host ∧
            response.decode ≠ response.prefill ∧ id ∉ s.missed ∧ key ∈ request.blockKeys) ∨
          (response.decode = host ∧ ∃ n, s.received.get? id = some n ∧
            key ∈ request.continuationKeys nextKey (fun id => id)
              (blocksMade splitConfig n))) := by
  have hrun : (Machine.replay (Machine.guardedNext Listed
      (next splitConfig nextKey (fun id => id))) (start splitConfig 0)
      twoServed).any (fun s : DataPlane ℕ ℕ ℕ => decide (s.Over splitConfig ∧ s.told 0 = [10, 11] ∧
        s.told 1 = [10, 11, 1101, 1101] ∧ s.missed = [2])) = true := by
    decide +kernel
  obtain ⟨s, hs, hend⟩ := (Option.any_eq_true _ _).mp hrun
  obtain ⟨hover, h0, h1, hmissed⟩ := of_decide_eq_true hend
  have hreach : ((machine splitConfig nextKey (fun id => id)).guarded Listed).Reachable s :=
    Machine.Reachable.of_guarded_replay (fun _ _ _ hst => hst) _ (.init ⟨0, rfl⟩) hs
  exact ⟨s, h0, h1, hmissed, told_reconciles hreach hover⟩

end DataPlane

end Toso.KvCache
