/-
  Toso.DedupSim.Fanout — the readers assigned to each volume, and the gates they
  wait at.

  A `FanoutSensor` folds two actions.  `routed` gives a requester its first
  source and records which of the gate publications belong to that volume;
  `published` takes one publication off every gate entry, and the reader off
  the volume once nothing of the volume is left in its entry.

  The bookkeeping rests on one count: what `behind` says of a volume is how many
  requesters are assigned to it.

  Main results:
    * `routed_sound`, `published_sound` — neither fold raises, and the count
      holds after it.
    * `load_agrees` — the bookkeeping after any sequence of actions.
-/
import Toso.Lib.Dict
import Mathlib.Data.Prod.Lex
import Mathlib.Data.Rat.Defs
import Mathlib.Algebra.Order.Ring.Rat

namespace Toso.DedupSim

open Lib

/-! ## §1. Publications and the actions that move them. -/

/-- A publication id with the volume it is made in; id `0` is a live copy. -/
structure Publication (ν : Type*) where
  pub : ℕ
  volume : ν
  deriving DecidableEq

namespace Publication

variable {ν : Type*}

/-- The pair a publication is, compared the id first. -/
def toPair (p : Publication ν) : ℕ ×ₗ ν := toLex (p.pub, p.volume)

theorem toPair_injective : Function.Injective (toPair : Publication ν → ℕ ×ₗ ν) := by
  intro p q h
  have hpair : (p.pub, p.volume) = (q.pub, q.volume) := toLex.injective h
  cases p
  cases q
  cases hpair
  rfl

instance [LinearOrder ν] : LinearOrder (Publication ν) where
  le p q := p.toPair ≤ q.toPair
  le_refl p := le_refl p.toPair
  le_trans p q r := le_trans (a := p.toPair) (b := q.toPair) (c := r.toPair)
  le_antisymm p q hpq hqp := toPair_injective (le_antisymm hpq hqp)
  le_total p q := le_total p.toPair q.toPair
  toDecidableLE p q := inferInstanceAs (Decidable (p.toPair ≤ q.toPair))
  toDecidableEq := instDecidableEqPublication

end Publication

/-- What happens to publications, as the values a dispatcher folds. -/
inductive Action (ν : Type*)
  /-- `Asked`: a store declaration created one publication. -/
  | asked (pub : Publication ν)
  /-- `Published`: one publication has landed. -/
  | published (publication : Publication ν)
  /-- `Routed`: one publication has a ranked preference and readiness gate. -/
  | routed (requesterPub : Publication ν) (sources : List ν)
      (gatePubs : List (Publication ν)) (arrival : ℚ)
  deriving DecidableEq

/-! ## §2. The sensor and its folds. -/

/-- Pending readers per volume and publication arrival scores. -/
structure FanoutSensor (ν : Type*) where
  cap : ℤ
  arrivals : Dict (Publication ν) ℚ
  behind : Dict ν ℤ
  assigned : Dict ν (List ν)
  gates : Dict (Publication ν) (Dict ν (List (Publication ν)))

namespace FanoutSensor

variable {ν : Type*} [DecidableEq ν]

/-- A sensor that has folded nothing. -/
def new (cap : ℤ) : FanoutSensor ν := ⟨cap, Dict.empty, Dict.empty, Dict.empty, Dict.empty⟩

/-- `named`: how many readers are assigned to a volume, `0` when none is. -/
def named (s : FanoutSensor ν) (v : ν) : ℤ := s.behind.getD v 0

/-- `arrival`. -/
def arrival (s : FanoutSensor ν) (p : Publication ν) : Option ℚ := s.arrivals.get? p

/-- `_decrement`, which raises on a volume nobody is counted on. -/
def decrement (v : ν) (behind : Dict ν ℤ) : Option (Dict ν ℤ) :=
  (behind.get? v).map fun n =>
    if n - 1 = 0 then behind.erase v else behind.set v (n - 1)

/-- One more reader on a volume. -/
def increment (v : ν) (behind : Dict ν ℤ) : Dict ν ℤ :=
  behind.set v (behind.getD v 0 + 1)

/-- The gate publications of the assigned volumes, by volume. -/
def byVolume (assigned : List ν) (gatePubs : List (Publication ν)) :
    Dict ν (List (Publication ν)) :=
  gatePubs.foldl (fun d p =>
    if p.volume ∈ assigned then d.set p.volume ((d.getD p.volume []).insert p) else d)
    Dict.empty

/-- `_routed`. -/
def routed (requesterPub : Publication ν) (sources : List ν)
    (gatePubs : List (Publication ν)) (arrival : ℚ) (s : FanoutSensor ν) :
    Option (FanoutSensor ν) :=
  let requester := requesterPub.volume
  ((s.assigned.getD requester []).foldlM (fun behind v => decrement v behind) s.behind).map
    fun behind =>
      let assigned := sources.take 1
      let gates := s.gates.filterKeys (fun p => p.volume ≠ requester)
      { s with
        arrivals := if requesterPub ∈ s.arrivals then s.arrivals
          else s.arrivals.set requesterPub arrival
        behind := assigned.foldl (fun behind v => increment v behind) behind
        assigned := (s.assigned.erase requester).set requester assigned
        gates := if byVolume assigned gatePubs = Dict.empty then gates
          else gates.set requesterPub (byVolume assigned gatePubs) }

/-- One entry of the gates in the loop of `_published`. -/
def settleGate (p : Publication ν) (s : FanoutSensor ν)
    (entry : Publication ν × Dict ν (List (Publication ν))) : Option (FanoutSensor ν) :=
  match entry.2.get? p.volume with
  | none => some s
  | some pubs =>
      if p ∈ pubs then
        if pubs.filter (· ≠ p) = [] then
          (decrement p.volume s.behind).map fun behind =>
            { s with
              behind := behind
              assigned := match s.assigned.get? entry.1.volume with
                | none => s.assigned
                | some vs => s.assigned.set entry.1.volume (vs.erase p.volume)
              gates := if entry.2.erase p.volume = Dict.empty then s.gates.erase entry.1
                else s.gates.set entry.1 (entry.2.erase p.volume) }
        else some { s with
          gates := s.gates.set entry.1 (entry.2.set p.volume (pubs.filter (· ≠ p))) }
      else some s

/-- `_published`, over the gates as they stood when it began. -/
def published (p : Publication ν) (s : FanoutSensor ν) : Option (FanoutSensor ν) :=
  s.gates.entries.foldlM (settleGate p) { s with arrivals := s.arrivals.erase p }

/-! ## §3. Counters. -/

/-- `behind` counts `f`, and holds no entry where `f` is zero. -/
def Counts (behind : Dict ν ℤ) (f : ν → ℤ) : Prop :=
  ∀ v, behind.getD v 0 = f v ∧ ∀ n, behind.get? v = some n → 0 < n

theorem Counts.nonneg {behind : Dict ν ℤ} {f : ν → ℤ} (h : Counts behind f) (v : ν) :
    0 ≤ f v := by
  obtain ⟨hval, hpos⟩ := h v
  rw [← hval]
  unfold Dict.getD
  cases hget : behind.get? v with
  | none => exact le_refl 0
  | some n => exact le_of_lt (hpos n hget)

/-- The decrement finds its counter. -/
theorem Counts.decrement {behind : Dict ν ℤ} {f : ν → ℤ} (h : Counts behind f) {v : ν}
    (hv : 0 < f v) :
    ∃ behind', FanoutSensor.decrement v behind = some behind' ∧
      Counts behind' fun w => if w = v then f w - 1 else f w := by
  obtain ⟨hval, hpos⟩ := h v
  cases hget : behind.get? v with
  | none =>
      simp [Dict.getD, hget] at hval
      omega
  | some n =>
      have hn : n = f v := by simpa [Dict.getD, hget] using hval
      have hdec : FanoutSensor.decrement v behind
          = some (if n - 1 = 0 then behind.erase v else behind.set v (n - 1)) := by
        rw [FanoutSensor.decrement, hget]
        rfl
      refine ⟨_, hdec, ?_⟩
      intro w
      obtain ⟨hwval, hwpos⟩ := h w
      by_cases hz : n - 1 = 0
      · rw [if_pos hz]
        by_cases hwv : w = v
        · subst hwv
          simp only [Dict.getD, Dict.get?_erase_self, if_true]
          refine ⟨?_, fun m hm => by cases hm⟩
          show (0 : ℤ) = f w - 1
          omega
        · simp only [Dict.getD, Dict.get?_erase_ne _ (Ne.symm hwv), if_neg hwv]
          exact ⟨hwval, hwpos⟩
      · rw [if_neg hz]
        by_cases hwv : w = v
        · subst hwv
          have hpos' := hpos n hget
          simp only [Dict.getD, Dict.get?_set_self, if_true, Option.some.injEq]
          refine ⟨?_, ?_⟩
          · show n - 1 = f w - 1
            omega
          · intro m hm
            omega
        · simp only [Dict.getD, Dict.get?_set_ne _ _ (Ne.symm hwv), if_neg hwv]
          exact ⟨hwval, hwpos⟩

theorem Counts.increment {behind : Dict ν ℤ} {f : ν → ℤ} (h : Counts behind f) (v : ν) :
    Counts (FanoutSensor.increment v behind) fun w => if w = v then f w + 1 else f w := by
  intro w
  obtain ⟨hwval, hwpos⟩ := h w
  unfold FanoutSensor.increment
  by_cases hwv : w = v
  · subst hwv
    have hnonneg := h.nonneg w
    simp only [Dict.getD, Dict.get?_set_self, if_true, Option.some.injEq]
    unfold Dict.getD at hwval
    refine ⟨?_, ?_⟩
    · show _ + 1 = _
      rw [hwval]
    · intro m hm
      rw [hwval] at hm
      omega
  · simp only [Dict.getD, Dict.get?_set_ne _ _ (Ne.symm hwv), if_neg hwv]
    exact ⟨hwval, hwpos⟩

/-- Taking one reader off each of several distinct volumes. -/
theorem Counts.decrementAll (vs : List ν) :
    ∀ {behind : Dict ν ℤ} {f : ν → ℤ}, Counts behind f → vs.Nodup → (∀ v ∈ vs, 0 < f v) →
      ∃ behind', vs.foldlM (fun behind v => FanoutSensor.decrement v behind) behind
          = some behind' ∧
        Counts behind' fun w => if w ∈ vs then f w - 1 else f w := by
  induction vs with
  | nil =>
      intro behind f h _ _
      exact ⟨behind, rfl, by simpa using h⟩
  | cons v vs ih =>
      intro behind f h hnd hpos
      obtain ⟨hv, hvs⟩ := List.nodup_cons.mp hnd
      obtain ⟨b₁, hb₁, hc₁⟩ := h.decrement (hpos v List.mem_cons_self)
      obtain ⟨b₂, hb₂, hc₂⟩ := ih hc₁ hvs (by
        intro w hw
        have hne : w ≠ v := fun heq => hv (heq ▸ hw)
        rw [if_neg hne]
        exact hpos w (List.mem_cons_of_mem _ hw))
      refine ⟨b₂, by rw [List.foldlM_cons, hb₁]; exact hb₂, ?_⟩
      have hfun : (fun w => if w ∈ v :: vs then f w - 1 else f w)
          = fun w => if w ∈ vs then (if w = v then f w - 1 else f w) - 1
            else if w = v then f w - 1 else f w := by
        funext w
        by_cases hwv : w = v
        · subst hwv
          simp [hv]
        · simp [hwv]
      rw [hfun]
      exact hc₂

/-! ## §4. Gate publications by volume. -/

theorem getD_byVolume_step (assigned : List ν) (d : Dict ν (List (Publication ν)))
    (p q : Publication ν) (v : ν) :
    q ∈ (if p.volume ∈ assigned then d.set p.volume ((d.getD p.volume []).insert p)
        else d).getD v []
      ↔ q ∈ d.getD v [] ∨ (q = p ∧ p.volume = v ∧ v ∈ assigned) := by
  by_cases hp : p.volume ∈ assigned
  · rw [if_pos hp]
    by_cases hv : p.volume = v
    · subst hv
      simp only [Dict.getD, Dict.get?_set_self, Option.getD_some, List.mem_insert_iff]
      tauto
    · have hread : (d.set p.volume ((d.getD p.volume []).insert p)).getD v [] = d.getD v [] := by
        unfold Dict.getD
        rw [Dict.get?_set_ne _ _ hv]
      rw [hread]
      tauto
  · rw [if_neg hp]
    constructor
    · intro h
      exact .inl h
    · intro h
      rcases h with h | ⟨_, hv, hmem⟩
      · exact h
      · exact absurd (hv ▸ hmem) hp

/-- **The gate publications of an assigned volume**, and of no other. -/
theorem mem_byVolume (assigned : List ν) (gatePubs : List (Publication ν))
    (q : Publication ν) (v : ν) :
    q ∈ (byVolume assigned gatePubs).getD v []
      ↔ q ∈ gatePubs ∧ q.volume = v ∧ v ∈ assigned := by
  have key : ∀ (ps : List (Publication ν)) (d : Dict ν (List (Publication ν))),
      q ∈ (ps.foldl (fun d p =>
          if p.volume ∈ assigned then d.set p.volume ((d.getD p.volume []).insert p) else d)
          d).getD v []
        ↔ q ∈ d.getD v [] ∨ (q ∈ ps ∧ q.volume = v ∧ v ∈ assigned) := by
    intro ps
    induction ps with
    | nil => intro d; simp
    | cons p ps ih =>
        intro d
        rw [List.foldl_cons, ih, getD_byVolume_step, List.mem_cons]
        constructor
        · intro h
          rcases h with (h | ⟨rfl, hv, hmem⟩) | ⟨hq, hv, hmem⟩
          · exact .inl h
          · exact .inr ⟨.inl rfl, hv, hmem⟩
          · exact .inr ⟨.inr hq, hv, hmem⟩
        · intro h
          rcases h with h | ⟨rfl | hq, hv, hmem⟩
          · exact .inl (.inl h)
          · exact .inl (.inr ⟨rfl, hv, hmem⟩)
          · exact .inr ⟨hq, hv, hmem⟩
  have hfold := key gatePubs Dict.empty
  simpa [byVolume, Dict.getD] using hfold

/-- No volume is recorded with an empty set. -/
theorem byVolume_ne_nil (assigned : List ν) (gatePubs : List (Publication ν)) (v : ν)
    (pubs : List (Publication ν)) (h : (byVolume assigned gatePubs).get? v = some pubs) :
    pubs ≠ [] := by
  have key : ∀ (ps : List (Publication ν)) (d : Dict ν (List (Publication ν))),
      (∀ pubs, d.get? v = some pubs → pubs ≠ []) →
      ∀ pubs, (ps.foldl (fun d p =>
          if p.volume ∈ assigned then d.set p.volume ((d.getD p.volume []).insert p) else d)
          d).get? v = some pubs → pubs ≠ [] := by
    intro ps
    induction ps with
    | nil => intro d hd; exact hd
    | cons p ps ih =>
        intro d hd
        rw [List.foldl_cons]
        apply ih
        intro pubs hpubs
        by_cases hp : p.volume ∈ assigned
        · rw [if_pos hp, Dict.get?_set] at hpubs
          by_cases hv : p.volume = v
          · rw [if_pos hv, Option.some.injEq] at hpubs
            have hmem : p ∈ (d.getD p.volume []).insert p := List.mem_insert_self
            rw [hpubs] at hmem
            exact List.ne_nil_of_mem hmem
          · rw [if_neg hv] at hpubs
            exact hd pubs hpubs
        · rw [if_neg hp] at hpubs
          exact hd pubs hpubs
  exact key gatePubs Dict.empty (by intro pubs h; cases h) pubs h

/-! ## §5. The invariant of the sensor. -/

/-- How many requesters an assignment gives to a volume. -/
def readersOf (assigned : Dict ν (List ν)) (v : ν) : ℤ :=
  assigned.sumBy fun _ vs => if v ∈ vs then 1 else 0

/-- How many requesters are assigned to a volume. -/
def readers (s : FanoutSensor ν) (v : ν) : ℤ := readersOf s.assigned v

/-- **The bookkeeping of a sensor**: the counters count assignments, a requester
has one gate entry, and every volume of an entry is one it is assigned to. -/
structure Sound (s : FanoutSensor ν) : Prop where
  counts : Counts s.behind s.readers
  distinct : ∀ r vs, s.assigned.get? r = some vs → vs.Nodup
  oneGate : ∀ p q, p ∈ s.gates → q ∈ s.gates → p.volume = q.volume → p = q
  within : ∀ p d v pubs, s.gates.get? p = some d → d.get? v = some pubs →
    pubs ≠ [] ∧ v ∈ s.assigned.getD p.volume []

theorem new_sound (cap : ℤ) : (new cap : FanoutSensor ν).Sound where
  counts := fun v => ⟨rfl, fun n h => by cases h⟩
  distinct := fun r vs h => by cases h
  oneGate := fun p q hp => absurd hp (Dict.not_mem_empty p)
  within := fun p d v pubs h => by cases h

/-- What one requester contributes to the readers of a volume. -/
theorem termAt_readers (assigned : Dict ν (List ν)) (r v : ν) :
    assigned.termAt (fun _ vs => if v ∈ vs then (1 : ℤ) else 0) r
      = if v ∈ assigned.getD r [] then 1 else 0 := by
  unfold Dict.termAt Dict.getD
  cases assigned.get? r <;> simp

theorem readersOf_erase (assigned : Dict ν (List ν)) (r v : ν) :
    readersOf (assigned.erase r) v
      = if v ∈ assigned.getD r [] then readersOf assigned v - 1 else readersOf assigned v := by
  have hsum := assigned.sumBy_erase (fun _ vs => if v ∈ vs then (1 : ℤ) else 0) r
  rw [termAt_readers] at hsum
  unfold readersOf
  split at hsum
  · rename_i hmem
    rw [if_pos hmem]
    omega
  · rename_i hmem
    rw [if_neg hmem]
    omega

/-- Reassigning a requester moves the count of a volume by what it loses and
what it gains. -/
theorem readersOf_set (assigned : Dict ν (List ν)) (r : ν) (vs : List ν) (v : ν) :
    readersOf (assigned.set r vs) v
      = readersOf (assigned.erase r) v + if v ∈ vs then 1 else 0 := by
  have hset := assigned.sumBy_set (fun _ vs => if v ∈ vs then (1 : ℤ) else 0) r vs
  have herase := assigned.sumBy_erase (fun _ vs => if v ∈ vs then (1 : ℤ) else 0) r
  unfold readersOf
  omega

theorem readersOf_nonneg (assigned : Dict ν (List ν)) (v : ν) : 0 ≤ readersOf assigned v := by
  apply Dict.sumBy_nonneg
  intro _ vs
  split <;> omega

/-- An assignment is counted. -/
theorem readersOf_pos {assigned : Dict ν (List ν)} {r v : ν} (h : v ∈ assigned.getD r []) :
    0 < readersOf assigned v := by
  have herase := readersOf_erase assigned r v
  have hrest := readersOf_nonneg (assigned.erase r) v
  rw [if_pos h] at herase
  omega

theorem Sound.distinctD {s : FanoutSensor ν} (h : s.Sound) (r : ν) :
    (s.assigned.getD r []).Nodup := by
  unfold Dict.getD
  cases hget : s.assigned.get? r with
  | none => exact List.nodup_nil
  | some vs => exact h.distinct r vs hget

/-! ## §6. Routing keeps the bookkeeping. -/

theorem Counts.incrementAll (vs : List ν) :
    ∀ {behind : Dict ν ℤ} {f : ν → ℤ}, Counts behind f → vs.Nodup →
      Counts (vs.foldl (fun behind v => FanoutSensor.increment v behind) behind)
        fun w => f w + if w ∈ vs then 1 else 0 := by
  induction vs with
  | nil =>
      intro behind f h _
      simpa using h
  | cons v vs ih =>
      intro behind f h hnd
      obtain ⟨hv, hvs⟩ := List.nodup_cons.mp hnd
      have hrest := ih (h.increment v) hvs
      have hfun : (fun w => f w + if w ∈ v :: vs then (1 : ℤ) else 0)
          = fun w => (if w = v then f w + 1 else f w) + if w ∈ vs then 1 else 0 := by
        funext w
        by_cases hwv : w = v
        · subst hwv
          simp [hv]
        · simp [hwv]
      rw [hfun]
      exact hrest

omit [DecidableEq ν] in
theorem nodup_take_one (vs : List ν) : (vs.take 1).Nodup := by
  cases vs <;> simp

/-- What `_routed` leaves of the gates. -/
def gatesAfter (requesterPub : Publication ν) (sources : List ν)
    (gatePubs : List (Publication ν)) (s : FanoutSensor ν) :
    Dict (Publication ν) (Dict ν (List (Publication ν))) :=
  if byVolume (sources.take 1) gatePubs = Dict.empty then
    s.gates.filterKeys (fun p => p.volume ≠ requesterPub.volume)
  else (s.gates.filterKeys (fun p => p.volume ≠ requesterPub.volume)).set requesterPub
    (byVolume (sources.take 1) gatePubs)

/-- The gates after routing: the requester's own entries go, and its new one
comes unless it is empty. -/
theorem get?_gatesAfter (requesterPub : Publication ν) (sources : List ν)
    (gatePubs : List (Publication ν)) (s : FanoutSensor ν) (p : Publication ν)
    (d : Dict ν (List (Publication ν))) :
    (gatesAfter requesterPub sources gatePubs s).get? p = some d
      ↔ (p.volume ≠ requesterPub.volume ∧ s.gates.get? p = some d)
        ∨ (p = requesterPub ∧ d = byVolume (sources.take 1) gatePubs ∧ d ≠ Dict.empty) := by
  unfold gatesAfter
  by_cases hempty : byVolume (sources.take 1) gatePubs = Dict.empty
  · rw [if_pos hempty, Dict.get?_filterKeys]
    by_cases hv : p.volume = requesterPub.volume
    · simp only [hv, ne_eq, not_true, decide_false, false_and, false_or]
      constructor
      · intro h
        cases h
      · intro h
        exact absurd (h.2.1.trans hempty) h.2.2
    · simp only [hv, ne_eq, not_false_eq_true, decide_true, if_true, true_and]
      constructor
      · intro h
        exact .inl h
      · intro h
        rcases h with h | ⟨_, hd, hne⟩
        · exact h
        · exact absurd (hd.trans hempty) hne
  · rw [if_neg hempty, Dict.get?_set]
    by_cases hp : requesterPub = p
    · subst hp
      rw [if_pos rfl, Option.some.injEq]
      constructor
      · intro h
        exact .inr ⟨rfl, h.symm, h ▸ hempty⟩
      · intro h
        rcases h with ⟨hne, _⟩ | ⟨_, hd, _⟩
        · exact absurd rfl hne
        · exact hd.symm
    · rw [if_neg hp, Dict.get?_filterKeys]
      by_cases hv : p.volume = requesterPub.volume
      · simp [hv, Ne.symm hp]
      · simp [hv, Ne.symm hp]

/-- **Routing never raises and keeps the bookkeeping.** -/
theorem routed_sound {s : FanoutSensor ν} (h : s.Sound) (requesterPub : Publication ν)
    (sources : List ν) (gatePubs : List (Publication ν)) (arrival : ℚ) :
    ∃ s', routed requesterPub sources gatePubs arrival s = some s' ∧ s'.Sound ∧
      s'.cap = s.cap ∧
      s'.arrivals = (if requesterPub ∈ s.arrivals then s.arrivals
        else s.arrivals.set requesterPub arrival) ∧
      s'.assigned = (s.assigned.erase requesterPub.volume).set requesterPub.volume
        (sources.take 1) ∧
      s'.gates = gatesAfter requesterPub sources gatePubs s := by
  -- who it was assigned to is counted, so taking it off there raises nothing
  obtain ⟨behind, hbehind, hcounts⟩ := h.counts.decrementAll
    (s.assigned.getD requesterPub.volume []) (h.distinctD _)
    (fun v hv => readersOf_pos hv)
  have hrouted : routed requesterPub sources gatePubs arrival s = some
      { cap := s.cap
        arrivals := if requesterPub ∈ s.arrivals then s.arrivals
          else s.arrivals.set requesterPub arrival
        behind := (sources.take 1).foldl (fun behind v => FanoutSensor.increment v behind) behind
        assigned := (s.assigned.erase requesterPub.volume).set requesterPub.volume
          (sources.take 1)
        gates := gatesAfter requesterPub sources gatePubs s } := by
    show Option.map _ ((s.assigned.getD requesterPub.volume []).foldlM
      (fun behind v => FanoutSensor.decrement v behind) s.behind) = _
    rw [hbehind]
    rfl
  refine ⟨_, hrouted, ?_, rfl, rfl, rfl, rfl⟩
  constructor
  case counts =>
    have hinc := hcounts.incrementAll (sources.take 1) (nodup_take_one sources)
    have hfun : (fun w => (if w ∈ s.assigned.getD requesterPub.volume []
            then s.readers w - 1 else s.readers w) + if w ∈ sources.take 1 then 1 else 0)
        = readersOf ((s.assigned.erase requesterPub.volume).set requesterPub.volume
            (sources.take 1)) := by
      funext w
      rw [readersOf_set, readersOf_erase (s.assigned.erase requesterPub.volume),
        readersOf_erase]
      simp [Dict.getD, readers]
    rw [hfun] at hinc
    exact hinc
  case distinct =>
    intro r vs hget
    simp only [Dict.get?_set] at hget
    by_cases hr : requesterPub.volume = r
    · rw [if_pos hr, Option.some.injEq] at hget
      rw [← hget]
      exact nodup_take_one sources
    · rw [if_neg hr, Dict.get?_erase_ne _ hr] at hget
      exact h.distinct r vs hget
  case oneGate =>
    intro p q hp hq hpq
    obtain ⟨dp, hdp⟩ := (Dict.mem_iff _ _).mp hp
    obtain ⟨dq, hdq⟩ := (Dict.mem_iff _ _).mp hq
    have hp' := (get?_gatesAfter requesterPub sources gatePubs s p dp).mp hdp
    have hq' := (get?_gatesAfter requesterPub sources gatePubs s q dq).mp hdq
    -- a new entry displaced the others of its volume
    rcases hp' with ⟨hpv, hps⟩ | ⟨rfl, _⟩ <;> rcases hq' with ⟨hqv, hqs⟩ | ⟨rfl, _⟩
    · exact h.oneGate p q (Dict.mem_of_get? hps) (Dict.mem_of_get? hqs) hpq
    · exact absurd hpq hpv
    · exact absurd hpq.symm hqv
    · rfl
  case within =>
    intro p d v pubs hd hv
    have hgate := (get?_gatesAfter requesterPub sources gatePubs s p d).mp hd
    rcases hgate with ⟨hpv, hps⟩ | ⟨rfl, rfl, _⟩
    · obtain ⟨hne, hmem⟩ := h.within p d v pubs hps hv
      refine ⟨hne, ?_⟩
      have hread : ((s.assigned.erase requesterPub.volume).set requesterPub.volume
          (sources.take 1)).getD p.volume [] = s.assigned.getD p.volume [] := by
        unfold Dict.getD
        rw [Dict.get?_set_ne _ _ (Ne.symm hpv), Dict.get?_erase_ne _ (Ne.symm hpv)]
      show v ∈ Dict.getD _ _ _
      rw [hread]
      exact hmem
    · have hne := byVolume_ne_nil _ _ v pubs hv
      obtain ⟨q, hq⟩ := List.exists_mem_of_ne_nil pubs hne
      have hmem := (mem_byVolume (sources.take 1) gatePubs q v).mp (by
        simpa [Dict.getD, hv] using hq)
      refine ⟨hne, ?_⟩
      simpa [Dict.getD] using hmem.2.2

/-! ## §7. Publishing keeps the bookkeeping. -/

/-- The publications of volume `v` that the entry of `r` still waits on. -/
def gatePubs (s : FanoutSensor ν) (r : Publication ν) (v : ν) : List (Publication ν) :=
  ((s.gates.get? r).getD Dict.empty).getD v []

/-- What is left of one entry: it goes once it is empty. -/
theorem get?_left (gates : Dict (Publication ν) (Dict ν (List (Publication ν))))
    (r q : Publication ν) (d : Dict ν (List (Publication ν))) :
    (if d = Dict.empty then gates.erase r else gates.set r d).get? q
      = if r = q then (if d = Dict.empty then none else some d) else gates.get? q := by
  by_cases hd : d = Dict.empty
  · rw [if_pos hd, if_pos hd, Dict.get?_erase]
  · rw [if_neg hd, if_neg hd, Dict.get?_set]

/-- What settling one gate entry changes. -/
structure Settled (p : Publication ν) (r : Publication ν) (s s' : FanoutSensor ν) : Prop where
  sound : s'.Sound
  cap : s'.cap = s.cap
  arrivals : s'.arrivals = s.arrivals
  others : ∀ q, q ≠ r → s'.gates.get? q = s.gates.get? q
  keeps : ∀ q v x, x ≠ p → x ∈ s.gatePubs q v → x ∈ s'.gatePubs q v

theorem Settled.refl {s : FanoutSensor ν} (h : s.Sound) (p r : Publication ν) :
    Settled p r s s :=
  ⟨h, rfl, rfl, fun _ _ => rfl, fun _ _ _ _ hx => hx⟩

/-- A gate entry whose set of one volume lost `p` but is not empty. -/
theorem Settled.shrink {s : FanoutSensor ν} (h : s.Sound) {p r : Publication ν}
    {d : Dict ν (List (Publication ν))} {pubs : List (Publication ν)}
    (hr : s.gates.get? r = some d) (hd : d.get? p.volume = some pubs)
    (hleft : pubs.filter (· ≠ p) ≠ []) :
    Settled p r s
      { s with gates := s.gates.set r (d.set p.volume (pubs.filter (· ≠ p))) } := by
  refine ⟨⟨h.counts, h.distinct, ?_, ?_⟩, rfl, rfl, ?_, ?_⟩
  · intro q q' hq hq' hv
    have hkey : ∀ x, x ∈ s.gates.set r (d.set p.volume (pubs.filter (· ≠ p))) → x ∈ s.gates := by
      intro x hx
      rcases (Dict.mem_set _ _ _ _).mp hx with rfl | hx
      · exact Dict.mem_of_get? hr
      · exact hx
    exact h.oneGate q q' (hkey q hq) (hkey q' hq') hv
  · intro q e v es hq hv
    simp only [Dict.get?_set] at hq
    by_cases hrq : r = q
    · subst hrq
      rw [if_pos rfl, Option.some.injEq] at hq
      subst hq
      rw [Dict.get?_set] at hv
      by_cases hpv : p.volume = v
      · subst hpv
        rw [if_pos rfl, Option.some.injEq] at hv
        subst hv
        exact ⟨hleft, (h.within r d p.volume pubs hr hd).2⟩
      · rw [if_neg hpv] at hv
        exact h.within r d v es hr hv
    · rw [if_neg hrq] at hq
      exact h.within q e v es hq hv
  · intro q hq
    exact Dict.get?_set_ne _ _ (Ne.symm hq)
  · intro q v x hx hmem
    unfold gatePubs at hmem ⊢
    simp only [Dict.get?_set]
    by_cases hrq : r = q
    · subst hrq
      rw [hr] at hmem
      rw [if_pos rfl]
      simp only [Option.getD_some, Dict.getD, Dict.get?_set] at hmem ⊢
      by_cases hpv : p.volume = v
      · subst hpv
        rw [hd] at hmem
        simp only [if_true, Option.getD_some] at hmem ⊢
        exact List.mem_filter.mpr ⟨hmem, by simpa using hx⟩
      · rw [if_neg hpv]
        exact hmem
    · rw [if_neg hrq]
      exact hmem

/-- A gate entry whose set of one volume ran empty: the reader leaves that
volume. -/
theorem Settled.leave {s : FanoutSensor ν} (h : s.Sound) {p r : Publication ν}
    {d : Dict ν (List (Publication ν))} {pubs : List (Publication ν)} {vs : List ν}
    {behind : Dict ν ℤ}
    (hr : s.gates.get? r = some d) (hd : d.get? p.volume = some pubs)
    (hleft : pubs.filter (· ≠ p) = []) (hvs : s.assigned.get? r.volume = some vs)
    (hmem : p.volume ∈ vs)
    (hcounts : Counts behind fun w => if w = p.volume then s.readers w - 1 else s.readers w) :
    Settled p r s
      { s with
        behind := behind
        assigned := s.assigned.set r.volume (vs.erase p.volume)
        gates := if d.erase p.volume = Dict.empty then s.gates.erase r
          else s.gates.set r (d.erase p.volume) } := by
  have hnd : vs.Nodup := h.distinct r.volume vs hvs
  have hgetD : s.assigned.getD r.volume [] = vs := by
    rw [Dict.getD, hvs]
    rfl
  refine ⟨⟨?_, ?_, ?_, ?_⟩, rfl, rfl, ?_, ?_⟩
  · have hfun : (fun w => if w = p.volume then s.readers w - 1 else s.readers w)
        = readersOf (s.assigned.set r.volume (vs.erase p.volume)) := by
      funext w
      rw [readersOf_set, readersOf_erase, hgetD]
      simp only [hnd.mem_erase_iff]
      by_cases hw : w = p.volume
      · subst hw
        simp [hmem, readers]
      · by_cases hwv : w ∈ vs <;> simp [hw, hwv, readers]
    rw [hfun] at hcounts
    exact hcounts
  · intro x ws hx
    simp only [Dict.get?_set] at hx
    by_cases hxr : r.volume = x
    · rw [if_pos hxr, Option.some.injEq] at hx
      rw [← hx]
      exact hnd.erase _
    · rw [if_neg hxr] at hx
      exact h.distinct x ws hx
  · intro q q' hq hq' hv
    have hkey : ∀ x, x ∈ (if d.erase p.volume = Dict.empty then s.gates.erase r
        else s.gates.set r (d.erase p.volume)) → x ∈ s.gates := by
      intro x hx
      obtain ⟨e, he⟩ := (Dict.mem_iff _ _).mp hx
      rw [get?_left] at he
      by_cases hrx : r = x
      · subst hrx
        exact Dict.mem_of_get? hr
      · rw [if_neg hrx] at he
        exact Dict.mem_of_get? he
    exact h.oneGate q q' (hkey q hq) (hkey q' hq') hv
  · intro q e v es hq hv
    simp only [get?_left] at hq
    by_cases hrq : r = q
    · subst hrq
      rw [if_pos rfl] at hq
      by_cases hempty : d.erase p.volume = Dict.empty
      · rw [if_pos hempty] at hq
        cases hq
      · rw [if_neg hempty, Option.some.injEq] at hq
        subst hq
        rw [Dict.get?_erase] at hv
        by_cases hpv : p.volume = v
        · rw [if_pos hpv] at hv
          cases hv
        · rw [if_neg hpv] at hv
          obtain ⟨hne, hin⟩ := h.within r d v es hr hv
          rw [hgetD] at hin
          refine ⟨hne, ?_⟩
          simp only [Dict.getD, Dict.get?_set_self, Option.getD_some]
          exact hnd.mem_erase_iff.mpr ⟨Ne.symm hpv, hin⟩
    · rw [if_neg hrq] at hq
      obtain ⟨hne, hin⟩ := h.within q e v es hq hv
      -- one entry a requester: the others belong to other requesters
      have hvol : r.volume ≠ q.volume := fun heq =>
        hrq (h.oneGate r q (Dict.mem_of_get? hr) (Dict.mem_of_get? hq) heq)
      refine ⟨hne, ?_⟩
      simp only [Dict.getD, Dict.get?_set_ne _ _ hvol]
      exact hin
  · intro q hq
    show Dict.get? (ite _ _ _) q = _
    rw [get?_left, if_neg (Ne.symm hq)]
  · intro q v x hx hold
    unfold gatePubs at hold ⊢
    simp only [get?_left]
    by_cases hrq : r = q
    · subst hrq
      rw [hr] at hold
      have hpv : p.volume ≠ v := by
        intro hpv
        subst hpv
        simp only [Option.getD_some, Dict.getD, hd] at hold
        have hfil : x ∈ pubs.filter (· ≠ p) := List.mem_filter.mpr ⟨hold, by simpa using hx⟩
        rw [hleft] at hfil
        cases hfil
      have hread : (d.erase p.volume).getD v [] = d.getD v [] := by
        unfold Dict.getD
        rw [Dict.get?_erase_ne _ hpv]
      have hne : d.erase p.volume ≠ Dict.empty := by
        intro hempty
        simp only [Option.getD_some] at hold
        rw [← hread, hempty] at hold
        cases hold
      rw [if_pos rfl, if_neg hne]
      show x ∈ (d.erase p.volume).getD v []
      rw [hread]
      exact hold
    · rw [if_neg hrq]
      exact hold

/-- One turn of the loop: the entry is settled, whatever it holds. -/
theorem settleGate_settled {s : FanoutSensor ν} (h : s.Sound) (p : Publication ν)
    (entry : Publication ν × Dict ν (List (Publication ν)))
    (hentry : s.gates.get? entry.1 = some entry.2) :
    ∃ s', settleGate p s entry = some s' ∧ Settled p entry.1 s s' := by
  unfold settleGate
  cases hd : entry.2.get? p.volume with
  | none => exact ⟨s, rfl, .refl h p entry.1⟩
  | some pubs =>
      by_cases hp : p ∈ pubs
      · simp only [if_pos hp]
        by_cases hleft : pubs.filter (· ≠ p) = []
        · have hin := (h.within entry.1 entry.2 p.volume pubs hentry hd).2
          obtain ⟨behind, hbehind, hcounts⟩ := h.counts.decrement (readersOf_pos hin)
          cases hvs : s.assigned.get? entry.1.volume with
          | none =>
              rw [Dict.getD, hvs] at hin
              cases hin
          | some vs =>
              rw [Dict.getD, hvs] at hin
              refine ⟨_, ?_, Settled.leave h hentry hd hleft hvs hin hcounts⟩
              rw [if_pos hleft, hbehind]
              rfl
        · rw [if_neg hleft]
          exact ⟨_, rfl, Settled.shrink h hentry hd hleft⟩
      · simp only [if_neg hp]
        exact ⟨s, rfl, .refl h p entry.1⟩

/-- The loop over a snapshot of the gates: an entry not reached yet still stands
as it was taken. -/
theorem settleGates (p : Publication ν)
    (entries : List (Publication ν × Dict ν (List (Publication ν)))) :
    ∀ {s : FanoutSensor ν}, s.Sound → (entries.map Prod.fst).Nodup →
      (∀ e ∈ entries, s.gates.get? e.1 = some e.2) →
      ∃ s', entries.foldlM (settleGate p) s = some s' ∧ s'.Sound ∧ s'.cap = s.cap ∧
        s'.arrivals = s.arrivals ∧
        ∀ q v x, x ≠ p → x ∈ s.gatePubs q v → x ∈ s'.gatePubs q v := by
  induction entries with
  | nil =>
      intro s h _ _
      exact ⟨s, rfl, h, rfl, rfl, fun _ _ _ _ hx => hx⟩
  | cons e entries ih =>
      intro s h hnd hcur
      simp only [List.map_cons, List.nodup_cons] at hnd
      obtain ⟨s₁, hs₁, hset⟩ := settleGate_settled h p e (hcur e List.mem_cons_self)
      have hcur₁ : ∀ f ∈ entries, s₁.gates.get? f.1 = some f.2 := by
        intro f hf
        have hne : f.1 ≠ e.1 := fun heq =>
          hnd.1 (heq ▸ List.mem_map_of_mem (f := Prod.fst) hf)
        rw [hset.others f.1 hne]
        exact hcur f (List.mem_cons_of_mem _ hf)
      obtain ⟨s₂, hs₂, hsound, hcap, harr, hkeep⟩ := ih hset.sound hnd.2 hcur₁
      refine ⟨s₂, ?_, hsound, hcap.trans hset.cap, harr.trans hset.arrivals, ?_⟩
      · rw [List.foldlM_cons, hs₁]
        exact hs₂
      · intro q v x hx hmem
        exact hkeep q v x hx (hset.keeps q v x hx hmem)

/-- **Publishing never raises and keeps the bookkeeping**; every entry keeps what
was not published. -/
theorem published_sound {s : FanoutSensor ν} (h : s.Sound) (p : Publication ν) :
    ∃ s', published p s = some s' ∧ s'.Sound ∧ s'.cap = s.cap ∧
      s'.arrivals = s.arrivals.erase p ∧
      ∀ q v x, x ≠ p → x ∈ s.gatePubs q v → x ∈ s'.gatePubs q v := by
  have hsound : ({ s with arrivals := s.arrivals.erase p } : FanoutSensor ν).Sound :=
    ⟨h.counts, h.distinct, h.oneGate, h.within⟩
  exact settleGates p s.gates.entries hsound s.gates.nodup
    (fun e he => (s.gates.get?_eq_some_iff e.1 e.2).mpr he)

/-! ## §8. What the gate entries say. -/

/-- A routed publication waits, at its entry, on the gate publications of its
first source. -/
theorem gatePubs_routed_self {s s' : FanoutSensor ν} {requesterPub : Publication ν}
    {sources : List ν} {pubs : List (Publication ν)}
    (h : s'.gates = gatesAfter requesterPub sources pubs s) {x : Publication ν}
    (hx : x ∈ pubs) (hv : x.volume ∈ sources.take 1) :
    x ∈ s'.gatePubs requesterPub x.volume := by
  have hmem := (mem_byVolume (sources.take 1) pubs x x.volume).mpr ⟨hx, rfl, hv⟩
  have hne : byVolume (sources.take 1) pubs ≠ Dict.empty := by
    intro hempty
    rw [hempty] at hmem
    cases hmem
  have hget := (get?_gatesAfter requesterPub sources pubs s requesterPub _).mpr
    (.inr ⟨rfl, rfl, hne⟩)
  unfold gatePubs
  rw [h, hget]
  exact hmem

/-- Routing leaves the entries of other requesters. -/
theorem gatePubs_routed_other {s s' : FanoutSensor ν} {requesterPub : Publication ν}
    {sources : List ν} {pubs : List (Publication ν)}
    (h : s'.gates = gatesAfter requesterPub sources pubs s) {q : Publication ν}
    (hq : q.volume ≠ requesterPub.volume) (v : ν) :
    s'.gatePubs q v = s.gatePubs q v := by
  have hread : s'.gates.get? q = s.gates.get? q := by
    apply Option.ext
    intro d
    rw [h, get?_gatesAfter]
    constructor
    · intro hd
      rcases hd with hd | ⟨rfl, _⟩
      · exact hd.2
      · exact absurd rfl hq
    · intro hd
      exact .inl ⟨hq, hd⟩
  unfold gatePubs
  rw [hread]

/-- A requester that waits on a volume is assigned to it. -/
theorem Sound.assigned_of_waits {s : FanoutSensor ν} (h : s.Sound) {r x : Publication ν}
    {v : ν} (hx : x ∈ s.gatePubs r v) : r ∈ s.gates ∧ v ∈ s.assigned.getD r.volume [] := by
  unfold gatePubs at hx
  cases hget : s.gates.get? r with
  | none =>
      rw [hget] at hx
      cases hx
  | some d =>
      rw [hget, Option.getD_some, Dict.getD] at hx
      cases hd : d.get? v with
      | none =>
          rw [hd] at hx
          cases hx
      | some pubs => exact ⟨Dict.mem_of_get? hget, (h.within r d v pubs hget hd).2⟩

/-- Distinct requesters assigned to a volume are at most its readers. -/
theorem length_le_readersOf (v : ν) (rs : List ν) :
    ∀ assigned : Dict ν (List ν), rs.Nodup → (∀ r ∈ rs, v ∈ assigned.getD r []) →
      (rs.length : ℤ) ≤ readersOf assigned v := by
  induction rs with
  | nil =>
      intro assigned _ _
      exact readersOf_nonneg assigned v
  | cons r rs ih =>
      intro assigned hnd hmem
      obtain ⟨hr, hrs⟩ := List.nodup_cons.mp hnd
      have herase := readersOf_erase assigned r v
      rw [if_pos (hmem r List.mem_cons_self)] at herase
      have hrest := ih (assigned.erase r) hrs (by
        intro x hx
        have hne : r ≠ x := fun heq => hr (heq ▸ hx)
        rw [Dict.getD, Dict.get?_erase_ne _ hne]
        exact hmem x (List.mem_cons_of_mem _ hx))
      rw [List.length_cons]
      push_cast
      omega

/-- **Publications waiting at a volume are at most the readers counted on it.** -/
theorem Sound.waiting_le {s : FanoutSensor ν} (h : s.Sound) (v : ν)
    (ps : List (Publication ν)) (hnd : ps.Nodup)
    (hwait : ∀ p ∈ ps, ∃ x, x ∈ s.gatePubs p v) : (ps.length : ℤ) ≤ s.named v := by
  have hassigned : ∀ p ∈ ps, p ∈ s.gates ∧ v ∈ s.assigned.getD p.volume [] := by
    intro p hp
    obtain ⟨x, hx⟩ := hwait p hp
    exact h.assigned_of_waits hx
  -- one entry a requester, so distinct publications are distinct requesters
  have hvols : (ps.map Publication.volume).Nodup := by
    refine List.Nodup.map_on ?_ hnd
    intro p hp q hq hv
    exact h.oneGate p q (hassigned p hp).1 (hassigned q hq).1 hv
  have hlen := length_le_readersOf v (ps.map Publication.volume) s.assigned hvols (by
    intro r hr
    obtain ⟨p, hp, rfl⟩ := List.mem_map.mp hr
    exact (hassigned p hp).2)
  rw [List.length_map] at hlen
  have hcount := (h.counts v).1
  unfold named
  rw [hcount]
  exact hlen

/-! ## §9. Every sequence of actions. -/

/-- What the sensor folds; it has no fold for a declaration. -/
def fold (s : FanoutSensor ν) : Action ν → Option (FanoutSensor ν)
  | .asked _ => some s
  | .published publication => published publication s
  | .routed requesterPub sources gatePubs arrival =>
      routed requesterPub sources gatePubs arrival s

/-- No fold raises, and each keeps the bookkeeping. -/
theorem Sound.folded {s : FanoutSensor ν} (h : s.Sound) (action : Action ν) :
    ∃ s', s.fold action = some s' ∧ s'.Sound := by
  cases action with
  | asked _ => exact ⟨s, rfl, h⟩
  | published publication =>
      obtain ⟨s', hs', hsound, _⟩ := published_sound h publication
      exact ⟨s', hs', hsound⟩
  | routed requesterPub sources gatePubs arrival =>
      obtain ⟨s', hs', hsound, _⟩ := routed_sound h requesterPub sources gatePubs arrival
      exact ⟨s', hs', hsound⟩

theorem Sound.run {s : FanoutSensor ν} (h : s.Sound) :
    ∀ actions : List (Action ν), ∃ s', actions.foldlM fold s = some s' ∧ s'.Sound := by
  intro actions
  induction actions generalizing s with
  | nil => exact ⟨s, rfl, h⟩
  | cons action rest ih =>
      obtain ⟨t, ht, hsound⟩ := h.folded action
      obtain ⟨s', hs', hsound'⟩ := ih hsound
      refine ⟨s', ?_, hsound'⟩
      rw [List.foldlM_cons, ht]
      exact hs'

/-- The readers of a volume, counted requester by requester. -/
theorem readersOf_eq_countP (assigned : Dict ν (List ν)) (v : ν) :
    readersOf assigned v = assigned.entries.countP fun e => decide (v ∈ e.2) := by
  unfold readersOf Dict.sumBy
  induction assigned.entries with
  | nil => rfl
  | cons e rest ih =>
      rw [List.map_cons, List.sum_cons, ih, List.countP_cons]
      by_cases hv : v ∈ e.2
      · simp only [if_pos hv, decide_eq_true hv, if_true]
        omega
      · simp only [if_neg hv, decide_eq_false hv, Bool.false_eq_true, if_false]
        omega

/-- **The bookkeeping holds whatever is folded.**  No fold of any sequence raises; the
load of a volume is the number of requesters assigned to it, with no entry for none;
and a requester has one gate entry at most, each volume of which it is assigned to and
waits for some publication on. -/
theorem load_agrees (cap : ℤ) (actions : List (Action ν)) :
    ∃ s, actions.foldlM fold (new cap) = some s ∧
      (∀ v, s.named v = s.assigned.entries.countP fun e => decide (v ∈ e.2)) ∧
      (∀ v, s.behind.get? v = none ↔
        (s.assigned.entries.countP fun e => decide (v ∈ e.2)) = 0) ∧
      (∀ p q, p ∈ s.gates → q ∈ s.gates → p.volume = q.volume → p = q) ∧
      ∀ p byVolume v pubs, s.gates.get? p = some byVolume → byVolume.get? v = some pubs →
        v ∈ s.assigned.getD p.volume [] ∧ pubs ≠ [] := by
  obtain ⟨s, hs, hsound⟩ := (new_sound (ν := ν) cap).run actions
  have hload : ∀ v, s.named v = s.assigned.entries.countP fun e => decide (v ∈ e.2) := by
    intro v
    rw [← readersOf_eq_countP]
    exact (hsound.counts v).1
  refine ⟨s, hs, hload, ?_, hsound.oneGate, ?_⟩
  · intro v
    have hv := hload v
    unfold named Dict.getD at hv
    constructor
    · intro hnone
      rw [hnone, Option.getD_none] at hv
      omega
    · intro hzero
      cases hget : s.behind.get? v with
      | none => rfl
      | some n =>
          have hpos := (hsound.counts v).2 n hget
          rw [hget, Option.getD_some] at hv
          omega
  · intro p byVolume v pubs hp hv
    obtain ⟨hne, hassigned⟩ := hsound.within p byVolume v pubs hp hv
    exact ⟨hassigned, hne⟩

end FanoutSensor

end Toso.DedupSim
