/-
  Toso.DedupSim.Fleet — every reader of one key, from its question to its report.

  Each reader asks once for the whole key, waits for its gate, fetches from the
  sources its plan names, writes the key into its own volume and reports the
  publication; the moves of the readers interleave in any order, a volume keeps
  what it holds, and every get is recorded in one ledger.

  A gate opens only behind volumes that hold the key, so a reader is served by
  the source its plan names first.  What the ledger counts as fabric is then
  decided by the plans alone.

  Main results:
    * `Decision.takes` — a decision for a whole key takes the one source that weighs least.
    * `Sound.step` — what holds of every fleet.
    * `served_where_routed` — who served whom, edge by edge, and the bytes of it.
-/
import Toso.DedupSim.OneHop
import Toso.DedupSim.ReadThrough
import Toso.SimCommon.Ledger
import Toso.Lib.Progress

namespace Toso.DedupSim

open Lib Toso.Proposed Toso.SimCommon

variable {δ ρ ν : Type*}

/-! ## §1. The fleet. -/

/-- Where the `read_through` of one reader stands, with its plan. -/
inductive Stage (ν : Type*)
  | waiting
  | settling (plan : ReadPlan ν)
  | reading (plan : ReadPlan ν)
  | storing (plan : ReadPlan ν)
  | reporting (plan : ReadPlan ν)
  | returned (plan : ReadPlan ν)
  deriving DecidableEq

namespace Stage

/-- The plan of a reader that has asked. -/
def plan? : Stage ν → Option (ReadPlan ν)
  | waiting => none
  | settling plan => some plan
  | reading plan => some plan
  | storing plan => some plan
  | reporting plan => some plan
  | returned plan => some plan

/-- The gate of the plan was seen open. -/
def opened : Stage ν → Bool
  | waiting => false
  | settling _ => false
  | _ => true

/-- The reader has the key. -/
def fetched : Stage ν → Bool
  | waiting => false
  | settling _ => false
  | reading _ => false
  | _ => true

/-- The reader's own volume has the key. -/
def stored : Stage ν → Bool
  | reporting _ => true
  | returned _ => true
  | _ => false

/-- The publication of the plan was reported. -/
def ended : Stage ν → Bool
  | returned _ => true
  | _ => false

/-- The volume the plan names first. -/
def source (stage : Stage ν) : Option ν := stage.plan?.bind ReadPlan.head

/-- The moves left. -/
def left : Stage ν → ℕ
  | waiting => 5
  | settling _ => 4
  | reading _ => 3
  | storing _ => 2
  | reporting _ => 1
  | returned _ => 0

end Stage

/-- What a run of readers fixes: the plane, what the directory says is live, the
batch, where the volumes are and what the fabric between them charges, the bytes of
the key, who reads it and who held it before. -/
structure Readers (δ ρ ν : Type*) where
  dedup : Dedup δ ρ ν
  live : δ → List ν
  requests : List ρ
  topology : ν → Endpoint
  cost : ν → ν → ℚ
  payload : ℕ
  ids : List ν
  origins : List ν

/-- The plane, every reader, the volumes that hold the key and the ledger. -/
structure Fleet (δ ν : Type*) where
  plane : State δ ν
  stage : ν → Stage ν
  holders : List ν
  ledger : Report.Ledger Report.Outcome

/-- A move of one reader. -/
inductive FleetEvent (δ ν : Type*)
  | asked (reader : ν)
  | settled (reader : ν)
  | fetched (reader source : ν)
  /-- `KeyError`: the key is nowhere. -/
  | missed (reader : ν)
  /-- `put_batch`, which registers the key before it returns. -/
  | stored (reader : ν) (directory : δ)
  | published (reader : ν)

variable [LinearOrder ν]

namespace Fleet

/-- A reader moves on. -/
def turn (reader : ν) (stage : Stage ν) (f : Fleet δ ν) : Fleet δ ν :=
  { f with stage := Function.update f.stage reader stage }

/-- A transfer reaches the ledger. -/
def record (t : Report.Transfer) (f : Fleet δ ν) : Fleet δ ν :=
  { f with ledger := f.ledger.recordTransfer t }

end Fleet

/-- **Who serves a read**: the first preferred volume that holds the key, or some
holder where none of them does. -/
def Serves (holders prefer : List ν) (source : ν) : Prop :=
  source ∈ holders ∧ ∀ v, prefer.find? holders.contains = some v → v = source

instance (holders prefer : List ν) (source : ν) : Decidable (Serves holders prefer source) :=
  match h : prefer.find? holders.contains with
  | none => decidable_of_iff (holders.contains source = true) (by
      simp only [Serves, h, List.contains_iff_mem, reduceCtorEq, false_implies, implies_true,
        and_true])
  | some v => decidable_of_iff (holders.contains source = true ∧ v = source) (by
      simp only [Serves, h, List.contains_iff_mem, Option.some.injEq, forall_eq'])

namespace Readers

/-- What a get reports: the volume that served it, and the reader. -/
def transfer (R : Readers δ ρ ν) (kind : Report.TransferKind) (source reader : ν) :
    Report.Transfer :=
  ⟨kind, (R.topology source).id, (R.topology reader).id, R.payload, R.cost source reader⟩

end Readers

namespace Readers

/-- **The moves of the readers.** -/
def Step (R : Readers δ ρ ν) (f : Fleet δ ν) : FleetEvent δ ν → Fleet δ ν → Prop
  | .asked reader, f' => reader ∈ R.ids ∧ f.stage reader = .waiting ∧ ∃ plane plan,
      R.dedup.decide R.requests reader f.plane = .ok (plane, plan) ∧
        f' = { f.turn reader (.settling plan) with plane := plane }
  | .settled reader, f' => ∃ plan, f.stage reader = .settling plan ∧ f.plane.Open plan ∧
      f' = f.turn reader (.reading plan)
  | .fetched reader source, f' => ∃ plan, f.stage reader = .reading plan ∧
      Serves f.holders plan.sources source ∧
        f' = (f.turn reader (.storing plan)).record (R.transfer .get source reader)
  | .missed reader, f' => ∃ plan plane, f.stage reader = .reading plan ∧ f.holders = [] ∧
      R.dedup.dispatch (.published plan.publication) f.plane = some plane ∧
        f' = { f.turn reader .waiting with plane := plane }
  | .stored reader directory, f' => ∃ plan, f.stage reader = .storing plan ∧
      R.dedup.controller.Writes f.plane.sensor.directory directory ∧
      (∀ v, v ∈ R.live directory ↔ v ∈ R.live f.plane.sensor.directory ∨ v = reader) ∧
        f' = { (f.turn reader (.reporting plan)).record (R.transfer .put reader reader) with
          plane := { f.plane with sensor := { f.plane.sensor with directory := directory } }
          holders := f.holders ++ [reader] }
  | .published reader, f' => ∃ plan plane, f.stage reader = .reporting plan ∧
      R.dedup.dispatch (.published plan.publication) f.plane = some plane ∧
        f' = { f.turn reader (.returned plan) with plane := plane }

/-- Nobody has asked, and the origins hold the key. -/
structure Start (R : Readers δ ρ ν) (f : Fleet δ ν) : Prop where
  fresh : R.dedup.Fresh f.plane
  stage : ∀ v, f.stage v = .waiting
  live : R.live f.plane.sensor.directory = R.origins
  holders : f.holders = R.origins
  ledger : f.ledger = .new (R.origins.map fun v => (R.topology v).id)

/-- **Any interleaving** of the readers' moves. -/
def machine (R : Readers δ ρ ν) : Machine (Fleet δ ν) (FleetEvent δ ν) := ⟨R.Start, R.Step⟩

/-- **What the store documents of a whole key**, and how the volumes lie: retiring a
publication takes no live copy away, a write can always land, somebody holds the key
before, and no reader does. -/
structure Documented (R : Readers δ ρ ν) : Prop where
  directory : R.dedup.controller.Documented
  wholeKey : R.dedup.controller.WholeKey R.live
  retired : ∀ n d, R.live (R.dedup.controller.notifyDeleteBatch n d) = R.live d
  lands : ∀ d v, ∃ d', R.dedup.controller.Writes d d' ∧ ∀ w, w ∈ R.live d' ↔ w ∈ R.live d ∨ w = v
  held : R.origins ≠ []
  distinct : R.ids.Nodup
  apart : ∀ v ∈ R.ids, v ∉ R.origins
  named : ∀ a ∈ R.origins ++ R.ids, ∀ b ∈ R.origins ++ R.ids,
    (R.topology a).id = (R.topology b).id → a = b

end Readers

/-! ## §2. Fleets that compute. -/

namespace Readers

/-- The moves that compute; `lands` says of a directory that it is another one with the
key landed in a volume. -/
def next (R : Readers δ ρ ν) (lands : δ → ν → δ → Bool) (f : Fleet δ ν) :
    FleetEvent δ ν → Option (Fleet δ ν)
  | .asked reader =>
      match f.stage reader, R.dedup.decide R.requests reader f.plane with
      | .waiting, .ok (plane, plan) =>
          if R.ids.contains reader then some { f.turn reader (.settling plan) with plane := plane } else none
      | _, _ => none
  | .settled reader =>
      match f.stage reader with
      | .settling plan => if f.plane.Open plan then some (f.turn reader (.reading plan)) else none
      | _ => none
  | .fetched reader source =>
      match f.stage reader with
      | .reading plan => if Serves f.holders plan.sources source
          then some ((f.turn reader (.storing plan)).record (R.transfer .get source reader)) else none
      | _ => none
  | .missed _ => none
  | .stored reader directory =>
      match f.stage reader with
      | .storing plan => if lands f.plane.sensor.directory reader directory
          then some { (f.turn reader (.reporting plan)).record (R.transfer .put reader reader) with
            plane := { f.plane with sensor := { f.plane.sensor with directory := directory } }
            holders := f.holders ++ [reader] }
          else none
      | _ => none
  | .published reader =>
      match f.stage reader with
      | .reporting plan => (R.dedup.dispatch (.published plan.publication) f.plane).map fun plane =>
          { f.turn reader (.returned plan) with plane := plane }
      | _ => none

theorem step_of_next {R : Readers δ ρ ν} {lands : δ → ν → δ → Bool}
    (hlands : ∀ d v d', lands d v d' = true → R.dedup.controller.Writes d d' ∧
      ∀ w, w ∈ R.live d' ↔ w ∈ R.live d ∨ w = v)
    (f : Fleet δ ν) (e : FleetEvent δ ν) (f' : Fleet δ ν) (h : R.next lands f e = some f') :
    R.machine.step f e f' := by
  cases e with
  | asked reader =>
      simp only [next] at h
      split at h
      · next hstage hdecide =>
          split at h
          · next hmem => exact ⟨List.contains_iff_mem.mp hmem, hstage, _, _, hdecide, (Option.some.inj h).symm⟩
          · cases h
      · cases h
  | settled reader =>
      simp only [next] at h
      split at h
      · next plan hstage =>
          split at h
          · next hopen => exact ⟨plan, hstage, hopen, (Option.some.inj h).symm⟩
          · cases h
      · cases h
  | fetched reader source =>
      simp only [next] at h
      split at h
      · next plan hstage =>
          split at h
          · next hserves => exact ⟨plan, hstage, hserves, (Option.some.inj h).symm⟩
          · cases h
      · cases h
  | missed reader => cases h
  | stored reader directory =>
      simp only [next] at h
      split at h
      · next plan hstage =>
          split at h
          · next hland =>
              obtain ⟨hwrites, hlive⟩ := hlands _ _ _ hland
              exact ⟨plan, hstage, hwrites, hlive, (Option.some.inj h).symm⟩
          · cases h
      · cases h
  | published reader =>
      simp only [next] at h
      split at h
      · next plan hstage =>
          obtain ⟨plane, hdispatch, hf⟩ := Option.map_eq_some_iff.mp h
          exact ⟨plan, plane, hstage, hdispatch, hf.symm⟩
      · cases h

end Readers

/-- The directory of one key, with one live copy more. -/
def keyLands (d : KeyDirectory ν) (v : ν) (d' : KeyDirectory ν) : Bool :=
  d'.live = d.live ++ [v] ∧ d'.declared = d.declared ∧ d'.last = d.last

theorem keyLands_lands (d : KeyDirectory ν) (v : ν) (d' : KeyDirectory ν)
    (h : keyLands d v d' = true) : (keyController ν).Writes d d' ∧
      ∀ w, w ∈ d'.live ↔ w ∈ d.live ∨ w = v := by
  obtain ⟨hlive, hdeclared, hlast⟩ := of_decide_eq_true h
  refine ⟨⟨le_of_eq hlast.symm, fun q => ?_⟩, fun w => by simp [hlive]⟩
  show q ∈ d'.declared ↔ q ∈ d.declared
  rw [hdeclared]

/-! ## §3. One decision for a whole key. -/

section

variable {D : Dedup δ ρ ν} {live : δ → List ν}

/-- What can serve a reader: a live copy, or a publication in flight. -/
def State.Offers (live : δ → List ν) (s : State δ ν) (q : Publication ν) : Prop :=
  (q.pub = 0 ∧ q.volume ∈ live s.sensor.directory) ∨ s.Unpublished q

/-- **The source a decision takes**: of what is offered and admitted, the one that
weighs least; a pending one is what the gate of the plan misses. -/
structure Taken (D : Dedup δ ρ ν) (live : δ → List ν) (requester : ν) (s s' : State δ ν)
    (plan : ReadPlan ν) (q : Publication ν) : Prop where
  offered : s.Offers live q
  admits : D.Admits s.fanout requester q = true
  least : ∀ x, s.Offers live x → D.Admits s.fanout requester x = true →
    D.weight s.fanout requester q ≤ D.weight s.fanout requester x
  sources : plan.sources = [q.volume]
  waits : q.pub ≠ 0 → .published q ∈ s'.missing plan

/-- **A decision for a whole key takes one source**, while something is admitted. -/
theorem Dedup.Decision.takes (hC : D.controller.Documented) (hkey : D.controller.WholeKey live)
    {requests : List ρ} {requester : ν} {s s' : State δ ν} {plan : ReadPlan ν} {arrival : ℚ}
    (hd : D.Decision requests requester s s' plan arrival) (htracks : s.sensor.Tracks D.controller)
    (hsome : ∃ x, s.Offers live x ∧ D.Admits s.fanout requester x = true) :
    ∃ q, Taken D live requester s s' plan q := by
  obtain ⟨hvol, _, _, _⟩ := htracks.declared hC requester requests
  -- what is served: what is offered, and the new publication
  have hserved : ∀ q, q ∈ (D.declared requests requester s).2.sensor.servingUnion D.controller
      requests ↔ s.Offers live q ∨ q = (D.declared requests requester s).1 := by
    intro q
    have hput : (D.declared requests requester s).2.sensor.directory
        = (D.controller.notifyPutBatch requests requester s.sensor.directory).2 := rfl
    unfold DirectorySensor.servingUnion State.Offers State.Unpublished
    rw [hkey.offers, hput, hkey.kept, hC.pending_put, htracks.pending, or_assoc]
    rfl
  have hranked : ∀ q, q ∈ D.ranked requests requester s
      ↔ s.Offers live q ∧ D.Admits s.fanout requester q = true := by
    intro q
    unfold Dedup.ranked
    rw [(Selection.rank_perm _ _).mem_iff, List.mem_filter, hserved]
    constructor
    · rintro ⟨hoff | rfl, hadm⟩
      · exact ⟨hoff, hadm⟩
      · exact absurd hvol ((D.admits_iff _ _ _).mp hadm).1
    · rintro ⟨hoff, hadm⟩
      exact ⟨.inl hoff, hadm⟩
  cases hrank : D.ranked requests requester s with
  | nil =>
      obtain ⟨x, hx⟩ := hsome
      have hmem := (hranked x).mpr hx
      rw [hrank] at hmem
      cases hmem
  | cons q rest =>
      obtain ⟨hoff, hadm⟩ := (hranked q).mp (by rw [hrank]; exact List.mem_cons_self)
      have hone : D.chosen requests requester s = [q] := by
        have hfirst : D.chosen requests requester s = (D.ranked requests requester s).take 1 :=
          hkey.first _ _ _
        rw [hfirst, hrank]
        rfl
      refine ⟨q, hoff, hadm, ?_, ?_, ?_⟩
      · intro x hx hxadm
        have hmem := (hranked x).mpr ⟨hx, hxadm⟩
        unfold Dedup.ranked at hrank hmem
        exact weight_le_of_figure_le (Selection.rank_head_le hrank
          ((Selection.rank_perm _ _).mem_iff.mp hmem))
      · rw [hd.sources, hone]
        rfl
      · intro hpub
        have hgated : q ∈ Dedup.gatePublications (D.chosen requests requester s) :=
          Dedup.mem_gatePublications.mpr ⟨by rw [hone]; exact List.mem_cons_self, hpub⟩
        obtain ⟨hflight, _⟩ := Dedup.chosen_pending hC htracks hgated
        have hstill : s'.Unpublished q := (hd.unpublished hC htracks).2 q |>.mpr (.inl hflight)
        -- it is in flight, so the probe of the gate is false
        cases hready : plan.ready with
        | none =>
            rcases Dispatcher.gate_cases hd.gate with ⟨_, hholds, _⟩ | ⟨hsome', _⟩
            · rw [Bool.not_eq_true', List.any_eq_false] at hholds
              exact absurd hstill (hholds q hgated)
            · rw [hready] at hsome'
              cases hsome'
        | some n =>
            rw [State.missing_of_ready hready]
            exact ((hd.new_gate hready).2.2 _).mpr ⟨q, hgated, rfl⟩

/-- The gate of an older plan still misses the publications it missed. -/
theorem Dedup.Decision.still_missing {requests : List ρ} {requester : ν} {s s' : State δ ν}
    {plan : ReadPlan ν} {arrival : ℚ} (hd : D.Decision requests requester s s' plan arrival)
    (hcoh : Coherent D s) {old : ReadPlan ν} (hold : old ∈ s.plans) {q : Publication ν}
    (hq : .published q ∈ s.missing old) : .published q ∈ s'.missing old := by
  cases hready : old.ready with
  | none =>
      rw [State.missing_of_none hready] at hq
      cases hq
  | some n =>
      rw [State.missing_of_ready hready] at hq ⊢
      obtain ⟨hlen, hreg⟩ := hcoh.parked old hold n hready
      -- neither of the two commits is the action it misses
      have hcommits : .published q ∈ ((s.dispatcher.commit (.asked plan.publication)).commit
          (.routed plan.publication plan.sources
            (Dedup.gatePublications (D.chosen requests requester s)) arrival)).missing n := by
        rw [Dispatcher.missing_commit (hreg.commit _), Dispatcher.missing_commit hreg]
        simp [hq]
      have hn : n < ((s.dispatcher.commit (.asked plan.publication)).commit
          (.routed plan.publication plan.sources
            (Dedup.gatePublications (D.chosen requests requester s)) arrival)).waiters.length := by
        rw [Dispatcher.length_commit, Dispatcher.length_commit]
        exact hlen
      rcases Dispatcher.gate_cases hd.gate with ⟨_, _, _, _, hkeep⟩ | ⟨_, _, _, hpark⟩
      · rw [(hkeep n hn).1]
        exact hcommits
      · rw [hpark, Dispatcher.missing_park, if_neg (Nat.ne_of_lt hn)]
        exact hcommits

/-- A completion is the one publication an older gate may stop missing. -/
theorem missing_landed {s s' : State δ ν} {p q : Publication ν} (hcoh : Coherent D s)
    (hdispatch : D.dispatch (.published p) s = some s') {old : ReadPlan ν}
    (hold : old ∈ s.plans) (hne : q ≠ p) (hq : .published q ∈ s.missing old) :
    .published q ∈ s'.missing old := by
  cases hready : old.ready with
  | none =>
      rw [State.missing_of_none hready] at hq
      cases hq
  | some n =>
      rw [State.missing_of_ready hready] at hq ⊢
      obtain ⟨_, hreg⟩ := hcoh.parked old hold n hready
      rw [(published_cases hdispatch).2.2.1, Dispatcher.missing_commit hreg]
      simp [hq, hne]

end

/-! ## §4. What holds of every fleet. -/

section

variable {R : Readers δ ρ ν} {f : Fleet δ ν}

theorem Fleet.stage_turn (reader v : ν) (stage : Stage ν) (f : Fleet δ ν) :
    (f.turn reader stage).stage v = if v = reader then stage else f.stage v :=
  Function.update_apply f.stage reader stage v

/-- **The invariant of a fleet.**  A reader that was routed is routed to one volume,
which holds the key or is still missed by the gate; behind an open gate it holds it. -/
structure Fleet.Sound (R : Readers δ ρ ν) (f : Fleet δ ν) : Prop where
  run : R.dedup.machine.Reachable f.plane
  honest : f.plane.dispatcher.Honest
  live : ∀ v, v ∈ R.live f.plane.sensor.directory ↔ v ∈ f.holders
  held : ∀ v, v ∈ f.holders ↔ v ∈ R.origins ∨ (f.stage v).stored = true
  outside : ∀ v, v ∉ R.ids → f.stage v = .waiting
  planned : ∀ v plan, (f.stage v).plan? = some plan →
    plan ∈ f.plane.plans ∧ plan.publication.volume = v
  flight : ∀ q, f.plane.Unpublished q ↔ ∃ plan, (f.stage q.volume).plan? = some plan ∧
    (f.stage q.volume).ended = false ∧ plan.publication = q
  sourced : ∀ v plan, (f.stage v).plan? = some plan → ∃ source, plan.sources = [source] ∧
    (source ∈ f.holders ∨ ∃ q, q.volume = source ∧ .published q ∈ f.plane.missing plan)
  opened : ∀ v plan, (f.stage v).plan? = some plan → (f.stage v).opened = true →
    ∀ source ∈ plan.sources, source ∈ f.holders

namespace Fleet.Sound

theorem start (hR : R.Documented) (h : R.Start f) : f.Sound R where
  run := .init h.fresh
  honest := by
    rw [h.fresh.dispatcher]
    exact Dispatcher.honest_new
  live v := by rw [h.live, h.holders]
  held v := by simp [h.holders, h.stage, Stage.stored]
  outside v _ := h.stage v
  planned v plan hplan := by
    rw [h.stage] at hplan
    cases hplan
  flight q := by
    constructor
    · intro hq
      have hnone := (coherent_of_reachable hR.directory (.init h.fresh)).tracks.pending q
      exact absurd (hnone.mpr hq) (h.fresh.pending q)
    · rintro ⟨plan, hplan, _⟩
      rw [h.stage] at hplan
      cases hplan
  sourced v plan hplan := by
    rw [h.stage] at hplan
    cases hplan
  opened v plan hplan := by
    rw [h.stage] at hplan
    cases hplan

theorem coherent (hR : R.Documented) (h : f.Sound R) : Coherent R.dedup f.plane :=
  coherent_of_reachable hR.directory h.run

/-- Somebody always holds the key. -/
theorem holders_ne (hR : R.Documented) (h : f.Sound R) : f.holders ≠ [] := by
  obtain ⟨v, hv⟩ := List.exists_mem_of_ne_nil _ hR.held
  exact List.ne_nil_of_mem ((h.held v).mpr (.inl hv))

/-- An origin can serve every reader. -/
theorem offers_origin (h : f.Sound R) {v : ν} (hv : v ∈ f.holders) :
    f.plane.Offers R.live ⟨0, v⟩ := .inl ⟨rfl, (h.live v).mpr hv⟩

/-- **A decision of a fleet**: a reader takes one source. -/
theorem takes (hR : R.Documented) (h : f.Sound R) {reader : ν} (hreader : reader ∈ R.ids)
    {plane : State δ ν} {plan : ReadPlan ν}
    (hdecide : R.dedup.decide R.requests reader f.plane = .ok (plane, plan)) :
    ∃ q, Taken R.dedup R.live reader f.plane plane plan q := by
  obtain ⟨arrival, hd⟩ := Dedup.decide_cases hR.directory hdecide
  obtain ⟨v, hv⟩ := List.exists_mem_of_ne_nil _ hR.held
  have hne : v ≠ reader := fun heq => hR.apart reader hreader (heq ▸ hv)
  exact hd.takes hR.directory hR.wholeKey (h.coherent hR).tracks
    ⟨⟨0, v⟩, h.offers_origin ((h.held v).mpr (.inl hv)), admits_live R.dedup _ hne⟩

/-- A reader asks. -/
theorem asked (hR : R.Documented) (h : f.Sound R) {reader : ν} (hreader : reader ∈ R.ids)
    (hstage : f.stage reader = .waiting) {plane : State δ ν} {plan : ReadPlan ν}
    (hdecide : R.dedup.decide R.requests reader f.plane = .ok (plane, plan)) :
    ({ f.turn reader (.settling plan) with plane := plane } : Fleet δ ν).Sound R := by
  obtain ⟨arrival, hd⟩ := Dedup.decide_cases hR.directory hdecide
  obtain ⟨q, hq⟩ := h.takes hR hreader hdecide
  have hcoh := h.coherent hR
  obtain ⟨_, hunp⟩ := hd.unpublished hR.directory hcoh.tracks
  have hvol : plan.publication.volume = reader := by
    rw [hd.publication]
    exact (hcoh.tracks.declared hR.directory reader R.requests).1
  have hlive : R.live plane.sensor.directory = R.live f.plane.sensor.directory := by
    rw [hd.sensor]
    exact hR.wholeKey.kept _ _ _
  -- nothing of a reader that did not ask is in flight
  have hnone : ∀ p, p.volume = reader → ¬ f.plane.Unpublished p := by
    intro p hp hin
    obtain ⟨old, hold, _⟩ := (h.flight p).mp hin
    rw [hp, hstage] at hold
    cases hold
  constructor
  case run => exact .step (e := .sources R.requests reader) h.run ⟨plan, hdecide⟩
  case honest => exact ((h.honest.commit _).commit _).gate hd.gate
  case live =>
    intro v
    show v ∈ R.live plane.sensor.directory ↔ _
    rw [hlive]
    exact h.live v
  case held =>
    intro v
    show v ∈ f.holders ↔ _
    rw [h.held v, stage_turn]
    by_cases hv : v = reader
    · rw [if_pos hv, hv, hstage]
      rfl
    · rw [if_neg hv]
  case outside =>
    intro v hv
    show (f.turn reader (.settling plan)).stage v = _
    have hne : v ≠ reader := fun heq => hv (heq ▸ hreader)
    rw [stage_turn, if_neg hne]
    exact h.outside v hv
  case planned =>
    intro v old hold
    show old ∈ plane.plans ∧ _
    rw [stage_turn] at hold
    rw [hd.plans]
    by_cases hv : v = reader
    · rw [if_pos hv] at hold
      cases hold
      exact ⟨List.mem_append_right _ (List.mem_singleton_self _), hvol.trans hv.symm⟩
    · rw [if_neg hv] at hold
      obtain ⟨hmem, hown⟩ := h.planned v old hold
      exact ⟨List.mem_append_left _ hmem, hown⟩
  case flight =>
    intro p
    show plane.Unpublished p ↔ _
    rw [hunp, stage_turn]
    by_cases hp : p.volume = reader
    · rw [if_pos hp]
      constructor
      · rintro (hin | rfl)
        · exact absurd hin (hnone p hp)
        · exact ⟨plan, rfl, rfl, rfl⟩
      · rintro ⟨old, hold, _, rfl⟩
        cases hold
        exact .inr rfl
    · rw [if_neg hp, h.flight p]
      refine or_iff_left fun heq => hp ?_
      rw [heq, hvol]
  case sourced =>
    intro v old hold
    rw [stage_turn] at hold
    by_cases hv : v = reader
    · rw [if_pos hv] at hold
      cases hold
      refine ⟨q.volume, hq.sources, ?_⟩
      rcases hq.offered with ⟨_, hcopy⟩ | hin
      · exact .inl ((h.live _).mp hcopy)
      · have hpub : q.pub ≠ 0 := by
          have hgiven := hcoh.tracks.given q.pub q (DirectorySensor.isInFlight_iff.mp hin)
          omega
        exact .inr ⟨q, rfl, hq.waits hpub⟩
    · rw [if_neg hv] at hold
      obtain ⟨source, hsource, hready⟩ := h.sourced v old hold
      refine ⟨source, hsource, hready.imp_right ?_⟩
      rintro ⟨p, hp, hmiss⟩
      exact ⟨p, hp, hd.still_missing hcoh (h.planned v old hold).1 hmiss⟩
  case opened =>
    intro v old hold hopen
    rw [stage_turn] at hold hopen
    by_cases hv : v = reader
    · rw [if_pos hv] at hopen
      cases hopen
    · rw [if_neg hv] at hold hopen
      exact h.opened v old hold hopen

/-- The parts of the invariant that see the stages only: a move keeps the plan. -/
theorem kept (h : f.Sound R) {reader : ν} {stage : Stage ν}
    (hplan : stage.plan? = (f.stage reader).plan?) (hended : stage.ended = (f.stage reader).ended)
    (hstored : stage.stored = (f.stage reader).stored) (hreader : f.stage reader ≠ .waiting)
    (hopened : ∀ plan, stage.plan? = some plan → stage.opened = true →
      ∀ source ∈ plan.sources, source ∈ f.holders) : (f.turn reader stage).Sound R where
  run := h.run
  honest := h.honest
  live := h.live
  held v := by
    show v ∈ f.holders ↔ _
    rw [h.held v, stage_turn]
    by_cases hv : v = reader
    · rw [if_pos hv, hv, hstored]
    · rw [if_neg hv]
  outside v hv := by
    have hne : v ≠ reader := fun heq => hreader (heq ▸ h.outside v hv)
    rw [stage_turn, if_neg hne]
    exact h.outside v hv
  planned v old hold := by
    rw [stage_turn] at hold
    by_cases hv : v = reader
    · rw [if_pos hv, hplan, ← hv] at hold
      exact h.planned v old hold
    · rw [if_neg hv] at hold
      exact h.planned v old hold
  flight p := by
    show f.plane.Unpublished p ↔ _
    rw [h.flight p, stage_turn]
    by_cases hp : p.volume = reader
    · rw [if_pos hp, hplan, hended, hp]
    · rw [if_neg hp]
  sourced v old hold := by
    rw [stage_turn] at hold
    by_cases hv : v = reader
    · rw [if_pos hv, hplan, ← hv] at hold
      exact h.sourced v old hold
    · rw [if_neg hv] at hold
      exact h.sourced v old hold
  opened v old hold hopen := by
    rw [stage_turn] at hold hopen
    by_cases hv : v = reader
    · rw [if_pos hv] at hold hopen
      exact hopened old hold hopen
    · rw [if_neg hv] at hold hopen
      exact h.opened v old hold hopen

/-- A transfer moves nothing but the ledger. -/
theorem recorded (h : f.Sound R) (t : Report.Transfer) : (f.record t).Sound R :=
  ⟨h.run, h.honest, h.live, h.held, h.outside, h.planned, h.flight, h.sourced, h.opened⟩

/-- **Behind an open gate the source holds the key.** -/
theorem ready (h : f.Sound R) {reader : ν} {plan : ReadPlan ν}
    (hplan : (f.stage reader).plan? = some plan) (hopen : f.plane.Open plan) :
    ∀ source ∈ plan.sources, source ∈ f.holders := by
  intro source hsource
  obtain ⟨only, honly, hready⟩ := h.sourced reader plan hplan
  rw [honly, List.mem_singleton] at hsource
  rw [hsource]
  refine hready.resolve_right ?_
  rintro ⟨p, _, hmiss⟩
  cases hgate : plan.ready with
  | none =>
      rw [State.missing_of_none hgate] at hmiss
      cases hmiss
  | some n =>
      rw [State.missing_of_ready hgate, h.honest.missing_nil (hopen n hgate)] at hmiss
      cases hmiss

/-- The reader's own volume gets the key. -/
theorem stored (h : f.Sound R) {reader : ν} {plan : ReadPlan ν}
    (hstage : f.stage reader = .storing plan) {directory : δ}
    (hwrites : R.dedup.controller.Writes f.plane.sensor.directory directory)
    (hlive : ∀ v, v ∈ R.live directory ↔ v ∈ R.live f.plane.sensor.directory ∨ v = reader) :
    ({ f.turn reader (.reporting plan) with
      plane := { f.plane with sensor := { f.plane.sensor with directory := directory } }
      holders := f.holders ++ [reader] } : Fleet δ ν).Sound R := by
  have hholds : ∀ v, v ∈ f.holders ++ [reader] ↔ v ∈ f.holders ∨ v = reader := by simp
  have hold : ∀ v, (((f.turn reader (.reporting plan)).stage v).plan? = (f.stage v).plan?) ∧
      (((f.turn reader (.reporting plan)).stage v).ended = (f.stage v).ended) ∧
      (((f.turn reader (.reporting plan)).stage v).opened = (f.stage v).opened) := by
    intro v
    rw [stage_turn]
    by_cases hv : v = reader
    · rw [if_pos hv, hv, hstage]
      exact ⟨rfl, rfl, rfl⟩
    · rw [if_neg hv]
      exact ⟨rfl, rfl, rfl⟩
  constructor
  case run => exact .step (e := .written directory) h.run ⟨hwrites, rfl⟩
  case honest => exact h.honest
  case live =>
    intro v
    show v ∈ R.live directory ↔ v ∈ f.holders ++ [reader]
    rw [hlive, hholds, h.live]
  case held =>
    intro v
    show v ∈ f.holders ++ [reader] ↔ _ ∨ ((f.turn reader (.reporting plan)).stage v).stored = true
    rw [hholds, h.held, stage_turn]
    by_cases hv : v = reader
    · rw [if_pos hv]
      simp [hv, Stage.stored]
    · simp [hv]
  case outside =>
    intro v hv
    show (f.turn reader (.reporting plan)).stage v = _
    have hne : v ≠ reader := by
      rintro rfl
      rw [h.outside v hv] at hstage
      cases hstage
    rw [stage_turn, if_neg hne]
    exact h.outside v hv
  case planned => exact fun v old hp => h.planned v old ((hold v).1 ▸ hp)
  case flight =>
    intro p
    obtain ⟨hp, ho, _⟩ := hold p.volume
    show f.plane.Unpublished p ↔ ∃ plan', ((f.turn reader (.reporting plan)).stage p.volume).plan?
      = some plan' ∧ ((f.turn reader (.reporting plan)).stage p.volume).ended = false ∧ _
    rw [hp, ho]
    exact h.flight p
  case sourced =>
    intro v old hp
    obtain ⟨source, hsource, hready⟩ := h.sourced v old ((hold v).1 ▸ hp)
    exact ⟨source, hsource, hready.imp_left fun hmem => List.mem_append_left _ hmem⟩
  case opened =>
    intro v old hp hopen source hsource
    exact List.mem_append_left _
      (h.opened v old ((hold v).1 ▸ hp) ((hold v).2.2 ▸ hopen) source hsource)

/-- The publication of a reader is reported. -/
theorem published (hR : R.Documented) (h : f.Sound R) {reader : ν} {plan : ReadPlan ν}
    (hstage : f.stage reader = .reporting plan) {plane : State δ ν}
    (hdispatch : R.dedup.dispatch (.published plan.publication) f.plane = some plane) :
    ({ f.turn reader (.returned plan) with plane := plane } : Fleet δ ν).Sound R := by
  have hplan : (f.stage reader).plan? = some plan := by
    rw [hstage]
    rfl
  have hcoh := h.coherent hR
  obtain ⟨hmem, hvol⟩ := h.planned reader plan hplan
  obtain ⟨_, hsensor, hdisp, hplans⟩ := published_cases hdispatch
  have hunp := unpublished_landed hR.directory hcoh.tracks hdispatch
  have hreader : reader ∈ f.holders := (h.held reader).mpr (.inr (by rw [hstage]; rfl))
  have hold : ∀ v, (((f.turn reader (.returned plan)).stage v).plan? = (f.stage v).plan?) ∧
      (((f.turn reader (.returned plan)).stage v).stored = (f.stage v).stored) ∧
      (((f.turn reader (.returned plan)).stage v).opened = (f.stage v).opened) := by
    intro v
    rw [stage_turn]
    by_cases hv : v = reader
    · rw [if_pos hv, hv, hstage]
      exact ⟨rfl, rfl, rfl⟩
    · rw [if_neg hv]
      exact ⟨rfl, rfl, rfl⟩
  constructor
  case run =>
    exact .step (e := .published plan.publication) h.run ⟨⟨plan, hmem, rfl⟩, hdispatch⟩
  case honest =>
    show plane.dispatcher.Honest
    rw [hdisp]
    exact h.honest.commit _
  case live =>
    intro v
    show v ∈ R.live plane.sensor.directory ↔ _
    rw [hsensor]
    show v ∈ R.live (R.dedup.controller.notifyDeleteBatch _ _) ↔ _
    rw [hR.retired]
    exact h.live v
  case held =>
    intro v
    show v ∈ f.holders ↔ _ ∨ ((f.turn reader (.returned plan)).stage v).stored = true
    rw [(hold v).2.1]
    exact h.held v
  case outside =>
    intro v hv
    show (f.turn reader (.returned plan)).stage v = _
    have hne : v ≠ reader := by
      rintro rfl
      rw [h.outside v hv] at hstage
      cases hstage
    rw [stage_turn, if_neg hne]
    exact h.outside v hv
  case planned =>
    intro v old hp
    show old ∈ plane.plans ∧ _
    rw [hplans]
    exact h.planned v old ((hold v).1 ▸ hp)
  case flight =>
    intro p
    show plane.Unpublished p ↔ _
    rw [hunp, h.flight p, stage_turn]
    by_cases hp : p.volume = reader
    · rw [if_pos hp, hp, hplan]
      constructor
      · rintro ⟨⟨old, hsome, _, hown⟩, hne⟩
        cases hsome
        exact absurd (by rw [hown]) hne
      · rintro ⟨_, _, hended, _⟩
        cases hended
    · rw [if_neg hp]
      refine and_iff_left_of_imp fun hin hpub => hp ?_
      -- an id names one publication, and this one is another reader's
      have hin' := (h.flight p).mpr hin
      rw [(hcoh.issued plan hmem).2 p hin' hpub, hvol]
  case sourced =>
    intro v old hp
    have hp' : (f.stage v).plan? = some old := (hold v).1 ▸ hp
    obtain ⟨source, hsource, hready⟩ := h.sourced v old hp'
    refine ⟨source, hsource, ?_⟩
    rcases hready with hmem' | ⟨p, hpv, hmiss⟩
    · exact .inl hmem'
    · -- the gate misses it no longer only where the source has stored the key
      by_cases heq : p = plan.publication
      · refine .inl ?_
        rw [← hpv, heq, hvol]
        exact hreader
      · exact .inr ⟨p, hpv, missing_landed hcoh hdispatch (h.planned v old hp').1 heq hmiss⟩
  case opened =>
    exact fun v old hp hopen => h.opened v old ((hold v).1 ▸ hp) ((hold v).2.2 ▸ hopen)

/-- **Every move keeps a fleet sound.** -/
theorem step (hR : R.Documented) {f' : Fleet δ ν} {e : FleetEvent δ ν} (h : f.Sound R)
    (hs : R.Step f e f') : f'.Sound R := by
  cases e with
  | asked reader =>
      obtain ⟨hreader, hstage, plane, plan, hdecide, rfl⟩ := hs
      exact h.asked hR hreader hstage hdecide
  | settled reader =>
      obtain ⟨plan, hstage, hopen, rfl⟩ := hs
      refine h.kept (by rw [hstage]; rfl) (by rw [hstage]; rfl) (by rw [hstage]; rfl)
        (by rw [hstage]; exact nofun) fun old hold _ => ?_
      cases hold
      exact h.ready (by rw [hstage]; rfl) hopen
  | fetched reader source =>
      obtain ⟨plan, hstage, _, rfl⟩ := hs
      refine (h.kept (by rw [hstage]; rfl) (by rw [hstage]; rfl) (by rw [hstage]; rfl)
        (by rw [hstage]; exact nofun) fun old hold _ => ?_).recorded _
      cases hold
      exact h.opened reader plan (by rw [hstage]; rfl) (by rw [hstage]; rfl)
  | missed reader =>
      obtain ⟨_, _, _, hnil, _⟩ := hs
      exact absurd hnil (h.holders_ne hR)
  | stored reader directory =>
      obtain ⟨plan, hstage, hwrites, hlive, rfl⟩ := hs
      exact (h.stored hstage hwrites hlive).recorded (R.transfer .put reader reader)
  | published reader =>
      obtain ⟨plan, plane, hstage, hdispatch, rfl⟩ := hs
      exact h.published hR hstage hdispatch

end Fleet.Sound

theorem fleet_sound (hR : R.Documented) (h : R.machine.Reachable f) : f.Sound R :=
  h.invariant (fun _ hstart => .start hR hstart) fun _ _ _ hsound hst => hsound.step hR hst

/-! ## §5. Who served whom. -/

/-- The volume that serves a reader: the one its plan names first. -/
def Fleet.server (f : Fleet δ ν) (v : ν) : ν := (f.stage v).source.getD v

/-- The edge of a reader that has the key. -/
def Readers.edge (R : Readers δ ρ ν) (f : Fleet δ ν) (v : ν) : Report.Edge String :=
  ((R.topology (f.server v)).id, (R.topology v).id, (R.topology v).id)

/-- The volume of an edge held the key before. -/
def Readers.crosses (R : Readers δ ρ ν) (f : Fleet δ ν) (v : ν) : Bool :=
  R.origins.contains (f.server v)

/-- **What the ledger holds**, where `order` are the readers that have the key: one edge
for each, from the source it was routed to, which had the key before; and the bytes of
these edges. -/
structure Served (R : Readers δ ρ ν) (f : Fleet δ ν) (order : List ν) : Prop where
  nodup : order.Nodup
  readers : ∀ v, v ∈ order ↔ (f.stage v).fetched = true
  behind : ∀ before v after, order = before ++ v :: after →
    f.server v ∈ R.origins ∨ f.server v ∈ before
  edges : f.ledger.edges = if 0 < R.payload then order.map (R.edge f) else []
  transferBytes : f.ledger.transferBytes = order.length * R.payload
  originBytes : f.ledger.originBytes = order.countP (R.crosses f) * R.payload
  origins : f.ledger.origins = R.origins.map fun v => (R.topology v).id

namespace Served

variable {order : List ν}

theorem start (h : R.Start f) : Served R f [] where
  nodup := List.nodup_nil
  readers v := by simp [h.stage, Stage.fetched]
  behind before v after hsplit := by cases before <;> cases hsplit
  edges := by
    rw [h.ledger]
    split <;> rfl
  transferBytes := by
    rw [h.ledger, List.length_nil, Nat.zero_mul]
    rfl
  originBytes := by
    rw [h.ledger, List.countP_nil, Nat.zero_mul]
    rfl
  origins := by
    rw [h.ledger]
    rfl

/-- What follows a prefix of the order sees the same servers. -/
theorem congr_on {f' : Fleet δ ν} (hsource : ∀ v ∈ order, (f'.stage v).source = (f.stage v).source) :
    order.map (R.edge f') = order.map (R.edge f) ∧
      order.countP (R.crosses f') = order.countP (R.crosses f) := by
  have hserver : ∀ v ∈ order, f'.server v = f.server v := by
    intro v hv
    rw [Fleet.server, Fleet.server, hsource v hv]
  constructor
  · apply List.map_congr_left
    intro v hv
    rw [Readers.edge, Readers.edge, hserver v hv]
  · apply List.countP_congr
    intro v hv
    rw [Readers.crosses, Readers.crosses, hserver v hv]

/-- A move that fetches nothing leaves the ledger as it is. -/
theorem frame {f' : Fleet δ ν} (h : Served R f order)
    (hfetched : ∀ v, (f'.stage v).fetched = (f.stage v).fetched)
    (hsource : ∀ v, (f.stage v).fetched = true → (f'.stage v).source = (f.stage v).source)
    (hledger : f'.ledger = f.ledger) : Served R f' order := by
  have hon : ∀ v ∈ order, (f'.stage v).source = (f.stage v).source := fun v hv =>
    hsource v ((h.readers v).mp hv)
  obtain ⟨hedges, hcount⟩ := congr_on (R := R) hon
  constructor
  case nodup => exact h.nodup
  case readers =>
    intro v
    rw [hfetched]
    exact h.readers v
  case behind =>
    intro before v after hsplit
    have hv : v ∈ order := by
      rw [hsplit]
      exact List.mem_append_right _ List.mem_cons_self
    rw [Fleet.server, hon v hv]
    exact h.behind before v after hsplit
  case edges => rw [hledger, hedges, h.edges]
  case transferBytes => rw [hledger, h.transferBytes]
  case originBytes => rw [hledger, hcount, h.originBytes]
  case origins => rw [hledger, h.origins]

/-- The one volume a plan names serves, once it holds the key. -/
theorem serves_only {holders : List ν} {source only : ν} (h : Serves holders [only] source)
    (hholds : only ∈ holders) : source = only := by
  refine (h.2 only ?_).symm
  rw [List.find?_cons_of_pos (by simp [hholds])]

omit [LinearOrder ν] in
/-- The plan a stage keeps names the volume that serves. -/
theorem server_of_plan {reader only : ν} {plan : ReadPlan ν}
    (hplan : (f.stage reader).plan? = some plan) (honly : plan.sources = [only]) :
    (f.stage reader).source = some only := by
  rw [Stage.source, hplan]
  show plan.sources.head? = _
  rw [honly]
  rfl

/-- **A reader gets the key**: its edge is the last. -/
theorem fetched (hR : R.Documented) (hsound : f.Sound R) (h : Served R f order) {reader : ν}
    {plan : ReadPlan ν} (hstage : f.stage reader = .reading plan) {source : ν}
    (hserves : Serves f.holders plan.sources source) :
    Served R ((f.turn reader (.storing plan)).record (R.transfer .get source reader))
      (order ++ [reader]) := by
  have hplan : (f.stage reader).plan? = some plan := by
    rw [hstage]
    rfl
  obtain ⟨only, honly, _⟩ := hsound.sourced reader plan hplan
  have hholds : only ∈ f.holders := hsound.opened reader plan hplan (by rw [hstage]; rfl) only
    (by rw [honly]; exact List.mem_cons_self)
  have heq : source = only := serves_only (honly ▸ hserves) hholds
  have hnew : reader ∉ order := by
    rw [h.readers, hstage]
    exact nofun
  generalize hf' : (f.turn reader (.storing plan)).record (R.transfer .get source reader) = f'
  have hstages : ∀ v, f'.stage v = if v = reader then .storing plan else f.stage v := by
    intro v
    rw [← hf']
    exact Fleet.stage_turn reader v _ f
  have hon : ∀ v ∈ order, (f'.stage v).source = (f.stage v).source := by
    intro v hv
    rw [hstages, if_neg (fun heq : v = reader => hnew (heq ▸ hv))]
  have hself : f'.server reader = only := by
    have hplan' : (f'.stage reader).plan? = some plan := by
      rw [hstages, if_pos rfl]
      rfl
    rw [Fleet.server, server_of_plan hplan' honly]
    rfl
  obtain ⟨hedges, hcount⟩ := congr_on (R := R) hon
  -- the server is an origin, or a reader that had the key before
  have hbehind : only ∈ R.origins ∨ only ∈ order := by
    refine ((hsound.held only).mp hholds).imp_right fun hstored => (h.readers only).mpr ?_
    cases hst : f.stage only <;> rw [hst] at hstored <;> first | rfl | cases hstored
  have hreader : reader ∈ R.ids := by
    by_contra hout
    rw [hsound.outside reader hout] at hstage
    cases hstage
  have hmem : only ∈ R.origins ++ R.ids := by
    rcases hbehind with ho | ho
    · exact List.mem_append_left _ ho
    · refine List.mem_append_right _ ?_
      by_contra hout
      rw [h.readers, hsound.outside only hout] at ho
      cases ho
  have hlabel : (R.topology only).id ∈ f.ledger.origins ↔ only ∈ R.origins := by
    rw [h.origins, List.mem_map]
    constructor
    · rintro ⟨v, hv, hid⟩
      rw [← hR.named v (List.mem_append_left _ hv) only hmem hid]
      exact hv
    · exact fun ho => ⟨only, ho, rfl⟩
  have hledger : f'.ledger = f.ledger.recordTransfer (R.transfer .get only reader) := by
    rw [← hf', heq]
    rfl
  constructor
  case nodup =>
    refine List.nodup_append.mpr ⟨h.nodup, List.nodup_singleton reader, fun v hv w hw heq => ?_⟩
    rw [List.mem_singleton.mp hw] at heq
    exact hnew (heq ▸ hv)
  case readers =>
    intro v
    rw [hstages, List.mem_append, List.mem_singleton, h.readers]
    by_cases hv : v = reader
    · rw [if_pos hv]
      simp [hv, Stage.fetched]
    · rw [if_neg hv]
      simp [hv]
  case behind =>
    intro before v after hsplit
    rcases List.eq_nil_or_concat after with rfl | ⟨rest, last, rfl⟩
    · obtain ⟨rfl, hv⟩ := List.append_inj' hsplit rfl
      cases hv
      rw [hself]
      exact hbehind
    · have hsplit' : order ++ [reader] = (before ++ v :: rest) ++ [last] := by
        rw [hsplit, List.concat_eq_append, List.append_assoc, List.cons_append]
      obtain ⟨horder, _⟩ := List.append_inj' hsplit' rfl
      have hv : v ∈ order := by
        rw [horder]
        exact List.mem_append_right _ List.mem_cons_self
      rw [Fleet.server, hon v hv]
      exact h.behind before v rest horder
  case edges =>
    rw [hledger, List.map_append, hedges]
    show (if 0 < R.payload then f.ledger.edges ++ [_] else f.ledger.edges) = _
    rw [h.edges]
    split
    · rw [List.map_singleton, Readers.edge, hself]
      rfl
    · rfl
  case transferBytes =>
    rw [hledger, List.length_append, List.length_singleton, Nat.succ_mul]
    show f.ledger.transferBytes + R.payload = _
    rw [h.transferBytes]
  case originBytes =>
    have hlast : R.crosses f' reader = R.origins.contains only := by
      rw [Readers.crosses, hself]
    rw [hledger, List.countP_append, hcount, List.countP_singleton, hlast]
    show (if (R.topology only).id ∈ f.ledger.origins then f.ledger.originBytes + R.payload
      else f.ledger.originBytes) = _
    rw [h.originBytes]
    by_cases ho : only ∈ R.origins
    · rw [if_pos (hlabel.mpr ho), if_pos (by simp [ho]), Nat.succ_mul]
    · rw [if_neg (fun hin => ho (hlabel.mp hin)), if_neg (by simp [ho]), Nat.add_zero]
  case origins =>
    rw [hledger]
    exact h.origins

/-- **Every move keeps the ledger true.** -/
theorem step (hR : R.Documented) (hsound : f.Sound R) {f' : Fleet δ ν} {e : FleetEvent δ ν}
    (h : Served R f order) (hs : R.Step f e f') : ∃ order', Served R f' order' := by
  -- a move of one reader that neither asks nor fetches
  have hquiet : ∀ (reader : ν) (stage : Stage ν), stage.fetched = (f.stage reader).fetched →
      ((f.stage reader).fetched = true → stage.source = (f.stage reader).source) →
      ∀ f'' : Fleet δ ν, f''.stage = (f.turn reader stage).stage → f''.ledger = f.ledger →
        Served R f'' order := by
    intro reader stage hfetched hsource f'' hstages hledger
    refine h.frame (fun v => ?_) (fun v hv => ?_) hledger
    · rw [hstages, Fleet.stage_turn]
      split
      · rename_i heq
        rw [heq, hfetched]
      · rfl
    · rw [hstages, Fleet.stage_turn]
      split
      · rename_i heq
        rw [heq]
        exact hsource (heq ▸ hv)
      · rfl
  cases e with
  | asked reader =>
      obtain ⟨_, hstage, plane, plan, _, rfl⟩ := hs
      exact ⟨order, hquiet reader _ (by rw [hstage]; rfl) (by rw [hstage]; exact nofun) _ rfl rfl⟩
  | settled reader =>
      obtain ⟨plan, hstage, _, rfl⟩ := hs
      exact ⟨order, hquiet reader _ (by rw [hstage]; rfl) (by rw [hstage]; exact nofun) _ rfl rfl⟩
  | fetched reader source =>
      obtain ⟨plan, hstage, hserves, rfl⟩ := hs
      exact ⟨_, h.fetched hR hsound hstage hserves⟩
  | missed reader =>
      obtain ⟨_, _, _, hnil, _⟩ := hs
      exact absurd hnil (hsound.holders_ne hR)
  | stored reader directory =>
      obtain ⟨plan, hstage, _, _, rfl⟩ := hs
      exact ⟨order, hquiet reader (.reporting plan) (by rw [hstage]; rfl)
        (by rw [hstage]; exact fun _ => rfl) _ rfl rfl⟩
  | published reader =>
      obtain ⟨plan, plane, hstage, _, rfl⟩ := hs
      exact ⟨order, hquiet reader (.returned plan) (by rw [hstage]; rfl)
        (by rw [hstage]; exact fun _ => rfl) _ rfl rfl⟩

end Served

/-- Every reader has returned. -/
def Fleet.Done (R : Readers δ ρ ν) (f : Fleet δ ν) : Prop :=
  ∀ v ∈ R.ids, (f.stage v).ended = true

/-- **Every reader is served where it was routed**, in every interleaving: the ledger has
one edge for each reader that has the key, from the first source of its plan, an origin or
a reader served before it; a gets' bytes are counted once for each, and as fabric for those
behind an origin.  At the end these are all readers. -/
theorem served_where_routed (hR : R.Documented) (h : R.machine.Reachable f) :
    ∃ order, Served R f order ∧ (f.Done R → order.Perm R.ids) := by
  have hboth : f.Sound R ∧ ∃ order, Served R f order := by
    refine h.invariant (P := fun f => f.Sound R ∧ ∃ order, Served R f order) ?_ ?_
    · exact fun f hstart => ⟨.start hR hstart, [], .start hstart⟩
    · rintro f e f' ⟨hsound, order, hserved⟩ hst
      exact ⟨hsound.step hR hst, hserved.step hR hsound hst⟩
  obtain ⟨hsound, order, hserved⟩ := hboth
  refine ⟨order, hserved, fun hdone => ?_⟩
  refine (List.perm_ext_iff_of_nodup hserved.nodup hR.distinct).mpr fun v => ?_
  rw [hserved.readers]
  constructor
  · intro hv
    by_contra hout
    rw [hsound.outside v hout] at hv
    cases hv
  · intro hv
    have hended := hdone v hv
    cases hst : f.stage v <;> rw [hst] at hended <;> first | rfl | cases hended

end

/-- The readers of the put/get topology, whose key the writer holds. -/
def putGetReaders (fanoutCap : ℤ) (payload : ℕ) (ids : List ℕ) :
    Readers (KeyDirectory ℕ) Unit ℕ where
  dedup := putGet fanoutCap
  live := KeyDirectory.live
  requests := [()]
  topology := putGetTopology
  cost a b := networkTime (putGetTopology a) (putGetTopology b) payload defaultProfile
  payload := payload
  ids := ids
  origins := [0]

theorem putGetReaders_documented (fanoutCap : ℤ) (payload : ℕ) {ids : List ℕ}
    (hnd : (0 :: ids).Nodup) : (putGetReaders fanoutCap payload ids).Documented where
  directory := keyController_documented ℕ
  wholeKey := keyController_wholeKey ℕ
  retired _ _ := rfl
  lands d v := ⟨{ d with live := d.live ++ [v] }, keyLands_lands d v _ (by simp [keyLands])⟩
  held := List.cons_ne_nil _ _
  distinct := (List.nodup_cons.mp hnd).2
  apart v hv hzero := (List.nodup_cons.mp hnd).1 (List.mem_singleton.mp hzero ▸ hv)
  named a _ b _ hid := by
    by_contra hne
    exact named_by_length hne hid

/-- Nobody has asked yet, and volume `0` holds the key. -/
def putGetFleet (fanoutCap : ℤ) : Fleet (KeyDirectory ℕ) ℕ :=
  ⟨atOrigin fanoutCap, fun _ => .waiting, [0], .new [(putGetTopology 0).id]⟩

theorem putGetFleet_start (fanoutCap : ℤ) (payload : ℕ) (ids : List ℕ) :
    (putGetReaders fanoutCap payload ids).Start (putGetFleet fanoutCap) where
  fresh := ⟨(fun _ hp => List.not_mem_nil hp), rfl, rfl, rfl, rfl⟩
  stage _ := rfl
  live := rfl
  holders := rfl
  ledger := rfl

/-- What a successful replay of the put/get readers reaches. -/
theorem putGet_reaches {fanoutCap : ℤ} {payload : ℕ} {ids : List ℕ}
    {events : List (FleetEvent (KeyDirectory ℕ) ℕ)} {f : Fleet (KeyDirectory ℕ) ℕ}
    (h : Machine.replay ((putGetReaders fanoutCap payload ids).next keyLands)
      (putGetFleet fanoutCap) events = some f) :
    (putGetReaders fanoutCap payload ids).machine.Reachable f :=
  Machine.Reachable.of_replay (Readers.step_of_next keyLands_lands) events
    (.init (putGetFleet_start fanoutCap payload ids)) h

/-- Both readers ask at once; the second reads behind the first. -/
def twoReads : List (FleetEvent (KeyDirectory ℕ) ℕ) :=
  [.asked 1, .asked 2, .settled 1, .fetched 1 0, .stored 1 ⟨[0, 1], [⟨1, 1⟩, ⟨2, 2⟩], 2⟩,
    .published 1, .settled 2, .fetched 2 1, .stored 2 ⟨[0, 1, 2], [⟨2, 2⟩], 2⟩, .published 2]

/-- Two readers of sixty-four bytes: one edge each, and the fabric is crossed once. -/
theorem served_of_two : ∃ f order, Served (putGetReaders 1 64 [1, 2]) f order ∧
    order.Perm [1, 2] ∧ f.ledger.transferBytes = 128 ∧ f.ledger.originBytes = 64 := by
  have hrun : (Machine.replay ((putGetReaders 1 64 [1, 2]).next keyLands) (putGetFleet 1)
      twoReads).map (fun f => decide ((f.stage 1).ended = true ∧ (f.stage 2).ended = true ∧
        f.ledger.transferBytes = 128 ∧ f.ledger.originBytes = 64)) = some true := by
    decide +kernel
  obtain ⟨f, hf, hval⟩ := Option.map_eq_some_iff.mp hrun
  obtain ⟨hone, htwo, htransfer, horigin⟩ := of_decide_eq_true hval
  obtain ⟨order, hserved, hall⟩ := served_where_routed
    (putGetReaders_documented 1 64 (show [0, 1, 2].Nodup by decide)) (putGet_reaches hf)
  refine ⟨f, order, hserved, hall fun v hv => ?_, htransfer, horigin⟩
  have hcases : v = 1 ∨ v = 2 := by simpa [putGetReaders] using hv
  rcases hcases with rfl | rfl
  · exact hone
  · exact htwo


end Toso.DedupSim
