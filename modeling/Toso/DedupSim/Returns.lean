/-
  Toso.DedupSim.Returns — every reader of a fleet returns.

  A reader has five moves, and no move is ever taken back: the key stays where it
  was stored, so nobody meets a missing key and asks again.  While somebody has
  not returned, somebody can move: a reader that did not ask can ask, and of
  those that asked the one declared first waits for nobody.

  Main results:
    * `moves_left` — every move takes one from the moves left.
    * `somebody_moves` — a fleet stops only where everybody has returned.
    * `every_reader_returns` — and in a run that does not pause while it can move,
      everybody does.
-/
import Toso.DedupSim.Fleet

namespace Toso.DedupSim

open Lib Toso.Proposed Toso.SimCommon

variable {δ ρ ν : Type*} [LinearOrder ν] {R : Readers δ ρ ν} {f : Fleet δ ν}

/-! ## §1. The moves left. -/

/-- The moves left to all readers. -/
def Fleet.left (R : Readers δ ρ ν) (f : Fleet δ ν) : ℕ := (R.ids.map fun v => (f.stage v).left).sum

/-- One reader's move is one move less. -/
theorem sum_left_turn {reader : ν} {p : Stage ν} (hleft : p.left + 1 = (f.stage reader).left) :
    ∀ {ids : List ν}, ids.Nodup → reader ∈ ids →
      (ids.map fun v => ((f.turn reader p).stage v).left).sum + 1
        = (ids.map fun v => (f.stage v).left).sum
  | id :: ids, hnd, hmem => by
      obtain ⟨hnot, hnd⟩ := List.nodup_cons.mp hnd
      rw [List.map_cons, List.map_cons, List.sum_cons, List.sum_cons, Fleet.stage_turn]
      by_cases hid : id = reader
      · have hrest : (ids.map fun v => ((f.turn reader p).stage v).left)
            = ids.map fun v => (f.stage v).left := by
          apply List.map_congr_left
          intro v hv
          have hne : v ≠ reader := fun heq => hnot (hid ▸ heq ▸ hv)
          rw [Fleet.stage_turn, if_neg hne]
        rw [if_pos hid, hrest, hid]
        omega
      · have hin := (List.mem_cons.mp hmem).resolve_left (Ne.symm hid)
        have hrest := sum_left_turn hleft hnd hin
        rw [if_neg hid]
        omega

/-- A reader that moved is one of the readers. -/
theorem Fleet.Sound.reader_mem (h : f.Sound R) {reader : ν} (hstage : f.stage reader ≠ .waiting) :
    reader ∈ R.ids := by
  by_contra hout
  exact hstage (h.outside reader hout)

/-- **Every move takes one from the moves left.** -/
theorem moves_left (hR : R.Documented) (h : f.Sound R) {f' : Fleet δ ν} {e : FleetEvent δ ν}
    (hs : R.Step f e f') : f'.left R + 1 = f.left R := by
  cases e with
  | asked reader =>
      obtain ⟨hreader, hstage, plane, plan, _, rfl⟩ := hs
      exact sum_left_turn (p := .settling plan) (by rw [hstage]; rfl) hR.distinct hreader
  | settled reader =>
      obtain ⟨plan, hstage, _, rfl⟩ := hs
      exact sum_left_turn (by rw [hstage]; rfl) hR.distinct
        (h.reader_mem (by rw [hstage]; exact nofun))
  | fetched reader source =>
      obtain ⟨plan, hstage, _, rfl⟩ := hs
      exact sum_left_turn (p := .storing plan) (by rw [hstage]; rfl) hR.distinct
        (h.reader_mem (by rw [hstage]; exact nofun))
  | missed reader =>
      obtain ⟨_, _, _, hnil, _⟩ := hs
      exact absurd hnil (h.holders_ne hR)
  | stored reader directory =>
      obtain ⟨plan, hstage, _, _, rfl⟩ := hs
      exact sum_left_turn (p := .reporting plan) (by rw [hstage]; rfl) hR.distinct
        (h.reader_mem (by rw [hstage]; exact nofun))
  | published reader =>
      obtain ⟨plan, plane, hstage, _, rfl⟩ := hs
      exact sum_left_turn (p := .returned plan) (by rw [hstage]; rfl) hR.distinct
        (h.reader_mem (by rw [hstage]; exact nofun))

/-! ## §2. Somebody can move. -/

/-- A reader that did not ask can ask. -/
theorem Fleet.Sound.can_ask (hR : R.Documented) (h : f.Sound R) {reader : ν}
    (hreader : reader ∈ R.ids) (hstage : f.stage reader = .waiting) : ∃ e f', R.Step f e f' := by
  obtain ⟨plane, plan, hdecide⟩ :=
    Dedup.decide_total hR.directory (h.coherent hR).fanout R.requests reader
  exact ⟨.asked reader, _, hreader, hstage, plane, plan, hdecide, rfl⟩

/-- A reader that asked and is not held by its gate can move. -/
theorem Fleet.Sound.can_move (hR : R.Documented) (h : f.Sound R) {reader : ν} {plan : ReadPlan ν}
    (hplan : (f.stage reader).plan? = some plan) (hopen : f.plane.Open plan)
    (hended : (f.stage reader).ended = false) : ∃ e f', R.Step f e f' := by
  cases hstage : f.stage reader with
  | waiting =>
      rw [hstage] at hplan
      cases hplan
  | settling own =>
      rw [hstage] at hplan
      cases hplan
      exact ⟨.settled reader, _, plan, hstage, hopen, rfl⟩
  | reading own =>
      rw [hstage] at hplan
      cases hplan
      obtain ⟨only, honly, _⟩ := h.sourced reader plan (by rw [hstage]; rfl)
      have hholds : only ∈ f.holders := h.opened reader plan (by rw [hstage]; rfl)
        (by rw [hstage]; rfl) only (by rw [honly]; exact List.mem_cons_self)
      refine ⟨.fetched reader only, _, plan, hstage, ⟨hholds, fun v hv => ?_⟩, rfl⟩
      rw [honly, List.find?_cons_of_pos (by simp [hholds])] at hv
      exact (Option.some.inj hv).symm
  | storing own =>
      obtain ⟨directory, hwrites, hlive⟩ := hR.lands f.plane.sensor.directory reader
      exact ⟨.stored reader directory, _, own, hstage, hwrites, hlive, rfl⟩
  | reporting own =>
      obtain ⟨fanout, hpub, _⟩ :=
        FanoutSensor.published_sound (h.coherent hR).fanout own.publication
      have hdispatch : ∃ plane, R.dedup.dispatch (.published own.publication) f.plane
          = some plane := by
        simp [Dedup.dispatch, hpub]
      obtain ⟨plane, hplane⟩ := hdispatch
      exact ⟨.published reader, _, own, plane, hstage, hplane, rfl⟩
  | returned own =>
      rw [hstage] at hended
      cases hended

/-- **A fleet stops only where everybody has returned.** -/
theorem somebody_moves (hR : R.Documented) (h : f.Sound R) (hdone : ¬ f.Done R) :
    ∃ e f', R.Step f e f' := by
  by_cases hwaiting : ∃ v ∈ R.ids, f.stage v = .waiting
  · obtain ⟨v, hv, hstage⟩ := hwaiting
    exact h.can_ask hR hv hstage
  · -- everybody asked; of the publications in flight, take the one declared first
    have hasked : ∀ v ∈ R.ids, (f.stage v).ended = false →
        ∃ plan, (f.stage v).plan? = some plan ∧ f.plane.Unpublished plan.publication := by
      intro v hv hended
      obtain ⟨plan, hplan⟩ : ∃ plan, (f.stage v).plan? = some plan := by
        cases hstage : f.stage v with
        | waiting => exact absurd ⟨v, hv, hstage⟩ hwaiting
        | _ plan => exact ⟨plan, rfl⟩
      refine ⟨plan, hplan, (h.flight _).mpr ?_⟩
      obtain ⟨_, hvol⟩ := h.planned v plan hplan
      rw [hvol]
      exact ⟨plan, hplan, hended, rfl⟩
    have hsome : ∃ n, ∃ v ∈ R.ids, (f.stage v).ended = false ∧
        ∃ plan, (f.stage v).plan? = some plan ∧ plan.publication.pub = n := by
      unfold Fleet.Done at hdone
      push Not at hdone
      obtain ⟨v, hv, hended⟩ := hdone
      obtain ⟨plan, hplan, _⟩ := hasked v hv (Bool.eq_false_iff.mpr hended)
      exact ⟨_, v, hv, Bool.eq_false_iff.mpr hended, plan, hplan, rfl⟩
    classical
    obtain ⟨v, hv, hended, plan, hplan, hfirst⟩ := Nat.find_spec hsome
    obtain ⟨hmem, hvol⟩ := h.planned v plan hplan
    have hin : f.plane.Unpublished plan.publication := by
      obtain ⟨own, hown, hin⟩ := hasked v hv hended
      rw [hplan] at hown
      cases hown
      exact hin
    have holdest : ∀ q, f.plane.Unpublished q → plan.publication.pub ≤ q.pub := by
      intro q hq
      obtain ⟨own, hown, hrunning, hpub⟩ := (h.flight q).mp hq
      rw [hfirst]
      refine Nat.find_min' hsome ⟨q.volume, h.reader_mem ?_, hrunning, own, hown, by rw [hpub]⟩
      intro hstage
      rw [hstage] at hown
      cases hown
    have hopen := ((waits_on_earlier hR.directory h.run).2.2 _ hin holdest).2 plan hmem rfl
    exact h.can_move hR hplan hopen hended

/-! ## §3. The end of a run. -/

/-- Where everybody has returned nobody moves. -/
theorem done_stops (hR : R.Documented) (h : f.Sound R) (hdone : f.Done R) (e : FleetEvent δ ν)
    (f' : Fleet δ ν) : ¬ R.Step f e f' := by
  intro hst
  have hless := moves_left hR h hst
  have hnone : f.left R = 0 := by
    unfold Fleet.left
    rw [List.sum_eq_zero_iff]
    intro n hn
    obtain ⟨v, hv, rfl⟩ := List.mem_map.mp hn
    have hended := hdone v hv
    cases hstage : f.stage v <;> rw [hstage] at hended <;> first | rfl | cases hended
  omega

omit [LinearOrder ν] in
theorem Fleet.left_of_start (h : R.Start f) : f.left R = 5 * R.ids.length := by
  unfold Fleet.left
  simp [h.stage, Stage.left, Nat.mul_comm]

/-- **Every run is over after five moves of each reader**, and stops nowhere before. -/
theorem run_length (hR : R.Documented) {f₀ : Fleet δ ν} (hstart : R.Start f₀)
    {events : List (FleetEvent δ ν)} (hrun : R.machine.Trace f₀ events f) :
    events.length + f.left R = 5 * R.ids.length ∧
      ((∀ e f', ¬ R.Step f e f') ↔ f.Done R) := by
  have hboth : f.Sound R ∧ events.length + f.left R = 5 * R.ids.length := by
    refine hrun.invariant
      (P := fun events f => f.Sound R ∧ events.length + f.left R = 5 * R.ids.length) ?_ ?_
    · refine ⟨.start hR hstart, ?_⟩
      rw [List.length_nil, Nat.zero_add, Fleet.left_of_start hstart]
    · rintro events f e f' ⟨hsound, hlen⟩ hst
      have hless := moves_left hR hsound hst
      refine ⟨hsound.step hR hst, ?_⟩
      rw [List.length_append, List.length_singleton]
      omega
  obtain ⟨hsound, hlen⟩ := hboth
  refine ⟨hlen, ?_, ?_⟩
  · intro hstuck
    by_contra hdone
    obtain ⟨e, f', hst⟩ := somebody_moves hR hsound hdone
    exact hstuck e f' hst
  · exact done_stops hR hsound

/-- Two readers return in ten moves, and then nothing is enabled. -/
theorem run_length_two : ∃ f : Fleet (KeyDirectory ℕ) ℕ,
    twoReads.length + f.left (putGetReaders 1 64 [1, 2]) = 5 * 2 ∧
      ((∀ e f', ¬ (putGetReaders 1 64 [1, 2]).Step f e f') ↔
        f.Done (putGetReaders 1 64 [1, 2])) := by
  have hrun : (Machine.replay ((putGetReaders 1 64 [1, 2]).next keyLands) (putGetFleet 1)
      twoReads).isSome = true := by decide +kernel
  obtain ⟨f, hf⟩ := Option.isSome_iff_exists.mp hrun
  have hstart := putGetFleet_start 1 64 [1, 2]
  have htrace : (putGetReaders 1 64 [1, 2]).machine.Trace (putGetFleet 1) twoReads f :=
    Machine.Trace.of_replay (Readers.step_of_next keyLands_lands) twoReads .nil hf
  exact ⟨f, run_length (putGetReaders_documented 1 64 (show [0, 1, 2].Nodup by decide)) hstart
    htrace⟩

/-- **Every reader returns**: a run that does not pause for ever while some reader can
move comes to where everybody has returned, and nothing is in flight. -/
theorem every_reader_returns (hR : R.Documented) (run : Machine.Run R.machine)
    (hfair : run.Fair fun _ => True) :
    ∃ n, (run.state n).Done R ∧ ∀ q, ¬ (run.state n).plane.Unpublished q := by
  have hsound : ∀ n, (run.state n).Sound R := fun n => fleet_sound hR (run.reachable n)
  obtain ⟨n, _, hdone⟩ := run.eventually_of_rank (W := fun f => ¬ f.Done R) (Fleet.left R)
    (fun _ => ()) (A := fun _ _ => True) (fun _ => hfair) 0
    (fun m _ hnot => by
      obtain ⟨e, f', hst⟩ := somebody_moves hR (hsound m) hnot
      exact ⟨e, f', trivial, hst⟩)
    (fun m e _ he _ _ => by
      have hless := moves_left hR (hsound m) (run.step m e he)
      exact .inl (by omega))
  have hall : (run.state n).Done R := not_not.mp hdone
  refine ⟨n, hall, fun q hq => ?_⟩
  obtain ⟨plan, hplan, hended, _⟩ := ((hsound n).flight q).mp hq
  have hreader : q.volume ∈ R.ids := (hsound n).reader_mem (by
    intro hstage
    rw [hstage] at hplan
    cases hplan)
  rw [hall q.volume hreader] at hended
  cases hended

/-- Two readers return, the second behind the first. -/
theorem two_return : ∃ run : Machine.Run (putGetReaders 1 64 [1, 2]).machine,
    run.event 7 = some (.fetched 2 1) ∧ ∃ n, (run.state n).Done (putGetReaders 1 64 [1, 2]) ∧
      ∀ q, ¬ (run.state n).plane.Unpublished q := by
  have hR := putGetReaders_documented 1 64 (show [0, 1, 2].Nodup by decide)
  have hrun : (Machine.replay ((putGetReaders 1 64 [1, 2]).next keyLands) (putGetFleet 1)
      twoReads).map (fun f => decide ((f.stage 1).ended = true ∧ (f.stage 2).ended = true))
      = some true := by decide +kernel
  obtain ⟨f, hf, hval⟩ := Option.map_eq_some_iff.mp hrun
  obtain ⟨hone, htwo⟩ := of_decide_eq_true hval
  have hdone : f.Done (putGetReaders 1 64 [1, 2]) := by
    intro v hv
    have hcases : v = 1 ∨ v = 2 := by simpa [putGetReaders] using hv
    rcases hcases with rfl | rfl
    · exact hone
    · exact htwo
  have hstart := putGetFleet_start 1 64 [1, 2]
  refine ⟨.ofReplay (Readers.step_of_next keyLands_lands) hstart twoReads hf, rfl, ?_⟩
  refine every_reader_returns hR _ (Machine.Run.ofReplay_fair _ _ _ hf ?_)
  rintro ⟨e, f', _, hst⟩
  exact done_stops hR (fleet_sound hR (putGet_reaches hf)) hdone e f' hst

end Toso.DedupSim
