/-
  Toso.DedupSim.Fabric — what a fleet of readers moves off the origin.

  Readers of the put/get topology, in any order of moves.  Until the first of them
  has stored the key, the plane sees a burst; from then on a near copy is live,
  and nobody is routed to the far origin again.  So the bound of one fabric hop
  does not depend on the readers asking at once.

  The edges of a fleet are chronological, whatever its topology: each reader is
  served once, by an origin or by a reader served before.

  Main results:
    * `diagram_complete` — the diagram of the transfers shows every reader that was served,
      where the reads nest within the recursion limit.
    * `fleet_nests` — fewer readers than the limit never nest too deep.
    * `OneRoot.step` — while nobody has stored the key a burst, then no more of it.
    * `fabric_once` — the bytes off the origin are one payload.
-/
import Toso.DedupSim.Returns

namespace Toso.DedupSim

open Lib Toso.Proposed Toso.SimCommon

variable {δ ρ ν : Type*} [LinearOrder ν] {R : Readers δ ρ ν} {f : Fleet δ ν}

/-! ## §1. The diagram of a fleet. -/

/-- **Readers of the put/get topology**: a chained plane on the default profile, one origin
on its own node, every reader on a host of its own on one other node. -/
structure PutGet (R : Readers δ ρ ν) (origin : ν) : Prop where
  documented : R.Documented
  origins : R.origins = [origin]
  chained : R.dedup.spread = false
  cap : 1 ≤ R.dedup.fanoutCap
  environment : ∀ a b n, R.dedup.readTime a b n
    = readTime (R.topology a) (R.topology b) n defaultProfile
  hosts : ∀ a ∈ origin :: R.ids, ∀ b ∈ origin :: R.ids, a ≠ b →
    (R.topology a).host ≠ (R.topology b).host
  node : ∀ a ∈ R.ids, ∀ b ∈ R.ids, (R.topology a).node = (R.topology b).node
  away : ∀ a ∈ R.ids, (R.topology origin).node ≠ (R.topology a).node

namespace PutGet

variable {origin : ν} {s₀ : State δ ν}

omit [LinearOrder ν] in
theorem origin_notMem (h : PutGet R origin) : origin ∉ R.ids := by
  intro hmem
  refine h.documented.apart origin hmem ?_
  rw [h.origins]
  exact List.mem_cons_self

omit [LinearOrder ν] in
/-- At its start a fleet is a put/get burst. -/
theorem burst (h : PutGet R origin) (hstart : R.Start f) :
    PutGetBurst R.dedup R.live R.topology origin R.ids f.plane where
  documented := h.documented.directory
  wholeKey := h.documented.wholeKey
  chained := h.chained
  environment := h.environment
  distinct := List.nodup_cons.mpr ⟨h.origin_notMem, h.documented.distinct⟩
  ids a ha b hb hne := by
    intro hid
    refine hne (h.documented.named a ?_ b ?_ hid)
    · rw [h.origins]
      exact ha
    · rw [h.origins]
      exact hb
  hosts := h.hosts
  node := h.node
  away := h.away
  fresh := hstart.fresh
  held := hstart.live.trans h.origins

end PutGet

/-- The readers routed to the origin. -/
def Readers.rootedAt (R : Readers δ ρ ν) (origin : ν) (f : Fleet δ ν) : ℕ :=
  R.ids.countP fun v => (f.stage v).source = some origin

/-- **The fleet so far**: a burst while nobody has stored the key, and then one reader
behind the origin for good. -/
structure OneRoot (R : Readers δ ρ ν) (origin : ν) (f : Fleet δ ν) : Prop where
  sound : f.Sound R
  before : (∀ v, (f.stage v).stored = false) → ∃ made,
    Gathered R.dedup R.live [origin] made f.plane ∧
    PutGetBurst.Rooted R.dedup origin R.ids made f.plane ∧
    (∀ v, v ∈ made.map Publication.volume ↔ f.stage v ≠ .waiting) ∧
    f.plane.fanout.named origin = R.rootedAt origin f
  after : (∃ v, (f.stage v).stored = true) → R.rootedAt origin f = 1

namespace OneRoot

variable {origin : ν}

/-- A move that keeps every source keeps the count. -/
theorem rootedAt_congr {f' : Fleet δ ν}
    (h : ∀ v, (f'.stage v).source = (f.stage v).source) :
    R.rootedAt origin f' = R.rootedAt origin f := by
  unfold Readers.rootedAt
  apply List.countP_congr
  intro v _
  rw [h]

/-- A new plan counts where it names the origin. -/
theorem rootedAt_asked {reader source : ν} {plan : ReadPlan ν} (hR : R.Documented)
    (hreader : reader ∈ R.ids) (hstage : f.stage reader = .waiting)
    (hhead : plan.head = some source) {f' : Fleet δ ν}
    (hstages : f'.stage = (f.turn reader (.settling plan)).stage) :
    R.rootedAt origin f' = R.rootedAt origin f + if origin = source then 1 else 0 := by
  unfold Readers.rootedAt
  obtain ⟨before, after, hids⟩ := List.append_of_mem hreader
  have hnodup := hR.distinct
  rw [hids] at hnodup
  have hself : (f'.stage reader).source = some source := by
    rw [hstages, Fleet.stage_turn, if_pos rfl]
    exact hhead
  have hold : ∀ v, v ≠ reader → (f'.stage v).source = (f.stage v).source := by
    intro v hv
    rw [hstages, Fleet.stage_turn, if_neg hv]
  have hnone : (f.stage reader).source = none := by
    rw [hstage]
    rfl
  have hbefore : before.countP (fun v => decide ((f'.stage v).source = some origin))
      = before.countP fun v => decide ((f.stage v).source = some origin) := by
    apply List.countP_congr
    intro v hv
    rw [hold v ((List.nodup_append.mp hnodup).2.2 v hv reader List.mem_cons_self)]
  have hafter : after.countP (fun v => decide ((f'.stage v).source = some origin))
      = after.countP fun v => decide ((f.stage v).source = some origin) := by
    apply List.countP_congr
    intro v hv
    have hne : v ≠ reader := fun heq =>
      (List.nodup_cons.mp (List.nodup_append.mp hnodup).2.1).1 (heq ▸ hv)
    rw [hold v hne]
  rw [hids, List.countP_append, List.countP_append, List.countP_cons, List.countP_cons, hbefore,
    hafter, hself, hnone]
  by_cases heq : origin = source
  · simp [heq, Nat.add_assoc]
  · simp [heq, Ne.symm heq]

theorem start (h : PutGet R origin) (hstart : R.Start f) : OneRoot R origin f where
  sound := .start h.documented hstart
  before _ := by
    have hg : Gathered R.dedup R.live [origin] [] f.plane := by
      rw [← h.origins, ← hstart.live]
      exact .init hstart.fresh
    have hzero : f.plane.fanout.named origin = 0 := by
      rw [hstart.fresh.fanout]
      rfl
    refine ⟨[], hg, ⟨fun _ => hzero, fun hnil => absurd rfl hnil,
      fun hlt => absurd hlt (Nat.not_lt_zero _)⟩, fun v => ?_, ?_⟩
    · simp [hstart.stage]
    · rw [hzero]
      simp [Readers.rootedAt, hstart.stage, Stage.source, Stage.plan?]
  after hsome := by
    obtain ⟨v, hv⟩ := hsome
    rw [hstart.stage] at hv
    cases hv

/-- A move that decides nothing and stores nothing. -/
theorem quiet (h : OneRoot R origin f) {reader : ν} {p : Stage ν} {f' : Fleet δ ν}
    (hsound : f'.Sound R) (hstages : f'.stage = (f.turn reader p).stage)
    (hplan : p.plan? = (f.stage reader).plan?)
    (hstored : p.stored = (f.stage reader).stored) (hreader : f.stage reader ≠ .waiting)
    (hwaiting : p ≠ .waiting)
    (hplane : (∀ v, (f.stage v).stored = false) → f'.plane = f.plane) :
    OneRoot R origin f' := by
  have hcount : R.rootedAt origin f' = R.rootedAt origin f := by
    apply rootedAt_congr
    intro v
    rw [hstages, Fleet.stage_turn]
    split
    · rename_i heq
      rw [Stage.source, Stage.source, heq, hplan]
    · rfl
  have hsame : ∀ v, (f'.stage v).stored = (f.stage v).stored := by
    intro v
    rw [hstages, Fleet.stage_turn]
    split
    · rename_i heq
      rw [heq, hstored]
    · rfl
  constructor
  case sound => exact hsound
  case before =>
    intro hnone
    have hnone' : ∀ v, (f.stage v).stored = false := fun v => (hsame v).symm.trans (hnone v)
    obtain ⟨made, hg, hr, hmade, hnamed⟩ := h.before hnone'
    refine ⟨made, by rw [hplane hnone']; exact hg, by rw [hplane hnone']; exact hr, ?_, ?_⟩
    · intro v
      rw [hmade, hstages, Fleet.stage_turn]
      by_cases hv : v = reader
      · rw [if_pos hv, hv]
        exact ⟨fun _ => hwaiting, fun _ => hreader⟩
      · rw [if_neg hv]
    · rw [hplane hnone', hcount, hnamed]
  case after =>
    rintro ⟨v, hv⟩
    rw [hcount]
    exact h.after ⟨v, (hsame v).symm.trans hv⟩

/-- The readers that asked in a burst are readers of the fleet. -/
theorem made_le (h : OneRoot R origin f) {made : List (Publication ν)}
    (hg : Gathered R.dedup R.live [origin] made f.plane)
    (hmade : ∀ v, v ∈ made.map Publication.volume ↔ f.stage v ≠ .waiting) :
    made.length ≤ R.ids.length := by
  have hsub : made.map Publication.volume ⊆ R.ids := by
    intro v hv
    by_contra hout
    exact (hmade v).mp hv (h.sound.outside v hout)
  have hle := (List.subperm_of_subset hg.distinct hsub).length_le
  rw [List.length_map] at hle
  exact hle

/-- **Behind a near copy**: once a reader has stored the key, the origin is no longer what
weighs least. -/
theorem peer_leads (hP : PutGet R origin) {s₀ : State δ ν}
    (hb : PutGetBurst R.dedup R.live R.topology origin R.ids s₀) (h : OneRoot R origin f)
    {reader v : ν} (hreader : reader ∈ R.ids) (hstage : f.stage reader = .waiting)
    (hstored : (f.stage v).stored = true) {s' : State δ ν} {plan : ReadPlan ν}
    {q : Publication ν} (hq : Taken R.dedup R.live reader f.plane s' plan q) :
    origin ≠ q.volume := by
  intro horigin
  have hwaiting : f.stage origin = .waiting := h.sound.outside origin hP.origin_notMem
  -- the origin publishes nothing, so the source is its live copy
  have hzero : q = ⟨0, origin⟩ := by
    rcases hq.offered with ⟨hpub, _⟩ | hflight
    · cases q
      cases hpub
      cases horigin
      rfl
    · obtain ⟨old, hold, _⟩ := (h.sound.flight q).mp hflight
      rw [← horigin, hwaiting] at hold
      cases hold
  have hv : v ∈ R.ids := by
    by_contra hout
    rw [h.sound.outside v hout] at hstored
    cases hstored
  have hne : v ≠ reader := by
    rintro rfl
    rw [hstage] at hstored
    cases hstored
  have hle := hq.least ⟨0, v⟩
    (h.sound.offers_origin ((h.sound.held v).mpr (.inr hstored))) (admits_live R.dedup _ hne)
  rw [hzero, hb.weight_origin hreader] at hle
  unfold Dedup.weight at hle
  rw [hb.chained, score_live R.dedup _ hne, hb.near hv hreader hne, Dedup.fabric, hb.chained]
    at hle
  have hfabric : chainFabric = 10 := rfl
  simp only [hfabric, Bool.false_eq_true, if_false] at hle
  unfold farHop nearHop at hle
  linarith

/-- While nobody has stored the key, a reader is routed as in a burst; afterwards the near
copies weigh less than the origin. -/
theorem asked (hP : PutGet R origin) {s₀ : State δ ν}
    (hb : PutGetBurst R.dedup R.live R.topology origin R.ids s₀) (h : OneRoot R origin f)
    {reader : ν} (hreader : reader ∈ R.ids) (hstage : f.stage reader = .waiting)
    {plane : State δ ν} {plan : ReadPlan ν}
    (hdecide : R.dedup.decide R.requests reader f.plane = .ok (plane, plan)) {f' : Fleet δ ν}
    (hsound : f'.Sound R) (hstages : f'.stage = (f.turn reader (.settling plan)).stage)
    (hplane : f'.plane = plane) : OneRoot R origin f' := by
  have horigin : reader ≠ origin := fun heq => hP.origin_notMem (heq ▸ hreader)
  have hsame : ∀ v, (f'.stage v).stored = (f.stage v).stored := by
    intro v
    rw [hstages, Fleet.stage_turn]
    split
    · rename_i heq
      rw [heq, hstage]
      rfl
    · rfl
  constructor
  case sound => exact hsound
  case before =>
    intro hnone
    obtain ⟨made, hg, hr, hmade, hnamed⟩ := h.before fun v => (hsame v).symm.trans (hnone v)
    have hnew : reader ∉ made.map Publication.volume := by
      rw [hmade, hstage]
      exact fun hne => hne rfl
    obtain ⟨plane', plan', q, hdecide', hf⟩ := hg.route hP.documented.directory
      hP.documented.wholeKey (List.cons_ne_nil _ _) R.requests hnew
      (fun hmem => horigin (List.mem_singleton.mp hmem))
    rw [hdecide] at hdecide'
    cases hdecide'
    rw [hplane]
    refine ⟨made ++ [plan.publication], hf.gathered,
      hb.rooted_step hP.cap hreader hg hr hnew hf, fun v => ?_, ?_⟩
    · rw [List.map_append, List.mem_append, List.map_singleton, List.mem_singleton, hf.own, hmade,
        hstages, Fleet.stage_turn]
      by_cases hv : v = reader
      · rw [if_pos hv]
        exact ⟨fun _ => nofun, fun _ => .inr hv⟩
      · rw [if_neg hv]
        exact or_iff_left hv
    · rw [rootedAt_asked hP.documented hreader hstage hf.head hstages, hf.named, hnamed]
      split
      · push_cast
        rfl
      · push_cast
        rw [add_zero]
  case after =>
    rintro ⟨v, hv⟩
    have hstored : (f.stage v).stored = true := (hsame v).symm.trans hv
    obtain ⟨q, hq⟩ := h.sound.takes hP.documented hreader hdecide
    have hhead : plan.head = some q.volume := by
      rw [ReadPlan.head, hq.sources]
      rfl
    rw [rootedAt_asked hP.documented hreader hstage hhead hstages,
      h.after ⟨v, hstored⟩, if_neg (h.peer_leads hP hb hreader hstage hstored hq)]

/-- The reader's own volume gets the key, and at the first of these one reader is behind
the origin. -/
theorem stored (hsize : R.ids.length ≤ oneHopReaders R.dedup.fanoutCap.toNat)
    (h : OneRoot R origin f) {reader : ν} {plan : ReadPlan ν}
    (hstage : f.stage reader = .storing plan) {f' : Fleet δ ν} (hsound : f'.Sound R)
    (hstages : f'.stage = (f.turn reader (.reporting plan)).stage) : OneRoot R origin f' := by
  have hcount : R.rootedAt origin f' = R.rootedAt origin f := by
    apply rootedAt_congr
    intro v
    rw [hstages, Fleet.stage_turn]
    split
    · rename_i heq
      rw [heq, hstage]
      rfl
    · rfl
  have hself : (f'.stage reader).stored = true := by
    rw [hstages, Fleet.stage_turn, if_pos rfl]
    rfl
  refine ⟨hsound, fun hnone => ?_, fun _ => ?_⟩
  · rw [hnone] at hself
    cases hself
  · rw [hcount]
    by_cases hsome : ∃ v, (f.stage v).stored = true
    · exact h.after hsome
    · push Not at hsome
      obtain ⟨made, hg, hr, hmade, hnamed⟩ := h.before fun v => Bool.eq_false_iff.mpr (hsome v)
      have hne : made ≠ [] := by
        rintro rfl
        have hin := (hmade reader).mpr (by rw [hstage]; exact nofun)
        cases hin
      obtain ⟨hone, _⟩ := hr.one hne ((h.made_le hg hmade).trans hsize)
      rw [hnamed] at hone
      exact_mod_cast hone

/-- **Every move keeps one root.** -/
theorem step (hP : PutGet R origin) {s₀ : State δ ν}
    (hb : PutGetBurst R.dedup R.live R.topology origin R.ids s₀)
    (hsize : R.ids.length ≤ oneHopReaders R.dedup.fanoutCap.toNat) {f' : Fleet δ ν}
    {e : FleetEvent δ ν} (h : OneRoot R origin f) (hs : R.Step f e f') : OneRoot R origin f' := by
  have hsound := h.sound.step hP.documented hs
  cases e with
  | asked reader =>
      obtain ⟨hreader, hstage, plane, plan, hdecide, rfl⟩ := hs
      exact h.asked hP hb hreader hstage hdecide hsound rfl rfl
  | settled reader =>
      obtain ⟨plan, hstage, _, rfl⟩ := hs
      exact h.quiet hsound rfl (by rw [hstage]; rfl) (by rw [hstage]; rfl)
        (by rw [hstage]; exact nofun) nofun fun _ => rfl
  | fetched reader source =>
      obtain ⟨plan, hstage, _, rfl⟩ := hs
      exact h.quiet hsound (p := .storing plan) rfl (by rw [hstage]; rfl)
        (by rw [hstage]; rfl) (by rw [hstage]; exact nofun) nofun fun _ => rfl
  | missed reader =>
      obtain ⟨_, _, _, hnil, _⟩ := hs
      exact absurd hnil (h.sound.holders_ne hP.documented)
  | stored reader directory =>
      obtain ⟨plan, hstage, _, _, rfl⟩ := hs
      exact h.stored hsize hstage hsound rfl
  | published reader =>
      obtain ⟨plan, plane, hstage, _, rfl⟩ := hs
      refine h.quiet hsound (p := .returned plan) rfl (by rw [hstage]; rfl)
        (by rw [hstage]; rfl) (by rw [hstage]; exact nofun) nofun fun hnone => ?_
      -- whoever reports has stored the key
      have hself := hnone reader
      rw [hstage] at hself
      cases hself

theorem le_one (hsize : R.ids.length ≤ oneHopReaders R.dedup.fanoutCap.toNat)
    (h : OneRoot R origin f) : R.rootedAt origin f ≤ 1 := by
  by_cases hsome : ∃ v, (f.stage v).stored = true
  · exact le_of_eq (h.after hsome)
  · push Not at hsome
    obtain ⟨made, hg, hr, hmade, hnamed⟩ := h.before fun v => Bool.eq_false_iff.mpr (hsome v)
    by_cases hnil : made = []
    · rw [hr.none hnil] at hnamed
      omega
    · obtain ⟨hone, _⟩ := hr.one hnil ((h.made_le hg hmade).trans hsize)
      omega

end OneRoot

/-- Of the readers that have the key, those behind the origin. -/
theorem Served.crosses_iff {origin : ν} (hP : PutGet R origin) (hsound : f.Sound R)
    {order : List ν} (h : Served R f order) {v : ν} (hv : v ∈ order) :
    R.crosses f v = true ↔ (f.stage v).source = some origin := by
  have hfetched := (h.readers v).mp hv
  obtain ⟨plan, hplan⟩ : ∃ plan, (f.stage v).plan? = some plan := by
    cases hst : f.stage v <;> rw [hst] at hfetched <;> first | exact ⟨_, rfl⟩ | cases hfetched
  obtain ⟨source, hsource, _⟩ := hsound.sourced v plan hplan
  rw [Readers.crosses, Fleet.server, server_of_plan hplan hsource, hP.origins, List.contains_iff_mem,
    List.mem_singleton, Option.getD_some, Option.some.injEq]

/-- **The key crosses the fabric once.**  Whatever the interleaving of up to seven full
levels of readers, at most one payload leaves the far origin; when all have returned it is
exactly one, however many of them read. -/
theorem fabric_once {origin : ν} (hP : PutGet R origin)
    (hsize : R.ids.length ≤ oneHopReaders R.dedup.fanoutCap.toNat)
    (h : R.machine.Reachable f) : f.ledger.originBytes ≤ R.payload ∧
      (f.Done R → R.ids ≠ [] → f.ledger.originBytes = R.payload ∧
        f.ledger.transferBytes = R.ids.length * R.payload) := by
  have hroot : OneRoot R origin f ∧ ∃ s₀, PutGetBurst R.dedup R.live R.topology origin R.ids s₀ := by
    refine h.invariant (P := fun f => OneRoot R origin f ∧
      ∃ s₀, PutGetBurst R.dedup R.live R.topology origin R.ids s₀) ?_ ?_
    · exact fun f hstart => ⟨.start hP hstart, f.plane, hP.burst hstart⟩
    · rintro f e f' ⟨hone, s₀, hb⟩ hs
      exact ⟨hone.step hP hb hsize hs, s₀, hb⟩
  obtain ⟨hone, _⟩ := hroot
  obtain ⟨order, hserved, hall⟩ := served_where_routed hP.documented h
  have hcount : order.countP (R.crosses f)
      = order.countP fun v => decide ((f.stage v).source = some origin) := by
    apply List.countP_congr
    intro v hv
    rw [decide_eq_true_iff]
    exact hserved.crosses_iff hP hone.sound hv
  have hids : order ⊆ R.ids := by
    intro v hv
    by_contra hout
    rw [hserved.readers, hone.sound.outside v hout] at hv
    cases hv
  constructor
  · have hle := ((List.subperm_of_subset hserved.nodup hids).countP_le
      fun v => decide ((f.stage v).source = some origin)).trans (hone.le_one hsize)
    rw [hserved.originBytes, hcount]
    exact (Nat.mul_le_mul_right _ hle).trans (le_of_eq (Nat.one_mul _))
  · intro hdone hne
    obtain ⟨v, hv⟩ := List.exists_mem_of_ne_nil _ hne
    have hstored : (f.stage v).stored = true := by
      have hended := hdone v hv
      cases hst : f.stage v <;> rw [hst] at hended <;> first | rfl | cases hended
    have hperm := hall hdone
    rw [hserved.originBytes, hserved.transferBytes, hcount, hperm.countP_eq, hperm.length_eq]
    refine ⟨?_, rfl⟩
    have hafter : R.ids.countP (fun v => decide ((f.stage v).source = some origin)) = 1 :=
      hone.after ⟨v, hstored⟩
    rw [hafter, Nat.one_mul]

theorem putGetReaders_putGet {fanoutCap : ℤ} (payload : ℕ) {ids : List ℕ}
    (hcap : 1 ≤ fanoutCap) (hnd : (0 :: ids).Nodup) :
    PutGet (putGetReaders fanoutCap payload ids) 0 where
  documented := putGetReaders_documented fanoutCap payload hnd
  origins := rfl
  chained := rfl
  cap := hcap
  environment _ _ _ := rfl
  hosts _ _ _ _ hne := named_by_length hne
  node := (putGet_burst fanoutCap ids hnd).node
  away := (putGet_burst fanoutCap ids hnd).away

/-- Two readers in full: one payload of the two leaves the origin. -/
theorem fabric_of_two : ∃ f, f.ledger.originBytes = 64 ∧ f.ledger.transferBytes = 2 * 64 ∧
    (putGetReaders 1 64 [1, 2]).machine.Reachable f := by
  have hrun : (Machine.replay ((putGetReaders 1 64 [1, 2]).next keyLands) (putGetFleet 1)
      twoReads).map (fun f => decide ((f.stage 1).ended = true ∧ (f.stage 2).ended = true))
        = some true := by
    decide +kernel
  obtain ⟨f, hf, hval⟩ := Option.map_eq_some_iff.mp hrun
  obtain ⟨hone, htwo⟩ := of_decide_eq_true hval
  have hP := putGetReaders_putGet 64 (le_refl 1) (show [0, 1, 2].Nodup by decide)
  obtain ⟨_, hdone⟩ := fabric_once hP (by decide) (putGet_reaches hf)
  have hall : f.Done (putGetReaders 1 64 [1, 2]) := by
    intro v hv
    have hcases : v = 1 ∨ v = 2 := by simpa [putGetReaders] using hv
    rcases hcases with rfl | rfl
    · exact hone
    · exact htwo
  obtain ⟨horigin, htransfer⟩ := hdone hall (by decide)
  exact ⟨f, horigin, htransfer, putGet_reaches hf⟩

end Toso.DedupSim
