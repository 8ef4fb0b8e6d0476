/-
  Toso.DedupSim.Burst — a burst of readers over one whole key.

  Distinct readers are each routed once, before any of them publishes.  Then
  what can serve the next reader is the live copies and the publications of the
  readers before it, and the cover is the first of them ranked.  A decision
  takes the cheapest one that has room, counts one reader on its volume, and
  adds its own publication, which arrives one hop after it.

  Main results:
    * `Gathered.route` — one decision of a burst.
    * `Gathered.run` — the whole burst: what holds of its tree, decision by
      decision, how often a volume is read first, and that nobody is routed
      behind a reader to come.
-/
import Toso.DedupSim.Routing
import Mathlib.Algebra.BigOperators.Group.Finset.Piecewise

namespace Toso.DedupSim

open Lib Toso.Proposed

variable {δ ρ ν : Type*}

/-! ## §1. A directory asked for one whole key. -/

/-- **What the store answers for a whole key**: every live copy and every pending
publication serves it, and the first ranked source covers it. -/
structure Controller.WholeKey (C : Controller δ ρ ν) (live : δ → List ν) : Prop where
  offers : ∀ rs d q, q ∈ C.servingUnion rs d ↔ (q.pub = 0 ∧ q.volume ∈ live d) ∨ C.pending d q
  kept : ∀ rs v d, live (C.notifyPutBatch rs v d).2 = live d
  first : ∀ rs ranked d, C.greedyCover rs ranked d = ranked.take 1

theorem keyController_wholeKey (ν : Type*) [DecidableEq ν] :
    (keyController ν).WholeKey KeyDirectory.live where
  offers _ d q := by
    show q ∈ (d.live.map (Publication.mk 0) ++ d.declared).dedup ↔ _
    rw [List.mem_dedup, List.mem_append, List.mem_map]
    constructor
    · intro h
      rcases h with ⟨v, hv, rfl⟩ | h
      · exact .inl ⟨rfl, hv⟩
      · exact .inr h
    · intro h
      rcases h with ⟨hpub, hv⟩ | h
      · refine .inl ⟨q.volume, hv, ?_⟩
        rw [← hpub]
      · exact .inr h
  kept _ _ _ := rfl
  first _ _ _ := rfl

variable [LinearOrder ν]

/-! ## §2. The burst. -/

/-- Each reader in turn is routed once for the same batch. -/
def Dedup.burst (D : Dedup δ ρ ν) (requests : List ρ) :
    List ν → State δ ν → Except DecisionError (State δ ν × List (ReadPlan ν))
  | [], s => .ok (s, [])
  | reader :: readers, s =>
      (D.decide requests reader s).bind fun answer =>
        (D.burst requests readers answer.1).map fun rest => (rest.1, answer.2 :: rest.2)

theorem burst_cons {D : Dedup δ ρ ν} {requests : List ρ} {reader : ν} {readers : List ν}
    {s t u : State δ ν} {plan : ReadPlan ν} {plans : List (ReadPlan ν)}
    (hone : D.decide requests reader s = .ok (t, plan))
    (hrest : D.burst requests readers t = .ok (u, plans)) :
    D.burst requests (reader :: readers) s = .ok (u, plan :: plans) := by
  show (D.decide requests reader s).bind _ = _
  rw [hone]
  show (D.burst requests readers t).map _ = _
  rw [hrest]
  rfl

/-! ## §3. The state of a burst. -/

/-- What a source costs beside the others, less the tie-breaks: its score, or in
a spread its score behind everyone queued. -/
def Dedup.weight (D : Dedup δ ρ ν) (fanout : FanoutSensor ν) (requester : ν)
    (q : Publication ν) : ℚ :=
  if D.spread then D.score fanout requester q * (1 + (fanout.named q.volume : ℚ))
  else D.score fanout requester q

/-- What can serve a reader of a burst: a live copy, or what an earlier reader
makes. -/
def Offered (holders : List ν) (made : List (Publication ν)) (q : Publication ν) : Prop :=
  (q.pub = 0 ∧ q.volume ∈ holders) ∨ q ∈ made

/-- **The source a reader is routed to**: admitted, and the cheapest admitted. -/
structure Leads (D : Dedup δ ρ ν) (holders : List ν) (made : List (Publication ν))
    (fanout : FanoutSensor ν) (requester : ν) (q : Publication ν) : Prop where
  offered : Offered holders made q
  admits : D.Admits fanout requester q = true
  least : ∀ x, Offered holders made x → D.Admits fanout requester x = true →
    D.weight fanout requester q ≤ D.weight fanout requester x

/-- **A state inside a burst**: `holders` have live copies, and `made` is what the
readers routed so far will publish, each in a volume of its own. -/
structure Gathered (D : Dedup δ ρ ν) (live : δ → List ν) (holders : List ν)
    (made : List (Publication ν)) (s : State δ ν) : Prop where
  coherent : Coherent D s
  live : live s.sensor.directory = holders
  pending : ∀ q, D.controller.pending s.sensor.directory q ↔ q ∈ made
  distinct : (made.map Publication.volume).Nodup
  apart : ∀ q ∈ made, q.volume ∉ holders
  arrivals : ∀ q, q ∈ s.fanout.arrivals ↔ q ∈ made
  unassigned : ∀ v, v ∉ made.map Publication.volume → s.fanout.assigned.get? v = none
  idle : ∀ v, v ∉ made.map Publication.volume → v ∉ holders → s.fanout.named v = 0

theorem Gathered.init {D : Dedup δ ρ ν} {live : δ → List ν} {s : State δ ν}
    (h : D.Fresh s) : Gathered D live (live s.sensor.directory) [] s where
  coherent := .init h
  live := rfl
  pending q := by
    constructor
    · intro hq
      exact absurd hq (h.pending q)
    · intro hq
      cases hq
  distinct := List.nodup_nil
  apart q hq := by cases hq
  arrivals q := by
    rw [h.fanout]
    constructor
    · intro hq
      exact absurd hq (Dict.not_mem_empty q)
    · intro hq
      cases hq
  unassigned v _ := by
    rw [h.fanout]
    rfl
  idle v _ _ := by
    rw [h.fanout]
    rfl

/-- What an earlier reader makes has an id of its own. -/
theorem Gathered.pub_ne_zero {D : Dedup δ ρ ν} {live : δ → List ν} {holders : List ν}
    {made : List (Publication ν)} {s : State δ ν} (h : Gathered D live holders made s)
    {q : Publication ν} (hq : q ∈ made) : q.pub ≠ 0 := by
  have hpend := (h.pending q).mpr hq
  have hin := DirectorySensor.isInFlight_iff.mp ((h.coherent.tracks.pending q).mp hpend)
  have hgiven := h.coherent.tracks.given q.pub q hin
  omega

/-- A live copy is always admitted, but to its own volume. -/
theorem admits_live (D : Dedup δ ρ ν) (fanout : FanoutSensor ν) {requester v : ν}
    (hv : v ≠ requester) : D.Admits fanout requester ⟨0, v⟩ = true :=
  (D.admits_iff fanout requester ⟨0, v⟩).mpr ⟨hv, .inl rfl⟩

/-- What an earlier reader makes is admitted while its volume has room. -/
theorem Gathered.admits_made {D : Dedup δ ρ ν} {live : δ → List ν} {holders : List ν}
    {made : List (Publication ν)} {s : State δ ν} (h : Gathered D live holders made s)
    {q : Publication ν} (hq : q ∈ made) {requester : ν} (hv : q.volume ≠ requester) :
    D.Admits s.fanout requester q = true ↔ s.fanout.named q.volume < D.fanoutCap := by
  rw [D.admits_iff, h.coherent.cap]
  have harr := (Dict.mem_iff _ _).mp ((h.arrivals q).mpr hq)
  constructor
  · intro hadm
    exact (hadm.2.resolve_left (h.pub_ne_zero hq)).1
  · intro hroom
    exact ⟨hv, .inr ⟨hroom, harr⟩⟩

/-- The price of a live copy. -/
theorem score_live (D : Dedup δ ρ ν) (fanout : FanoutSensor ν) {requester v : ν}
    (hv : v ≠ requester) : D.score fanout requester ⟨0, v⟩
      = D.readTime v requester 1 + D.fabric * D.readTime v requester 1 := by
  unfold Dedup.score Dedup.price
  rw [if_neg hv, if_pos rfl, Option.map_some, Option.getD_some, zero_add]

/-- The price of what an earlier reader makes. -/
theorem Gathered.score_made {D : Dedup δ ρ ν} {live : δ → List ν} {holders : List ν}
    {made : List (Publication ν)} {s : State δ ν} (h : Gathered D live holders made s)
    {q : Publication ν} (hq : q ∈ made) {requester : ν} (hv : q.volume ≠ requester)
    (hroom : s.fanout.named q.volume < D.fanoutCap) {wait : ℚ}
    (hwait : s.fanout.arrival q = some wait) : D.score s.fanout requester q
      = wait + D.readTime q.volume requester 1 + D.fabric * D.readTime q.volume requester 1 := by
  have hcap : ¬ s.fanout.cap ≤ s.fanout.named q.volume := by
    rw [h.coherent.cap]
    omega
  unfold Dedup.score Dedup.price
  rw [if_neg hv, if_neg (h.pub_ne_zero hq), if_neg hcap, hwait]
  rfl

/-! ## §4. One decision of a burst. -/

/-- A tuple below another is below it in the first dimension. -/
theorem head_le_of_le {a b c d : ℚ} (h : [a, b] ≤ [c, d]) : a ≤ c := by
  by_contra hlt
  have hless : [c, d] < [a, b] := List.cons_lt_cons_iff.mpr (.inl (lt_of_not_ge hlt))
  exact absurd h (not_le_of_gt hless)

theorem singleton_le_of_le {a c : ℚ} (h : [a] ≤ [c]) : a ≤ c := by
  by_contra hlt
  have hless : [c] < [a] := List.cons_lt_cons_iff.mpr (.inl (lt_of_not_ge hlt))
  exact absurd h (not_le_of_gt hless)

theorem weight_le_of_figure_le {D : Dedup δ ρ ν} {fanout : FanoutSensor ν} {requester : ν}
    {q x : Publication ν} (h : D.figure fanout requester q ≤ D.figure fanout requester x) :
    D.weight fanout requester q ≤ D.weight fanout requester x := by
  unfold Dedup.figure at h
  unfold Dedup.weight
  cases hspread : D.spread with
  | true =>
      rw [hspread] at h
      exact singleton_le_of_le h
  | false =>
      rw [hspread] at h
      exact head_le_of_le h

/-- **What one decision of a burst does.** -/
structure Followed (D : Dedup δ ρ ν) (live : δ → List ν) (holders : List ν)
    (made : List (Publication ν)) (s s' : State δ ν) (requester : ν) (plan : ReadPlan ν)
    (q : Publication ν) : Prop where
  leads : Leads D holders made s.fanout requester q
  own : plan.publication.volume = requester
  head : plan.head = some q.volume
  gathered : Gathered D live holders (made ++ [plan.publication]) s'
  fresh : plan.publication ∉ made
  arrival : ∃ wait, (if q.pub = 0 then some 0 else s.fanout.arrival q) = some wait ∧
    s'.fanout.arrival plan.publication = some (wait + D.readTime q.volume requester 1)
  others : ∀ x ∈ made, s'.fanout.arrival x = s.fanout.arrival x
  named : ∀ v, s'.fanout.named v
    = if v = q.volume then s.fanout.named v + 1 else s.fanout.named v

section Decide

variable {D : Dedup δ ρ ν} {live : δ → List ν} {holders : List ν} {made : List (Publication ν)}
  {s s' : State δ ν} {requests : List ρ} {requester : ν} {plan : ReadPlan ν} {arrival : ℚ}
  {q : Publication ν}

/-- The publication of a decision is the reader's own. -/
theorem Gathered.own (hC : D.controller.Documented) (h : Gathered D live holders made s)
    (hd : D.Decision requests requester s s' plan arrival) :
    plan.publication.volume = requester := by
  rw [hd.publication]
  exact (h.coherent.tracks.declared hC requester requests).1

/-- What serves a reader: the live copies, what was made, and what it will publish itself. -/
theorem Gathered.mem_serving (hC : D.controller.Documented) (hkey : D.controller.WholeKey live)
    (h : Gathered D live holders made s) :
    q ∈ (D.declared requests requester s).2.sensor.servingUnion D.controller requests ↔
      Offered holders made q ∨ q = (D.declared requests requester s).1 := by
  have hput : (D.declared requests requester s).2.sensor.directory
      = (D.controller.notifyPutBatch requests requester s.sensor.directory).2 := rfl
  have hpub : (D.declared requests requester s).1
      = ⟨(D.controller.notifyPutBatch requests requester s.sensor.directory).1, requester⟩ := rfl
  unfold DirectorySensor.servingUnion Offered
  rw [hkey.offers, hput, hkey.kept, h.live, hC.pending_put, h.pending, hpub]
  exact or_assoc.symm

/-- Of those the ranking has what is admitted, and so not the reader's own. -/
theorem Gathered.mem_ranked (hC : D.controller.Documented) (hkey : D.controller.WholeKey live)
    (h : Gathered D live holders made s) : q ∈ D.ranked requests requester s ↔
      Offered holders made q ∧ D.Admits s.fanout requester q = true := by
  unfold Dedup.ranked
  rw [(Selection.rank_perm _ _).mem_iff, List.mem_filter, h.mem_serving hC hkey]
  constructor
  · rintro ⟨hoffered | rfl, hadm⟩
    · exact ⟨hoffered, hadm⟩
    · exact absurd (h.coherent.tracks.declared hC requester requests).1
        ((D.admits_iff _ _ _).mp hadm).1
  · exact fun hq => ⟨.inl hq.1, hq.2⟩

/-- The first of the ranking leads. -/
theorem Gathered.leads (hC : D.controller.Documented) (hkey : D.controller.WholeKey live)
    (h : Gathered D live holders made s) {rest : List (Publication ν)}
    (hrank : D.ranked requests requester s = q :: rest) :
    Leads D holders made s.fanout requester q := by
  have hfirst : q ∈ D.ranked requests requester s := by
    rw [hrank]
    exact List.mem_cons_self
  have hq := (h.mem_ranked hC hkey).mp hfirst
  refine ⟨hq.1, hq.2, fun x hx hadm => ?_⟩
  have hmem : x ∈ D.ranked requests requester s := (h.mem_ranked hC hkey).mpr ⟨hx, hadm⟩
  unfold Dedup.ranked at hrank hmem
  exact weight_le_of_figure_le (Selection.rank_head_le hrank
    ((Selection.rank_perm _ _).mem_iff.mp hmem))

/-- A reader without a copy is always led to one. -/
theorem Gathered.exists_lead (hC : D.controller.Documented) (hkey : D.controller.WholeKey live)
    (hholders : holders ≠ []) (h : Gathered D live holders made s)
    (requests : List ρ) (hreader : requester ∉ holders) :
    ∃ q rest, D.ranked requests requester s = q :: rest := by
  obtain ⟨v, hv⟩ := List.exists_mem_of_ne_nil holders hholders
  have hne : v ≠ requester := fun heq => hreader (heq ▸ hv)
  have hmem : (⟨0, v⟩ : Publication ν) ∈ D.ranked requests requester s :=
    (h.mem_ranked hC hkey).mpr ⟨.inl ⟨rfl, hv⟩, admits_live D s.fanout hne⟩
  exact List.exists_cons_of_ne_nil (List.ne_nil_of_mem hmem)

/-- **What a decision folds** into the counters: the arrival of what is made, and one more
reader of the volume it leads to. -/
structure Folded (made : List (Publication ν)) (s s' : State δ ν) (plan : ReadPlan ν)
    (arrival : ℚ) (q : Publication ν) : Prop where
  fresh : plan.publication ∉ made
  arrivals : s'.fanout.arrivals = s.fanout.arrivals.set plan.publication arrival
  assigned : ∀ v, v ≠ plan.publication.volume →
    s'.fanout.assigned.get? v = s.fanout.assigned.get? v
  named : ∀ v, s'.fanout.named v
    = if v = q.volume then s.fanout.named v + 1 else s.fanout.named v

theorem Gathered.folded (hC : D.controller.Documented) (h : Gathered D live holders made s)
    (hd : D.Decision requests requester s s' plan arrival)
    (hnew : requester ∉ made.map Publication.volume)
    (hchosen : D.chosen requests requester s = [q]) : Folded made s s' plan arrival q := by
  have hown := h.own hC hd
  have hfresh : plan.publication ∉ made := fun hmem =>
    hnew (hown ▸ List.mem_map_of_mem (f := Publication.volume) hmem)
  obtain ⟨fanout, hrouted, hsound, _, harr, hassigned, _⟩ :=
    FanoutSensor.routed_sound h.coherent.fanout plan.publication plan.sources
      (Dedup.gatePublications (D.chosen requests requester s)) arrival
  obtain rfl : s'.fanout = fanout := Option.some.inj (hd.routed.symm.trans hrouted)
  have hsources : plan.sources = [q.volume] := by
    rw [hd.sources, hchosen]
    rfl
  constructor
  case fresh => exact hfresh
  case arrivals =>
    rw [harr, if_neg fun hmem => hfresh ((h.arrivals _).mp hmem)]
  case assigned =>
    intro v hv
    rw [hassigned, Dict.get?_set_ne _ _ (Ne.symm hv), Dict.get?_erase_ne _ (Ne.symm hv)]
  case named =>
    intro v
    -- the reader had nowhere to be taken off
    have hself : s.fanout.assigned.getD requester [] = [] := by
      rw [Dict.getD, h.unassigned requester hnew]
      rfl
    have hnow := (hsound.counts v).1
    have hold := (h.coherent.fanout.counts v).1
    unfold FanoutSensor.readers at hnow hold
    rw [hassigned, FanoutSensor.readersOf_set,
      FanoutSensor.readersOf_erase (s.fanout.assigned.erase _), FanoutSensor.readersOf_erase,
      hown, hself, hsources] at hnow
    unfold FanoutSensor.named
    rw [hnow, hold]
    simp [Dict.getD]
    split <;> omega

/-- **The state after it**: one reader more has something to publish. -/
theorem Gathered.decided (hC : D.controller.Documented) (hkey : D.controller.WholeKey live)
    (h : Gathered D live holders made s) (hd : D.Decision requests requester s s' plan arrival)
    (hnew : requester ∉ made.map Publication.volume) (hreader : requester ∉ holders)
    (hoffered : Offered holders made q) (hfold : Folded made s s' plan arrival q) :
    Gathered D live holders (made ++ [plan.publication]) s' := by
  have hown := h.own hC hd
  have hmem : ∀ v, v ∉ (made ++ [plan.publication]).map Publication.volume ↔
      v ∉ made.map Publication.volume ∧ v ≠ requester := by
    intro v
    rw [List.map_append, List.mem_append, List.map_singleton, List.mem_singleton, hown, not_or]
  constructor
  case coherent => exact h.coherent.decided hC hd
  case live =>
    rw [hd.sensor]
    exact (hkey.kept _ _ _).trans h.live
  case pending =>
    intro x
    rw [hd.sensor, List.mem_append, List.mem_singleton, ← h.pending, hd.publication]
    exact hC.pending_put _ _ _ x
  case distinct =>
    rw [List.map_append, List.nodup_append]
    refine ⟨h.distinct, List.nodup_singleton _, ?_⟩
    intro v hv w hw
    rw [List.map_singleton, List.mem_singleton, hown] at hw
    rw [hw]
    exact fun heq => hnew (heq ▸ hv)
  case apart =>
    intro x hx
    rcases List.mem_append.mp hx with hx | hx
    · exact h.apart x hx
    · rw [List.mem_singleton.mp hx, hown]
      exact hreader
  case arrivals =>
    intro x
    rw [hfold.arrivals, Dict.mem_set, h.arrivals, List.mem_append, List.mem_singleton]
    exact or_comm
  case unassigned =>
    intro v hv
    obtain ⟨hv, hne⟩ := (hmem v).mp hv
    rw [hfold.assigned v (hown.symm ▸ hne)]
    exact h.unassigned v hv
  case idle =>
    intro v hv hv'
    have hne : v ≠ q.volume := by
      rintro rfl
      rcases hoffered with ⟨_, hlive⟩ | hmade
      · exact hv' hlive
      · exact ((hmem _).mp hv).1 (List.mem_map_of_mem hmade)
    rw [hfold.named, if_neg hne]
    exact h.idle v ((hmem v).mp hv).1 hv'

/-- What is made arrives one hop after what it is read from. -/
theorem Folded.arrives (hfold : Folded made s s' plan arrival q)
    (hd : D.Decision requests requester s s' plan arrival)
    (hchosen : D.chosen requests requester s = [q]) :
    ∃ wait, (if q.pub = 0 then some 0 else s.fanout.arrival q) = some wait ∧
      s'.fanout.arrival plan.publication = some (wait + D.readTime q.volume requester 1) := by
  -- the one contribution of the cover is the arrival
  have hcon := hd.arrives
  rw [hchosen, List.mapM_cons, List.mapM_nil] at hcon
  unfold Dedup.contribution at hcon
  cases hwait : (if q.pub = 0 then some 0 else s.fanout.arrival q) with
  | none =>
      rw [hwait] at hcon
      cases hcon
  | some wait =>
      rw [hwait] at hcon
      have harrival : wait + D.readTime q.volume requester 1 = arrival := Option.some.inj hcon
      refine ⟨wait, rfl, ?_⟩
      unfold FanoutSensor.arrival
      rw [hfold.arrivals, Dict.get?_set_self, harrival]

/-- **One decision of a burst**: a reader that was not routed yet is routed to
the source that leads. -/
theorem Gathered.route (hC : D.controller.Documented) (hkey : D.controller.WholeKey live)
    (hholders : holders ≠ []) (h : Gathered D live holders made s) (requests : List ρ)
    (hnew : requester ∉ made.map Publication.volume) (hreader : requester ∉ holders) :
    ∃ s' plan q, D.decide requests requester s = .ok (s', plan) ∧
      Followed D live holders made s s' requester plan q := by
  obtain ⟨s', plan, hplan⟩ := Dedup.decide_total hC h.coherent.fanout requests requester
  obtain ⟨arrival, hd⟩ := Dedup.decide_cases hC hplan
  obtain ⟨q, rest, hrank⟩ := h.exists_lead hC hkey hholders requests hreader
  have hchosen : D.chosen requests requester s = [q] := by
    have hfirst : D.chosen requests requester s = (D.ranked requests requester s).take 1 :=
      hkey.first _ _ _
    rw [hfirst, hrank]
    rfl
  have hleads := h.leads hC hkey hrank
  have hfold := h.folded hC hd hnew hchosen
  refine ⟨s', plan, q, hplan, ?_⟩
  constructor
  case leads => exact hleads
  case own => exact h.own hC hd
  case head =>
    unfold ReadPlan.head
    rw [hd.sources, hchosen]
    rfl
  case gathered => exact h.decided hC hkey hd hnew hreader hleads.offered hfold
  case fresh => exact hfold.fresh
  case arrival => exact hfold.arrives hd hchosen
  case others =>
    intro x hx
    have hne : plan.publication ≠ x := fun heq => hfold.fresh (heq ▸ hx)
    unfold FanoutSensor.arrival
    rw [hfold.arrivals, Dict.get?_set_ne _ _ hne]
  case named => exact hfold.named

end Decide

/-! ## §5. The whole burst. -/

/-- Every plan reads first one of the volumes `routed`, or that of a plan before
it. -/
def Behind (routed : List ν) (plans : List (ReadPlan ν)) : Prop :=
  ∀ before plan after, plans = before ++ plan :: after →
    ∃ v, plan.head = some v ∧ v ∈ routed ++ before.map fun earlier => earlier.publication.volume

omit [LinearOrder ν] in
theorem behind_cons {routed : List ν} {plan : ReadPlan ν} {plans : List (ReadPlan ν)} {v : ν}
    (hhead : plan.head = some v) (hv : v ∈ routed)
    (hrest : Behind (routed ++ [plan.publication.volume]) plans) :
    Behind routed (plan :: plans) := by
  intro before other after hsplit
  cases before with
  | nil =>
      cases hsplit
      exact ⟨v, hhead, List.mem_append_left _ hv⟩
  | cons first before =>
      rw [List.cons_append, List.cons.injEq] at hsplit
      obtain ⟨rfl, hsplit⟩ := hsplit
      obtain ⟨w, hw, hmem⟩ := hrest before other after hsplit
      refine ⟨w, hw, ?_⟩
      rw [List.map_cons]
      simpa using hmem

/-- The head of a plan is a volume with a live copy, or one of an earlier reader. -/
theorem Followed.head_mem {D : Dedup δ ρ ν} {live : δ → List ν} {holders : List ν}
    {made : List (Publication ν)} {s s' : State δ ν} {requester : ν} {plan : ReadPlan ν}
    {q : Publication ν} (h : Followed D live holders made s s' requester plan q) :
    q.volume ∈ holders ++ made.map Publication.volume := by
  rcases h.leads.offered with ⟨_, hlive⟩ | hmade
  · exact List.mem_append_left _ hlive
  · exact List.mem_append_right _ (List.mem_map_of_mem hmade)

/-- **The run of a burst.**  A property of what was made that every decision
keeps holds at its end; a volume's count grows by the plans that read it first;
and every plan is behind a live copy or an earlier reader. -/
theorem Gathered.run {D : Dedup δ ρ ν} (hC : D.controller.Documented) {live : δ → List ν}
    (hkey : D.controller.WholeKey live) {holders : List ν} (hholders : holders ≠ [])
    (requests : List ρ) {A : ν → Prop} {P : List (Publication ν) → State δ ν → Prop}
    (hstep : ∀ {made s s' x plan q}, A x → Gathered D live holders made s → P made s →
      x ∉ made.map Publication.volume → Followed D live holders made s s' x plan q →
      P (made ++ [plan.publication]) s') (readers : List ν) :
    ∀ {made : List (Publication ν)} {s : State δ ν}, Gathered D live holders made s → P made s →
      readers.Nodup →
      (∀ x ∈ readers, A x ∧ x ∉ made.map Publication.volume ∧ x ∉ holders) →
      ∃ s' plans, D.burst requests readers s = .ok (s', plans) ∧
        plans.map (fun plan => plan.publication.volume) = readers ∧
        P (made ++ plans.map ReadPlan.publication) s' ∧
        (∀ v, s'.fanout.named v
          = s.fanout.named v + plans.countP (fun plan => plan.head = some v)) ∧
        Behind (holders ++ made.map Publication.volume) plans := by
  induction readers with
  | nil =>
      intro made s _ hP _ _
      refine ⟨s, [], rfl, rfl, by simpa using hP, fun v => by simp, ?_⟩
      intro before plan after hsplit
      cases before <;> cases hsplit
  | cons x readers ih =>
      intro made s hg hP hnd hnew
      obtain ⟨hx, hreaders⟩ := List.nodup_cons.mp hnd
      obtain ⟨hok, hnot, hreader⟩ := hnew x List.mem_cons_self
      obtain ⟨t, plan, q, hplan, hf⟩ := hg.route hC hkey hholders requests hnot hreader
      -- the readers left are still new: this one was not among them
      have hrest : ∀ y ∈ readers, A y ∧
          y ∉ (made ++ [plan.publication]).map Publication.volume ∧ y ∉ holders := by
        intro y hy
        obtain ⟨hyok, hynot, hyholder⟩ := hnew y (List.mem_cons_of_mem _ hy)
        refine ⟨hyok, ?_, hyholder⟩
        rw [List.map_append, List.mem_append, List.map_singleton, List.mem_singleton, hf.own]
        intro hmem
        rcases hmem with hmem | heq
        · exact hynot hmem
        · exact hx (heq ▸ hy)
      obtain ⟨u, plans, hburst, hvols, hP', hnamed, hbehind⟩ :=
        ih hf.gathered (hstep hok hg hP hnot hf) hreaders hrest
      refine ⟨u, plan :: plans, burst_cons hplan hburst, ?_, ?_, ?_, ?_⟩
      · rw [List.map_cons, hvols, hf.own]
      · rw [List.append_assoc] at hP'
        exact hP'
      · intro v
        rw [hnamed, hf.named, List.countP_cons, hf.head]
        by_cases hv : v = q.volume
        · subst hv
          simp only [if_true, decide_true]
          push_cast
          omega
        · have hne : ¬ q.volume = v := Ne.symm hv
          simp [hv, hne]
      · apply behind_cons hf.head hf.head_mem
        rw [List.map_append, ← List.append_assoc] at hbehind
        exact hbehind

/-! ## §6. Levels of what was made. -/

/-- The publications of a burst at depth `d`. -/
def level (made : List (Publication ν)) (depth : Publication ν → ℕ) (d : ℕ) :
    Finset (Publication ν) :=
  made.toFinset.filter (fun q => depth q = d)

theorem mem_level {made : List (Publication ν)} {depth : Publication ν → ℕ} {d : ℕ}
    {q : Publication ν} : q ∈ level made depth d ↔ q ∈ made ∧ depth q = d := by
  unfold level
  rw [Finset.mem_filter, List.mem_toFinset]

/-- What was made is its levels, where none is deeper than `k`. -/
theorem length_eq_levels {made : List (Publication ν)} {depth : Publication ν → ℕ} {k : ℕ}
    (hnd : made.Nodup) (hshallow : ∀ q ∈ made, depth q < k) :
    made.length = ∑ d ∈ Finset.range k, (level made depth d).card := by
  have hmaps : ∀ q ∈ made.toFinset, depth q ∈ Finset.range k := by
    intro q hq
    exact Finset.mem_range.mpr (hshallow q (List.mem_toFinset.mp hq))
  rw [← List.toFinset_card_of_nodup hnd]
  exact Finset.card_eq_sum_card_fiberwise hmaps

/-- A new publication joins its own level. -/
theorem level_append {made : List (Publication ν)} {p : Publication ν} (hp : p ∉ made)
    (depth : Publication ν → ℕ) (e d : ℕ) :
    level (made ++ [p]) (Function.update depth p e) d
      = if d = e then insert p (level made depth d) else level made depth d := by
  ext q
  by_cases hq : q = p
  · subst hq
    rw [mem_level, Function.update_self]
    by_cases hd : d = e
    · rw [if_pos hd]
      simp [hd]
    · rw [if_neg hd, mem_level]
      simp [Ne.symm hd, hp]
  · have hmem : q ∈ made ++ [p] ↔ q ∈ made := by
      simp [hq]
    rw [mem_level, hmem, Function.update_of_ne hq]
    by_cases hd : d = e
    · rw [if_pos hd, Finset.mem_insert, mem_level]
      simp [hq]
    · rw [if_neg hd, mem_level]

/-- A decision counts one more at the level of the source it names, if that is
an earlier reader's. -/
theorem Followed.sum_level {D : Dedup δ ρ ν} {live : δ → List ν} {holders : List ν}
    {made : List (Publication ν)} {s s' : State δ ν} {requester : ν} {plan : ReadPlan ν}
    {q : Publication ν} (h : Followed D live holders made s s' requester plan q)
    (hg : Gathered D live holders made s) (depth : Publication ν → ℕ) (d : ℕ) :
    ∑ p ∈ level made depth d, s'.fanout.named p.volume
      = (∑ p ∈ level made depth d, s.fanout.named p.volume)
        + if q ∈ level made depth d then 1 else 0 := by
  have hterm : ∀ p ∈ level made depth d, s'.fanout.named p.volume
      = s.fanout.named p.volume + if p = q then 1 else 0 := by
    intro p hp
    have hpmade := (mem_level.mp hp).1
    rw [h.named]
    by_cases hpq : p = q
    · rw [if_pos hpq, if_pos (by rw [hpq])]
    · -- volumes are distinct, and no reader's is a live one
      have hne : p.volume ≠ q.volume := by
        intro heq
        rcases h.leads.offered with ⟨_, hlive⟩ | hq
        · exact hg.apart p hpmade (heq ▸ hlive)
        · exact hpq (List.inj_on_of_nodup_map hg.distinct hpmade hq heq)
      rw [if_neg hpq, if_neg hne, add_zero]
  rw [Finset.sum_congr rfl hterm, Finset.sum_add_distrib, Finset.sum_ite_eq']

/-- The new reader's own volume is read by nobody yet. -/
theorem Followed.named_own {D : Dedup δ ρ ν} {live : δ → List ν} {holders : List ν}
    {made : List (Publication ν)} {s s' : State δ ν} {requester : ν} {plan : ReadPlan ν}
    {q : Publication ν} (h : Followed D live holders made s s' requester plan q)
    (hg : Gathered D live holders made s) (hnew : requester ∉ made.map Publication.volume)
    (hreader : requester ∉ holders) : s'.fanout.named plan.publication.volume = 0 := by
  have hne : requester ≠ q.volume := ((D.admits_iff _ _ _).mp h.leads.admits).1.symm
  rw [h.named, h.own, if_neg hne]
  exact hg.idle requester hnew hreader

/-- Nobody is counted below zero. -/
theorem Gathered.named_nonneg {D : Dedup δ ρ ν} {live : δ → List ν} {holders : List ν}
    {made : List (Publication ν)} {s : State δ ν} (hg : Gathered D live holders made s)
    (v : ν) : 0 ≤ s.fanout.named v := by
  have hval := (hg.coherent.fanout.counts v).1
  unfold FanoutSensor.named
  rw [hval]
  exact hg.coherent.fanout.counts.nonneg v

end Toso.DedupSim
