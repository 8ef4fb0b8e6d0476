/-
  Toso.KvCache.PricedOnce — a request is priced once, however it is passed on.

  Pricing reads a cluster that earlier bookings and every report keep moving.
  The ask that moves a request records its answer in `_placed`; the invariant
  ties that map to the requests standing between two hosts, and to what each
  request's asks dispatched.

  Main results:
    * `PricedOnce.step` — every step keeps the invariant.
    * `priced_once` — in every run, each accepted request is booked once, is
      moved at most once and is served by the response booked for it.
-/
import Toso.KvCache.Serving

namespace Toso.KvCache

open Lib Proposed SimCommon Domain

variable {ν ι κ : Type*}

/-- A request sent on by an answer, whose new host has yet to ask. -/
def Leg.Moving (leg : Leg ν ι κ) : Prop := leg.stage = .asking ∧ 0 < leg.hops

namespace Serving

section

variable [LinearOrder ι] [DecidableEq κ] [DecidableEq ν]

/-! ## §1. Where a request can stand. -/

/-- What the asks of one request dispatched. -/
def actionsOf (s : Serving ν ι κ) (id : ν) : List (Action ι κ) :=
  (s.dispatched.filter fun a => a.1 = id).map Prod.snd

/-- Where a request can stand, with what its asks dispatched and what the plane
remembers of it. -/
def Standing (s : Serving ν ι κ) (id : ν) (leg : Leg ν ι κ) : Prop :=
  match leg.stage with
  | .asking =>
      -- at its landing host, or on its one reroute
      (leg.hops = 0 ∧ s.actionsOf id = [] ∧ s.plane.placed.get? id = none) ∨
      (leg.hops = 1 ∧ ∃ response, response.prefill = leg.host ∧
        s.actionsOf id = [.committed response leg.request.outputTokens] ∧
        s.plane.placed.get? id = some response)
  | .refused => s.actionsOf id = [] ∧ s.plane.placed.get? id = none
  | .raised => s.actionsOf id = [] ∧ s.plane.placed.get? id = none
  | .lost => False
  | .served response _ =>
      leg.hops ≤ 1 ∧ leg.host = response.prefill ∧
        s.actionsOf id = [.committed response leg.request.outputTokens] ∧
        s.plane.placed.get? id = none

/-- **The invariant**: every request stands where it can, and nothing is known of a
request that never came. -/
structure PricedOnce (s : Serving ν ι κ) : Prop where
  id_eq : ∀ id leg, s.legs.get? id = some leg → leg.request.id = id
  standing : ∀ id leg, s.legs.get? id = some leg → s.Standing id leg
  absent : ∀ id, s.legs.get? id = none →
    s.actionsOf id = [] ∧ s.plane.placed.get? id = none

/-! ## §2. What keeps it. -/

omit [LinearOrder ι] [DecidableEq κ] in
/-- Standing reads the state at the request's own id. -/
theorem Standing.congr {s t : Serving ν ι κ} {id : ν} {leg : Leg ν ι κ}
    (ha : t.actionsOf id = s.actionsOf id)
    (hp : t.plane.placed.get? id = s.plane.placed.get? id)
    (h : s.Standing id leg) : t.Standing id leg := by
  unfold Standing at h ⊢
  rw [ha, hp]
  exact h

omit [LinearOrder ι] [DecidableEq κ] in
/-- One leg replaced, and nothing said of the other requests. -/
theorem PricedOnce.update {s t : Serving ν ι κ} (h : PricedOnce s) (leg : Leg ν ι κ)
    (hlegs : t.legs = s.legs.set leg.request.id leg)
    (ha : ∀ x, x ≠ leg.request.id → t.actionsOf x = s.actionsOf x)
    (hp : ∀ x, x ≠ leg.request.id → t.plane.placed.get? x = s.plane.placed.get? x)
    (hnew : t.Standing leg.request.id leg) : PricedOnce t := by
  have hread : ∀ x, x ≠ leg.request.id → t.legs.get? x = s.legs.get? x := by
    intro x hx
    rw [hlegs, Dict.get?_set_ne _ _ (Ne.symm hx)]
  have hself : t.legs.get? leg.request.id = some leg := by
    rw [hlegs, Dict.get?_set_self]
  constructor
  · intro x l hl
    by_cases hx : x = leg.request.id
    · rw [hx, hself] at hl
      cases hl
      exact hx.symm
    · rw [hread x hx] at hl
      exact h.id_eq x l hl
  · intro x l hl
    by_cases hx : x = leg.request.id
    · rw [hx, hself] at hl
      cases hl
      exact hx ▸ hnew
    · rw [hread x hx] at hl
      exact (h.standing x l hl).congr (ha x hx) (hp x hx)
  · intro x hl
    by_cases hx : x = leg.request.id
    · rw [hx, hself] at hl
      cases hl
    · rw [hread x hx] at hl
      rw [ha x hx, hp x hx]
      exact h.absent x hl

omit [LinearOrder ι] [DecidableEq κ] in
/-- A served request going through its phases. -/
theorem PricedOnce.phase {s t : Serving ν ι κ} (h : PricedOnce s) {id : ν} {leg : Leg ν ι κ}
    {response : Response ι κ} {p : Phase} (hl : s.legs.get? id = some leg)
    (hs : leg.stage = .served response p) {q : Phase}
    (hlegs : t.legs = s.legs.set leg.request.id { leg with stage := .served response q })
    (hd : t.dispatched = s.dispatched) (hp : t.plane.placed = s.plane.placed) :
    PricedOnce t := by
  obtain rfl := h.id_eq id leg hl
  have ha : ∀ x, t.actionsOf x = s.actionsOf x := by
    intro x
    unfold actionsOf
    rw [hd]
  refine h.update { leg with stage := .served response q } hlegs
    (fun x _ => ha x) (fun x _ => by rw [hp]) ?_
  have hold := h.standing _ leg hl
  unfold Standing at hold
  rw [hs, ← ha, ← hp] at hold
  exact hold

omit [LinearOrder ι] [DecidableEq κ] in
/-- Steps that touch no request. -/
theorem PricedOnce.frame {s t : Serving ν ι κ} (h : PricedOnce s) (hlegs : t.legs = s.legs)
    (hd : t.dispatched = s.dispatched) (hp : t.plane.placed = s.plane.placed) :
    PricedOnce t := by
  have ha : ∀ x, t.actionsOf x = s.actionsOf x := by
    intro x
    unfold actionsOf
    rw [hd]
  constructor
  · intro x l hl
    exact h.id_eq x l (hlegs ▸ hl)
  · intro x l hl
    exact (h.standing x l (hlegs ▸ hl)).congr (ha _) (by rw [hp])
  · intro x hl
    rw [ha, hp]
    exact h.absent x (hlegs ▸ hl)

omit [LinearOrder ι] [DecidableEq κ] in
/-- A request none of whose asks dispatched anything labels nothing. -/
theorem ne_of_actionsOf_nil {s : Serving ν ι κ} {id : ν} (h : s.actionsOf id = [])
    {a : ν × Action ι κ} (ha : a ∈ s.dispatched) : a.1 ≠ id := by
  intro heq
  have hmem : a.2 ∈ s.actionsOf id :=
    List.mem_map.mpr ⟨a, List.mem_filter.mpr ⟨ha, by simpa using heq⟩, rfl⟩
  rw [h] at hmem
  cases hmem

omit [LinearOrder ι] [DecidableEq κ] in
/-- The one action of a request that was booked. -/
theorem eq_of_actionsOf {s : Serving ν ι κ} {id : ν} {action : Action ι κ}
    (h : s.actionsOf id = [action]) {a : ν × Action ι κ} (ha : a ∈ s.dispatched)
    (hid : a.1 = id) : a.2 = action := by
  have hmem : a.2 ∈ s.actionsOf id :=
    List.mem_map.mpr ⟨a, List.mem_filter.mpr ⟨ha, by simpa using hid⟩, rfl⟩
  rw [h] at hmem
  exact List.mem_singleton.mp hmem

/-- What a booking's asks dispatched. -/
theorem actionsOf_booked (s : Serving ν ι κ) (leg : Leg ν ι κ) (response : Response ι κ)
    (x : ν) : (s.booked leg response).actionsOf x =
      s.actionsOf x ++
        if x = leg.request.id then [.committed response leg.request.outputTokens] else [] := by
  show ((s.dispatched ++ _).filter _).map Prod.snd = _
  rw [List.filter_append, List.map_append]
  congr 1
  by_cases hx : x = leg.request.id
  · subst hx
    simp
  · have hne : leg.request.id ≠ x := fun heq => hx heq.symm
    simp [hx, hne]

/-- **One ask.** -/
theorem PricedOnce.ask {s : Serving ν ι κ} (h : PricedOnce s) (cfg : Settings ι) {id : ν}
    {leg : Leg ν ι κ} (hl : s.legs.get? id = some leg) (hs : leg.stage = .asking)
    (located : κ → List ι) : PricedOnce (s.ask cfg leg located) := by
  obtain rfl := h.id_eq id leg hl
  have hstand := h.standing _ leg hl
  unfold Standing at hstand
  rw [hs] at hstand
  rcases ask_cases cfg s leg located with ⟨placed, hp, heq⟩ | ⟨hp, hcases⟩
  · -- the ask of a moved request: the recording is popped
    rcases hstand with ⟨_, _, hnone⟩ | ⟨hhops, response, hhost, hact, hsome⟩
    · rw [hp] at hnone
      cases hnone
    · rw [hp, Option.some.injEq] at hsome
      subst hsome
      rw [heq, answered_here hhost]
      refine h.update { leg with stage := .served placed .accepted }
        rfl (fun _ _ => rfl) ?_ ?_
      · intro x hx
        exact Dict.get?_erase_ne _ (Ne.symm hx)
      · exact ⟨le_of_eq hhops, hhost.symm, hact, Dict.get?_erase_self _ _⟩
  · -- the first ask: nothing was recorded, so nothing was dispatched
    have hfirst : leg.hops = 0 ∧ s.actionsOf leg.request.id = [] := by
      rcases hstand with ⟨hhops, hact, _⟩ | ⟨_, response, _, _, hsome⟩
      · exact ⟨hhops, hact⟩
      · rw [hp] at hsome
        cases hsome
    obtain ⟨hhops, hact⟩ := hfirst
    rcases hcases with heq | heq | ⟨response, heq⟩
    · rw [heq]
      exact h.update { leg with stage := .raised } rfl (fun _ _ => rfl)
        (fun _ _ => rfl) ⟨hact, hp⟩
    · rw [heq]
      exact h.update { leg with stage := .refused } rfl (fun _ _ => rfl)
        (fun _ _ => rfl) ⟨hact, hp⟩
    · rw [heq]
      have hplaced : (s.booked leg response).plane.placed =
          if response.prefill = leg.host then s.plane.placed
          else s.plane.placed.set leg.request.id response :=
        Scheduler.book_placed _ _ _ _
      have hlegs : (s.booked leg response).legs =
          s.legs.set leg.request.id (answered leg (some response)) := rfl
      have hself := actionsOf_booked s leg response leg.request.id
      rw [hact, if_pos rfl, List.nil_append] at hself
      have hother : ∀ x, x ≠ leg.request.id →
          (s.booked leg response).actionsOf x = s.actionsOf x := by
        intro x hx
        rw [actionsOf_booked, if_neg hx, List.append_nil]
      -- the plan is run here, or the request moves to where it is to run
      by_cases hhost : response.prefill = leg.host
      · rw [if_pos hhost] at hplaced
        rw [answered_here hhost] at hlegs
        refine h.update { leg with stage := .served response .accepted }
          hlegs hother (fun x _ => by rw [hplaced]) ?_
        refine ⟨?_, hhost.symm, hself, ?_⟩
        · show leg.hops ≤ 1
          omega
        · rw [hplaced]
          exact hp
      · have hfew : leg.hops + 1 < maxHops := by
          unfold maxHops
          omega
        rw [if_neg hhost] at hplaced
        rw [answered_elsewhere hhost hfew] at hlegs
        refine h.update { leg with host := response.prefill, hops := leg.hops + 1 }
          hlegs hother ?_ ?_
        · intro x hx
          rw [hplaced, Dict.get?_set_ne _ _ (Ne.symm hx)]
        · unfold Standing
          rw [hs]
          refine .inr ⟨?_, response, rfl, hself, ?_⟩
          · show leg.hops + 1 = 1
            omega
          · rw [hplaced]
            exact Dict.get?_set_self _ _ _

theorem PricedOnce.fetch {s : Serving ν ι κ} (h : PricedOnce s) (cfg : Settings ι) {id : ν}
    {leg : Leg ν ι κ} {response : Response ι κ} {p : Phase}
    (hl : s.legs.get? id = some leg) (hs : leg.stage = .served response p) (host : ι)
    (keys : List κ) (priced : Option ι) (located : κ → List ι) (after : Phase) :
    PricedOnce (s.fetch cfg leg response host keys priced located after) := by
  obtain ⟨_, _, heq⟩ := fetch_eq cfg s leg response host keys priced located after
  rw [heq]
  exact h.phase hl hs rfl rfl rfl

/-- **Every step keeps the invariant.** -/
theorem PricedOnce.step {cfg : Settings ι} {s t : Serving ν ι κ} {e : Event ν ι κ}
    (h : PricedOnce s) (hst : next cfg s e = some t) : PricedOnce t := by
  cases moves_of_next hst with
  | @arrive request host hfresh =>
      exact h.update ⟨request, host, 0, .asking⟩ rfl (fun _ _ => rfl) (fun _ _ => rfl)
        (.inl ⟨rfl, h.absent request.id hfresh⟩)
  | ask hl hs => exact h.ask cfg hl hs _
  | pass hl hs => exact h.phase hl hs rfl rfl rfl
  | fetch hl hs => exact h.fetch cfg hl hs _ _ _ _ _
  | finish hl hs => exact h.phase hl hs rfl rfl rfl
  | join hl hs =>
      rcases join_cases s _ _ with ⟨_, heq⟩ | ⟨_, heq⟩
      · rw [heq]
        exact h.phase hl hs rfl rfl rfl
      · rw [heq]
        exact h.phase hl hs rfl rfl rfl
  | leave hl hs => exact h.phase hl hs rfl rfl rfl
  | report => exact h.frame rfl rfl rfl
  | deliver => exact h.frame rfl rfl rfl
  | busy => exact h.frame rfl rfl rfl
  | tick => exact h.frame rfl rfl rfl

/-! ## §3. Priced once. -/

theorem pricedOnce_of_run {cfg : Settings ι} {s : Serving ν ι κ}
    (h : (machine cfg).Reachable s) : PricedOnce s := by
  refine h.invariant ?_ ?_
  · intro s hs
    obtain ⟨now, rfl⟩ := hs
    constructor
    · intro id leg hl
      cases hl
    · intro id leg hl
      cases hl
    · intro id _
      exact ⟨rfl, rfl⟩
  · intro s e t hs hst
    exact hs.step hst

omit [LinearOrder ι] [DecidableEq κ] in
/-- No request's asks dispatched twice. -/
theorem PricedOnce.dispatched_nodup {s : Serving ν ι κ} (h : PricedOnce s) :
    (s.dispatched.map Prod.fst).Nodup := by
  have hone : ∀ id, (s.actionsOf id).length ≤ 1 := by
    intro id
    cases hl : s.legs.get? id with
    | none => simp [(h.absent id hl).1]
    | some leg =>
        have hstand := h.standing id leg hl
        unfold Standing at hstand
        cases hs : leg.stage with
        | asking =>
            rw [hs] at hstand
            rcases hstand with ⟨_, hact, _⟩ | ⟨_, response, _, hact, _⟩ <;> simp [hact]
        | lost =>
            rw [hs] at hstand
            exact hstand.elim
        | served response p =>
            rw [hs] at hstand
            simp [hstand.2.2.1]
        | _ =>
            rw [hs] at hstand
            simp [hstand.1]
  rw [List.nodup_iff_count_le_one]
  intro id
  have hlen := hone id
  unfold actionsOf at hlen
  rw [List.length_map, ← List.countP_eq_length_filter] at hlen
  rw [List.count, List.countP_map]
  refine le_trans (le_of_eq ?_) hlen
  refine List.countP_congr fun a _ => ?_
  simp

/-- The next ask of a request, whatever the directory then says, serves it where it
stands by the response booked for it, and dispatches nothing. -/
def Follows (cfg : Settings ι) (s : Serving ν ι κ) (id : ν) (leg : Leg ν ι κ) : Prop :=
  ∀ located, ∃ response t,
    s.actionsOf id = [.committed response leg.request.outputTokens] ∧
    next cfg s (.ask id located) = some t ∧
    t.legs.get? id = some { leg with stage := .served response .accepted } ∧
    t.dispatched = s.dispatched

/-- A moved request is served at its next ask. -/
theorem PricedOnce.follow {s : Serving ν ι κ} (h : PricedOnce s) (cfg : Settings ι) {id : ν}
    {leg : Leg ν ι κ} (hl : s.legs.get? id = some leg) (hm : leg.Moving) :
    s.Follows cfg id leg := by
  intro located
  obtain rfl := h.id_eq id leg hl
  have hstand := h.standing _ leg hl
  obtain ⟨hs, hhops⟩ := hm
  unfold Standing at hstand
  rw [hs] at hstand
  rcases hstand with ⟨hzero, _, _⟩ | ⟨_, response, hhost, hact, hsome⟩
  · omega
  · have hnext : next cfg s (.ask leg.request.id located) = some (s.ask cfg leg located) := by
      simp only [next, hl, hs, if_true]
    refine ⟨response, _, hact, hnext, ?_⟩
    rcases ask_cases cfg s leg located with ⟨placed, hp, heq⟩ | ⟨hp, _⟩
    · rw [hp, Option.some.injEq] at hsome
      subst hsome
      rw [heq, answered_here hhost]
      exact ⟨Dict.get?_set_self _ _ _, rfl⟩
    · rw [hp] at hsome
      cases hsome

omit [LinearOrder ι] [DecidableEq κ] in
/-- With nobody between two hosts, nothing is remembered. -/
theorem PricedOnce.placed_empty {s : Serving ν ι κ} (h : PricedOnce s)
    (hnone : ∀ id leg, s.legs.get? id = some leg → ¬ leg.Moving) :
    s.plane.placed = Dict.empty := by
  apply Dict.eq_empty
  intro id
  cases hl : s.legs.get? id with
  | none => exact (h.absent id hl).2
  | some leg =>
      have hstand := h.standing id leg hl
      unfold Standing at hstand
      cases hs : leg.stage with
      | asking =>
          rw [hs] at hstand
          rcases hstand with ⟨_, _, hp⟩ | ⟨hhops, _⟩
          · exact hp
          · exact absurd ⟨hs, by omega⟩ (hnone id leg hl)
      | refused =>
          rw [hs] at hstand
          exact hstand.2
      | raised =>
          rw [hs] at hstand
          exact hstand.2
      | lost =>
          rw [hs] at hstand
          exact hstand.elim
      | served response p =>
          rw [hs] at hstand
          exact hstand.2.2.2

/-- **Priced once.**  In every run every request stands where it can; one that was
moved is served where it was sent, at its next ask, by the response booked for it
and with nothing more dispatched; and with nobody between two hosts the plane
remembers nobody. -/
theorem priced_once {cfg : Settings ι} {s : Serving ν ι κ} (h : (machine cfg).Reachable s) :
    (∀ id leg, s.legs.get? id = some leg → s.Standing id leg) ∧
    (∀ id leg, s.legs.get? id = some leg → leg.Moving → s.Follows cfg id leg) ∧
    ((∀ id leg, s.legs.get? id = some leg → ¬ leg.Moving) →
      s.plane.placed = Dict.empty) := by
  have honce := pricedOnce_of_run h
  refine ⟨honce.standing, ?_, honce.placed_empty⟩
  intro id leg hl hm
  exact honce.follow cfg hl hm

end

/-! ## §4. A request sent on. -/

/-- Four instances of one node. -/
def fourEndpoints : ℕ → Endpoint
  | 0 => ⟨"s0", "s0", "n0"⟩
  | 1 => ⟨"s1", "s1", "n0"⟩
  | 2 => ⟨"s2", "s2", "n0"⟩
  | _ => ⟨"s3", "s3", "n0"⟩

/-- A cache-aware scheduler that spreads reads, with one instance to prefill on. -/
def spreadConfig : Settings ℕ where
  ids := [0, 1, 2, 3]
  endpoint := fourEndpoints
  reuse := .peers
  rank := .ttft
  balanceThreshold := 3 / 2
  source := .spread
  blockTokens := 512
  profile := defaultProfile
  model := defaultModel
  decodePool := []
  prefillPool := [0]
  sloTtft := none
  sloTbt := none
  simulateDecode := false
  earlyRejection := .early

/-- A request for the chain `10, 11`. -/
def chainRequest (id : ℕ) : Request ℕ ℕ := ⟨id, 0, [10, 11], 1024, 4, 1024, "", rfl⟩

/-- Instances 1 and 2 hold every block. -/
def twoHolders : ℕ → List ℕ := fun _ => [1, 2]

/-- A request that lands on instance 3 and is sent to instance 0. -/
theorem priced_once_rerouted : ∃ s : Serving ℕ ℕ ℕ,
    run spreadConfig 0 [.arrive (chainRequest 7) 3, .ask 7 twoHolders, .ask 7 twoHolders]
      = some s ∧
    (s.legs.get? 7).map (fun leg => (leg.host, leg.hops)) = some (0, 1) ∧
    (∀ id leg, s.legs.get? id = some leg → s.Standing id leg) ∧
    (∀ id leg, s.legs.get? id = some leg → leg.Moving → s.Follows spreadConfig id leg) ∧
    ((∀ id leg, s.legs.get? id = some leg → ¬ leg.Moving) →
      s.plane.placed = Dict.empty) := by
  have hrun : (run spreadConfig 0 [.arrive (chainRequest 7) 3, .ask 7 twoHolders,
      .ask 7 twoHolders]).any (fun s : Serving ℕ ℕ ℕ =>
        decide ((s.legs.get? 7).map (fun leg => (leg.host, leg.hops)) = some (0, 1))) = true := by
    decide +kernel
  obtain ⟨s, hs, hleg⟩ := (Option.any_eq_true _ _).mp hrun
  exact ⟨s, hs, of_decide_eq_true hleg, priced_once (reachable_of_run hs)⟩

end Serving

end Toso.KvCache
