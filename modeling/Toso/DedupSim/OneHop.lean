/-
  Toso.DedupSim.OneHop — how far a chained burst keeps to one fabric hop.

  One origin holds a key on its own node; the readers sit on distinct hosts of
  another.  A hop off the origin costs its price eleven times over, a hop off a
  reader is cheap but waits for the branch above it.  On the default profile a
  reader under at most five others is the better source, so the readers form a
  tree of seven levels under one root before the origin is read again.

  Main results:
    * `room_left`, `levels_full` — a tree of fewer than `1 + c + ... + c ^ 6`
      readers has room on its first six levels, one of that many has none.
    * `PutGetBurst.run`, `one_hop_iff` — a burst costs one hop off the origin up to exactly that
      size.
    * `second_hop` — with a cap of two, reader 128 is routed to the origin again.
-/
import Toso.DedupSim.Burst
import Toso.SimCommon.CostModel
import Toso.Lib.Levels
import Mathlib.Tactic.Linarith
import Mathlib.Tactic.Ring

namespace Toso.DedupSim

open Lib Toso.Proposed Toso.SimCommon

variable {δ ρ ν : Type*} [LinearOrder ν]

/-! ## §1. The put/get burst. -/

/-- **The put/get burst**: a chained plane on the default profile, one origin on
its own node, every reader on a host of its own on one other node, and only the
origin holding the key. -/
structure PutGetBurst (D : Dedup δ ρ ν) (live : δ → List ν) (topology : ν → Endpoint)
    (origin : ν) (readers : List ν) (s : State δ ν) : Prop where
  documented : D.controller.Documented
  wholeKey : D.controller.WholeKey live
  chained : D.spread = false
  environment : ∀ a b n, D.readTime a b n = readTime (topology a) (topology b) n defaultProfile
  distinct : (origin :: readers).Nodup
  ids : ∀ a ∈ origin :: readers, ∀ b ∈ origin :: readers, a ≠ b →
    (topology a).id ≠ (topology b).id
  hosts : ∀ a ∈ origin :: readers, ∀ b ∈ origin :: readers, a ≠ b →
    (topology a).host ≠ (topology b).host
  node : ∀ a ∈ readers, ∀ b ∈ readers, (topology a).node = (topology b).node
  away : ∀ a ∈ readers, (topology origin).node ≠ (topology a).node
  fresh : D.Fresh s
  held : live s.sensor.directory = [origin]

/-- **One fabric hop**: exactly one reader is routed to the origin first, and
every other behind what an earlier reader publishes. -/
def OneFabricHop (origin : ν) (plans : List (ReadPlan ν)) : Prop :=
  plans.countP (fun plan => plan.head = some origin) = 1 ∧
    ∀ before plan after, plans = before ++ plan :: after → plan.head = some origin ∨
      ∃ earlier ∈ before, plan.head = some earlier.publication.volume

/-- The readers of a burst that keeps to one hop: seven levels of fan-out `cap`. -/
def oneHopReaders (cap : ℕ) : ℕ := ∑ d ∈ Finset.range 7, cap ^ d

namespace PutGetBurst

variable {D : Dedup δ ρ ν} {live : δ → List ν} {topology : ν → Endpoint} {origin : ν}
  {readers : List ν} {s₀ : State δ ν}

omit [LinearOrder ν] in
theorem far (h : PutGetBurst D live topology origin readers s₀) {x : ν} (hx : x ∈ readers) :
    D.readTime origin x 1 = farHop := by
  have hne : origin ≠ x := fun heq =>
    (List.nodup_cons.mp h.distinct).1 (heq ▸ hx)
  rw [h.environment]
  exact readTime_far (h.ids _ List.mem_cons_self _ (List.mem_cons_of_mem _ hx) hne)
    (h.hosts _ List.mem_cons_self _ (List.mem_cons_of_mem _ hx) hne) (h.away x hx)

omit [LinearOrder ν] in
theorem near (h : PutGetBurst D live topology origin readers s₀) {x y : ν} (hx : x ∈ readers)
    (hy : y ∈ readers) (hne : x ≠ y) : D.readTime x y 1 = nearHop := by
  rw [h.environment]
  exact readTime_near
    (h.ids _ (List.mem_cons_of_mem _ hx) _ (List.mem_cons_of_mem _ hy) hne)
    (h.hosts _ (List.mem_cons_of_mem _ hx) _ (List.mem_cons_of_mem _ hy) hne) (h.node x hx y hy)

/-- The origin's weight: its hop, eleven times over. -/
theorem weight_origin (h : PutGetBurst D live topology origin readers s₀) {x : ν}
    (hx : x ∈ readers) (fanout : FanoutSensor ν) :
    D.weight fanout x ⟨0, origin⟩ = 11 * farHop := by
  have hne : origin ≠ x := fun heq =>
    (List.nodup_cons.mp h.distinct).1 (heq ▸ hx)
  unfold Dedup.weight
  rw [h.chained, score_live D fanout hne, h.far hx, Dedup.fabric, h.chained]
  show farHop + chainFabric * farHop = 11 * farHop
  unfold chainFabric
  ring

end PutGetBurst

/-! ## §2. The tree of a burst. -/

/-- **The tree a burst has grown**: every publication arrives one hop after its
parent, no branch is deeper than seven, no volume over the cap, and a level is
what is counted on the volumes above it. -/
structure Grown (D : Dedup δ ρ ν) (readers : List ν) (made : List (Publication ν))
    (s : State δ ν) (depth : Publication ν → ℕ) : Prop where
  readers : ∀ q ∈ made, q.volume ∈ readers
  arrival : ∀ q ∈ made, s.fanout.arrival q = some (farHop + depth q * nearHop)
  shallow : ∀ q ∈ made, depth q < 7
  root : (level made depth 0).card = 1
  room : ∀ q ∈ made, s.fanout.named q.volume ≤ D.fanoutCap
  children : ∀ d, ((level made depth (d + 1)).card : ℤ)
    = ∑ q ∈ level made depth d, s.fanout.named q.volume

namespace Grown

variable {D : Dedup δ ρ ν} {readers : List ν} {made : List (Publication ν)} {s : State δ ν}
  {depth : Publication ν → ℕ}

/-- A level has at most `cap` times the readers of the one above. -/
theorem level_step (h : Grown D readers made s depth) {cap : ℕ} (hcap : D.fanoutCap = cap)
    (d : ℕ) : (level made depth (d + 1)).card ≤ cap * (level made depth d).card := by
  have hsum : ∑ q ∈ level made depth d, s.fanout.named q.volume
      ≤ (level made depth d).card • (cap : ℤ) := by
    apply Finset.sum_le_card_nsmul
    intro q hq
    have hroom := h.room q (mem_level.mp hq).1
    rw [hcap] at hroom
    exact hroom
  have hlevel := h.children d
  rw [nsmul_eq_mul] at hsum
  have hint : ((level made depth (d + 1)).card : ℤ) ≤ (cap * (level made depth d).card : ℕ) := by
    rw [hlevel]
    push_cast
    rw [mul_comm]
    exact hsum
  exact_mod_cast hint

/-- **A tree that has not reached the bound has room on its first six levels.** -/
theorem room_left (h : Grown D readers made s depth) (hnd : made.Nodup) {cap : ℕ}
    (hcap : D.fanoutCap = cap) (hlen : made.length < oneHopReaders cap) :
    ∃ q ∈ made, depth q ≤ 5 ∧ s.fanout.named q.volume < D.fanoutCap := by
  by_contra hnone
  -- no room at all: the first six levels are full, and the tree reaches the bound
  have hfull : ∀ d, d + 1 < 7 →
      (level made depth (d + 1)).card = cap * (level made depth d).card := by
    intro d hd
    have hall : ∀ q ∈ level made depth d, s.fanout.named q.volume = (cap : ℤ) := by
      intro q hq
      obtain ⟨hmem, hdepth⟩ := mem_level.mp hq
      have hroom := h.room q hmem
      rw [hcap] at hroom
      by_contra hne
      apply hnone
      refine ⟨q, hmem, by omega, ?_⟩
      rw [hcap]
      omega
    have hlevel := h.children d
    rw [Finset.sum_congr rfl hall, Finset.sum_const, nsmul_eq_mul] at hlevel
    have hint : ((level made depth (d + 1)).card : ℤ) = (cap * (level made depth d).card : ℕ) := by
      rw [hlevel]
      push_cast
      ring
    exact_mod_cast hint
  have htotal := Levels.total_eq (n := fun d => (level made depth d).card) (c := cap) h.root hfull
  have hsize := length_eq_levels hnd h.shallow
  unfold oneHopReaders at hlen
  omega

/-- **A tree that reaches the bound has no room on its first six levels.** -/
theorem levels_full (h : Grown D readers made s depth) (hnd : made.Nodup) {cap : ℕ}
    (hcap : D.fanoutCap = cap) (hlen : oneHopReaders cap ≤ made.length)
    {q : Publication ν} (hq : q ∈ made) (hdepth : depth q ≤ 5) :
    s.fanout.named q.volume = D.fanoutCap := by
  have hsize := length_eq_levels hnd h.shallow
  have hfull := Levels.level_full (n := fun d => (level made depth d).card) (c := cap)
    (k := 7) (le_of_eq h.root) (h.level_step hcap)
    (by unfold oneHopReaders at hlen; omega) (d := depth q) (by omega)
  have hlevel := h.children (depth q)
  have hconst : ∑ x ∈ level made depth (depth q), s.fanout.named x.volume
      = ∑ x ∈ level made depth (depth q), (cap : ℤ) := by
    rw [← hlevel, Finset.sum_const, nsmul_eq_mul]
    rw [hfull]
    push_cast
    ring
  -- equal sums of terms each at most the cap
  have hterms := (Finset.sum_eq_sum_iff_of_le (s := level made depth (depth q))
    (f := fun x : Publication ν => s.fanout.named x.volume) (g := fun _ => (cap : ℤ)) (by
      intro x hx
      have hroom := h.room x (mem_level.mp hx).1
      rw [hcap] at hroom
      exact hroom)).mp hconst
  rw [hcap]
  exact hterms q (mem_level.mpr ⟨hq, rfl⟩)

end Grown

/-! ## §3. One reader more. -/

namespace PutGetBurst

variable {D : Dedup δ ρ ν} {live : δ → List ν} {topology : ν → Endpoint} {origin : ν}
  {readers : List ν} {s₀ s s' : State δ ν} {made : List (Publication ν)}
  {depth : Publication ν → ℕ}

/-- The weight of what an earlier reader makes, by its depth. -/
theorem weight_made (h : PutGetBurst D live topology origin readers s₀)
    (hg : Gathered D live [origin] made s) (ht : Grown D readers made s depth) {x : ν}
    (hx : x ∈ readers) {q : Publication ν} (hq : q ∈ made) (hne : q.volume ≠ x)
    (hroom : s.fanout.named q.volume < D.fanoutCap) :
    D.weight s.fanout x q = farHop + (depth q + 11) * nearHop := by
  have hnear := h.near (ht.readers q hq) hx hne
  unfold Dedup.weight
  rw [h.chained, hg.score_made hq hne hroom (ht.arrival q hq), hnear, Dedup.fabric, h.chained]
  show farHop + depth q * nearHop + nearHop + chainFabric * nearHop = _
  unfold chainFabric
  ring

/-- **With room on the first six levels, a reader goes behind a peer** no deeper
than they are. -/
theorem behind_peer (h : PutGetBurst D live topology origin readers s₀)
    (hg : Gathered D live [origin] made s) (ht : Grown D readers made s depth) {x : ν}
    (hx : x ∈ readers) (hnew : x ∉ made.map Publication.volume) {q : Publication ν}
    (hlead : Leads D [origin] made s.fanout x q)
    (hroom : ∃ p ∈ made, depth p ≤ 5 ∧ s.fanout.named p.volume < D.fanoutCap) :
    q ∈ made ∧ depth q ≤ 5 ∧ s.fanout.named q.volume < D.fanoutCap := by
  have hvol : ∀ p ∈ made, p.volume ≠ x := by
    intro p hp heq
    exact hnew (heq ▸ List.mem_map_of_mem (f := Publication.volume) hp)
  obtain ⟨p, hp, hdepth, hproom⟩ := hroom
  have hle := hlead.least p (.inr hp) ((hg.admits_made hp (hvol p hp)).mpr hproom)
  rw [h.weight_made hg ht hx hp (hvol p hp) hproom] at hle
  have hdp : (depth p : ℚ) ≤ 5 := by exact_mod_cast hdepth
  rcases hlead.offered with ⟨hpub, hlive⟩ | hq
  · -- the origin's eleven hops cost more than sixteen near ones and its one
    rw [List.mem_singleton] at hlive
    have heq : q = ⟨0, origin⟩ := by
      cases q
      cases hpub
      cases hlive
      rfl
    rw [heq, h.weight_origin hx] at hle
    unfold farHop nearHop at hle
    exfalso
    linarith
  · have hqroom := (hg.admits_made hq (hvol q hq)).mp hlead.admits
    refine ⟨hq, ?_, hqroom⟩
    rw [h.weight_made hg ht hx hq (hvol q hq) hqroom] at hle
    unfold farHop nearHop at hle
    have hdq : (depth q : ℚ) ≤ depth p := by linarith
    have hnat : depth q ≤ depth p := by exact_mod_cast hdq
    omega

/-- **With none, it goes to the origin.** -/
theorem at_origin (h : PutGetBurst D live topology origin readers s₀)
    (hg : Gathered D live [origin] made s) (ht : Grown D readers made s depth) {x : ν}
    (hx : x ∈ readers) (hnew : x ∉ made.map Publication.volume) {q : Publication ν}
    (hlead : Leads D [origin] made s.fanout x q)
    (hfull : ∀ p ∈ made, depth p ≤ 5 → s.fanout.named p.volume = D.fanoutCap) :
    q = ⟨0, origin⟩ := by
  have horigin : origin ≠ x := fun heq => (List.nodup_cons.mp h.distinct).1 (heq ▸ hx)
  rcases hlead.offered with ⟨hpub, hlive⟩ | hq
  · rw [List.mem_singleton] at hlive
    cases q
    cases hpub
    cases hlive
    rfl
  · have hvol : q.volume ≠ x := fun heq =>
      hnew (heq ▸ List.mem_map_of_mem (f := Publication.volume) hq)
    have hroom := (hg.admits_made hq hvol).mp hlead.admits
    have hle := hlead.least ⟨0, origin⟩ (.inl ⟨rfl, List.mem_cons_self⟩)
      (admits_live D s.fanout horigin)
    rw [h.weight_made hg ht hx hq hvol hroom, h.weight_origin hx] at hle
    have hdeep : 6 ≤ depth q := by
      by_contra hlt
      have hfill := hfull q hq (by omega)
      omega
    have hdq : (6 : ℚ) ≤ depth q := by exact_mod_cast hdeep
    unfold farHop nearHop at hle
    exfalso
    linarith

/-- The first reader is the root of the tree. -/
theorem first_grown (h : PutGetBurst D live topology origin readers s₀) {x : ν}
    (hx : x ∈ readers) {plan : ReadPlan ν} {q : Publication ν}
    (hcap : 0 ≤ D.fanoutCap)
    (hidle : s.fanout.named x = 0)
    (hf : Followed D live [origin] [] s s' x plan q) :
    q = ⟨0, origin⟩ ∧ Grown D readers [plan.publication] s' (fun _ => 0) := by
  have horigin : origin ≠ x := fun heq => (List.nodup_cons.mp h.distinct).1 (heq ▸ hx)
  -- only the writer is live, so it is the source
  have hq : q = ⟨0, origin⟩ := by
    rcases hf.leads.offered with ⟨hpub, hlive⟩ | hq
    · rw [List.mem_singleton] at hlive
      cases q
      cases hpub
      cases hlive
      rfl
    · cases hq
  subst hq
  have hnamed : s'.fanout.named plan.publication.volume = 0 := by
    rw [hf.named, hf.own, if_neg (Ne.symm horigin)]
    exact hidle
  refine ⟨rfl, ?_, ?_, ?_, ?_, ?_, ?_⟩
  · intro p hp
    rw [List.mem_singleton] at hp
    rw [hp, hf.own]
    exact hx
  · intro p hp
    rw [List.mem_singleton] at hp
    obtain ⟨wait, hwait, harr⟩ := hf.arrival
    rw [if_pos rfl, Option.some.injEq] at hwait
    rw [hp, harr, h.far hx, ← hwait]
    norm_num
  · intro p _
    exact Nat.zero_lt_succ 6
  · have hlevel : level [plan.publication] (fun _ => 0) 0 = {plan.publication} := by
      ext p
      rw [mem_level, Finset.mem_singleton, List.mem_singleton]
      exact and_iff_left rfl
    rw [hlevel, Finset.card_singleton]
  · intro p hp
    rw [List.mem_singleton] at hp
    rw [hp, hnamed]
    exact hcap
  · -- the root is the whole of the tree, and nobody reads it yet
    intro d
    have hempty : level [plan.publication] (fun _ => 0) (d + 1) = ∅ := by
      ext p
      rw [mem_level]
      constructor
      · intro hp
        exact absurd hp.2 (by omega)
      · intro hp
        cases hp
    rw [hempty, Finset.card_empty, Finset.sum_eq_zero]
    · rfl
    · intro p hp
      have hmem := (mem_level.mp hp).1
      rw [List.mem_singleton] at hmem
      rw [hmem, hnamed]

/-- **A reader behind a peer grows the tree** by one, one level under it. -/
theorem peer_grown (h : PutGetBurst D live topology origin readers s₀)
    (hg : Gathered D live [origin] made s) (ht : Grown D readers made s depth) {x : ν}
    (hx : x ∈ readers) (hnew : x ∉ made.map Publication.volume) {plan : ReadPlan ν}
    {q : Publication ν} (hf : Followed D live [origin] made s s' x plan q) (hq : q ∈ made)
    (hdepth : depth q ≤ 5) (hroom : s.fanout.named q.volume < D.fanoutCap) :
    Grown D readers (made ++ [plan.publication]) s'
      (Function.update depth plan.publication (depth q + 1)) := by
  -- the peer is another reader, since `x` had published nothing
  have hvol : q.volume ≠ x := fun heq =>
    hnew (heq ▸ List.mem_map_of_mem (f := Publication.volume) hq)
  have hold : ∀ p ∈ made, Function.update depth plan.publication (depth q + 1) p = depth p := by
    intro p hp
    have hne : p ≠ plan.publication := fun heq => hf.fresh (heq ▸ hp)
    exact Function.update_of_ne hne _ _
  have hself : Function.update depth plan.publication (depth q + 1) plan.publication
      = depth q + 1 := Function.update_self ..
  have hxorigin : x ∉ [origin] := by
    rw [List.mem_singleton]
    intro heq
    exact (List.nodup_cons.mp h.distinct).1 (heq ▸ hx)
  have hxnamed := hf.named_own hg hnew hxorigin
  have hlevel := level_append hf.fresh depth (depth q + 1)
  have hnotin : ∀ d, plan.publication ∉ level made depth d := by
    intro d hin
    exact hf.fresh (mem_level.mp hin).1
  have hparent : ∀ d, q ∈ level made depth d ↔ d = depth q := by
    intro d
    rw [mem_level]
    constructor
    · intro hin
      exact hin.2.symm
    · intro hd
      exact ⟨hq, hd.symm⟩
  -- one more copy is named, at the level of the parent
  have hsum : ∀ d, ∑ p ∈ level made depth d, s'.fanout.named p.volume
      = (∑ p ∈ level made depth d, s.fanout.named p.volume) + if d = depth q then 1 else 0 := by
    intro d
    rw [hf.sum_level hg]
    simp only [hparent]
  constructor
  case readers =>
    intro p hp
    rcases List.mem_append.mp hp with hp | hp
    · exact ht.readers p hp
    · rw [List.mem_singleton] at hp
      rw [hp, hf.own]
      exact hx
  case arrival =>
    intro p hp
    rcases List.mem_append.mp hp with hp | hp
    · rw [hf.others p hp, hold p hp]
      exact ht.arrival p hp
    · rw [List.mem_singleton] at hp
      -- it waits for its parent to land, and then for one copy
      obtain ⟨wait, hwait, harr⟩ := hf.arrival
      rw [if_neg (hg.pub_ne_zero hq), ht.arrival q hq, Option.some.injEq] at hwait
      rw [hp, hself, harr, h.near (ht.readers q hq) hx hvol, ← hwait]
      push_cast
      congr 1
      ring
  case shallow =>
    intro p hp
    rcases List.mem_append.mp hp with hp | hp
    · rw [hold p hp]
      exact ht.shallow p hp
    · rw [List.mem_singleton] at hp
      rw [hp, hself]
      omega
  case root =>
    rw [hlevel, if_neg (by omega)]
    exact ht.root
  case room =>
    intro p hp
    rcases List.mem_append.mp hp with hp | hp
    -- only the parent is named once more
    · rw [hf.named]
      have hle := ht.room p hp
      split
      · rename_i heq
        rw [heq]
        omega
      · exact hle
    · rw [List.mem_singleton] at hp
      rw [hp, hxnamed]
      have hnonneg := hg.named_nonneg q.volume
      omega
  case children =>
    intro d
    have hchild := ht.children d
    rw [hlevel (d + 1), hlevel d]
    by_cases hd : d = depth q
    · -- the new reader is a child of the level of its parent
      have hd' : ¬ d = depth q + 1 := by omega
      rw [if_pos (by omega), if_neg hd', Finset.card_insert_of_notMem (hnotin _), hsum, if_pos hd]
      push_cast
      omega
    · rw [if_neg (by omega)]
      by_cases hd' : d = depth q + 1
      · rw [if_pos hd', Finset.sum_insert (hnotin _), hxnamed, hsum, if_neg hd]
        omega
      · rw [if_neg hd', hsum, if_neg hd]
        omega

/-- **The burst so far**: nobody reads the origin before the first reader, one
reader does while the tree grows, and at least two once it outgrew its levels. -/
structure Rooted (D : Dedup δ ρ ν) (origin : ν) (readers : List ν)
    (made : List (Publication ν)) (s : State δ ν) : Prop where
  none : made = [] → s.fanout.named origin = 0
  one : made ≠ [] → made.length ≤ oneHopReaders D.fanoutCap.toNat →
    s.fanout.named origin = 1 ∧ ∃ depth, Grown D readers made s depth
  more : oneHopReaders D.fanoutCap.toNat < made.length → 2 ≤ s.fanout.named origin

/-- **Every decision keeps it.** -/
theorem rooted_step (h : PutGetBurst D live topology origin readers s₀) (hcap : 1 ≤ D.fanoutCap)
    {x : ν} (hx : x ∈ readers) (hg : Gathered D live [origin] made s)
    (hr : Rooted D origin readers made s) (hnew : x ∉ made.map Publication.volume)
    {plan : ReadPlan ν} {q : Publication ν}
    (hf : Followed D live [origin] made s s' x plan q) :
    Rooted D origin readers (made ++ [plan.publication]) s' := by
  have hnat : D.fanoutCap = D.fanoutCap.toNat := by omega
  have hone : 1 ≤ oneHopReaders D.fanoutCap.toNat := by
    unfold oneHopReaders
    rw [Finset.sum_range_succ']
    simp
  have hsize : (made ++ [plan.publication]).length = made.length + 1 := by simp
  have hsome : made ++ [plan.publication] ≠ [] := by simp
  have hxorigin : x ∉ [origin] := by
    rw [List.mem_singleton]
    intro heq
    exact (List.nodup_cons.mp h.distinct).1 (heq ▸ hx)
  cases hmade : made with
  | nil =>
      -- the root
      subst hmade
      obtain ⟨hq, ht⟩ := h.first_grown hx (by omega)
        (hg.idle x List.not_mem_nil hxorigin) hf
      have hnamed := hf.named origin
      rw [hq, if_pos rfl, hr.none rfl] at hnamed
      refine ⟨fun hnil => absurd hnil hsome, fun _ _ => ⟨hnamed, _, ht⟩, ?_⟩
      intro hlt
      rw [hsize, List.length_nil] at hlt
      omega
  | cons first others =>
      rw [← hmade]
      have hne : made ≠ [] := by
        rw [hmade]
        exact List.cons_ne_nil _ _
      refine ⟨fun hnil => absurd hnil hsome, ?_, ?_⟩
      · -- room is left, so the reader goes behind a peer
        intro _ hle
        obtain ⟨hnamed, depth, ht⟩ := hr.one hne (by omega)
        have hroom := ht.room_left (List.Nodup.of_map _ hg.distinct) hnat (by omega)
        obtain ⟨hq, hdepth, hqroom⟩ := h.behind_peer hg ht hx hnew hf.leads hroom
        have hqorigin : origin ≠ q.volume := by
          intro heq
          exact hg.apart q hq (List.mem_singleton.mpr heq.symm)
        refine ⟨?_, _, h.peer_grown hg ht hx hnew hf hq hdepth hqroom⟩
        rw [hf.named, if_neg hqorigin]
        exact hnamed
      · intro hlt
        have hstep := hf.named origin
        by_cases hfull : made.length = oneHopReaders D.fanoutCap.toNat
        · -- the levels are full, so the reader reads the origin
          obtain ⟨hnamed, depth, ht⟩ := hr.one hne (by omega)
          have hq := h.at_origin hg ht hx hnew hf.leads fun p hp hd =>
            ht.levels_full (List.Nodup.of_map _ hg.distinct) hnat (by omega) hp hd
          rw [hq, if_pos rfl] at hstep
          omega
        · have htwo := hr.more (by omega)
          split at hstep <;> omega

/-- **The run of a chained burst**: one reader of the origin up to the bound, two
or more past it. -/
theorem run (h : PutGetBurst D live topology origin readers s₀) (hcap : 1 ≤ D.fanoutCap)
    (hne : readers ≠ []) (requests : List ρ) :
    ∃ s' plans, D.burst requests readers s₀ = .ok (s', plans) ∧
      (readers.length ≤ oneHopReaders D.fanoutCap.toNat → OneFabricHop origin plans) ∧
      (oneHopReaders D.fanoutCap.toNat < readers.length →
        2 ≤ plans.countP (fun plan => plan.head = some origin)) := by
  obtain ⟨horigin, hnd⟩ := List.nodup_cons.mp h.distinct
  have hg : Gathered D live [origin] [] s₀ := by
    rw [← h.held]
    exact .init h.fresh
  have hzero : s₀.fanout.named origin = 0 := by
    rw [h.fresh.fanout]
    rfl
  have hstart : Rooted D origin readers [] s₀ :=
    ⟨fun _ => hzero, fun hnil => absurd rfl hnil, fun hlt => absurd hlt (Nat.not_lt_zero _)⟩
  obtain ⟨s', plans, hburst, hvols, hr, hnamed, hbehind⟩ := hg.run h.documented h.wholeKey
    (List.cons_ne_nil _ _) requests (A := fun x => x ∈ readers)
    (P := Rooted D origin readers)
    (fun hok hg hr hnew hf => h.rooted_step hcap hok hg hr hnew hf) readers hstart hnd (by
      intro x hx
      refine ⟨hx, List.not_mem_nil, ?_⟩
      rw [List.mem_singleton]
      intro heq
      exact horigin (heq ▸ hx))
  have hlen : ([] ++ plans.map ReadPlan.publication).length = readers.length := by
    rw [← hvols]
    simp
  have hcount := hnamed origin
  rw [hzero, zero_add] at hcount
  refine ⟨s', plans, hburst, ?_, ?_⟩
  · intro hle
    have hsome : [] ++ plans.map ReadPlan.publication ≠ [] := by
      intro hnil
      rw [hnil] at hlen
      exact hne (List.length_eq_zero_iff.mp hlen.symm)
    obtain ⟨hone, _⟩ := hr.one hsome (by rw [hlen]; exact hle)
    refine ⟨by omega, ?_⟩
    intro before plan after hsplit
    obtain ⟨v, hv, hmem⟩ := hbehind before plan after hsplit
    rcases List.mem_append.mp hmem with hmem | hmem
    · rw [List.map_nil, List.append_nil, List.mem_singleton] at hmem
      exact .inl (hmem ▸ hv)
    · obtain ⟨earlier, hin, rfl⟩ := List.mem_map.mp hmem
      exact .inr ⟨earlier, hin, hv⟩
  · intro hlt
    have hmore := hr.more (by rw [hlen]; exact hlt)
    omega

end PutGetBurst

/-- **A chained burst costs one fabric hop exactly up to seven full levels.** -/
theorem one_hop_iff {D : Dedup δ ρ ν} {live : δ → List ν} {topology : ν → Endpoint}
    {origin : ν} {readers : List ν} {s : State δ ν}
    (h : PutGetBurst D live topology origin readers s) (hcap : 2 ≤ D.fanoutCap)
    (hne : readers ≠ []) (requests : List ρ) :
    ∃ s' plans, D.burst requests readers s = .ok (s', plans) ∧
      (OneFabricHop origin plans ↔ readers.length ≤ oneHopReaders D.fanoutCap.toNat) := by
  obtain ⟨s', plans, hburst, hwithin, hbeyond⟩ := h.run (by omega) hne requests
  refine ⟨s', plans, hburst, ?_, hwithin⟩
  intro hhop
  by_contra hlt
  have htwo := hbeyond (Nat.lt_of_not_le hlt)
  have hone := hhop.1
  omega

/-! ## §4. Bursts on one node. -/

/-- Volume `0` on node `P`, every other on node `R`; hosts named by length. -/
def putGetTopology (v : ℕ) : Endpoint where
  id := String.ofList (List.replicate v 'r')
  host := String.ofList (List.replicate v 'h')
  node := if v = 0 then "P" else "R"

/-- The chained plane over one key of that topology. -/
def putGet (fanoutCap : ℤ) : Dedup (KeyDirectory ℕ) Unit ℕ where
  controller := keyController ℕ
  readTime a b n := readTime (putGetTopology a) (putGetTopology b) n defaultProfile
  fanoutCap := fanoutCap
  spread := false

theorem named_by_length {a b : ℕ} {c : Char} (h : a ≠ b) :
    String.ofList (List.replicate a c) ≠ String.ofList (List.replicate b c) := by
  intro heq
  have hlen := congrArg List.length (String.ofList_injective heq)
  rw [List.length_replicate, List.length_replicate] at hlen
  exact h hlen

/-- Any distinct readers but volume `0` are such a burst. -/
theorem putGet_burst (fanoutCap : ℤ) (readers : List ℕ) (hnd : (0 :: readers).Nodup) :
    PutGetBurst (putGet fanoutCap) KeyDirectory.live putGetTopology 0 readers
      (atOrigin fanoutCap) where
  documented := keyController_documented ℕ
  wholeKey := keyController_wholeKey ℕ
  chained := rfl
  environment _ _ _ := rfl
  distinct := hnd
  ids _ _ _ _ hne := named_by_length hne
  hosts _ _ _ _ hne := named_by_length hne
  node a ha b hb := by
    have hzero := (List.nodup_cons.mp hnd).1
    have ha0 : a ≠ 0 := fun heq => hzero (heq ▸ ha)
    have hb0 : b ≠ 0 := fun heq => hzero (heq ▸ hb)
    simp [putGetTopology, ha0, hb0]
  away a ha := by
    have ha0 : a ≠ 0 := fun heq => (List.nodup_cons.mp hnd).1 (heq ▸ ha)
    simp [putGetTopology, ha0]
  fresh := ⟨(fun _ hp => List.not_mem_nil hp), rfl, rfl, rfl, rfl⟩
  held := rfl

/-- Three readers under a cap of two cost one hop. -/
theorem one_hop_of_three :
    ∃ s' plans, (putGet 2).burst [()] [1, 2, 3] (atOrigin 2) = .ok (s', plans) ∧
      OneFabricHop 0 plans := by
  obtain ⟨s', plans, hburst, hiff⟩ := one_hop_iff (putGet_burst 2 [1, 2, 3] (by decide))
    (le_refl 2) (by decide) [()]
  exact ⟨s', plans, hburst, hiff.mpr (by decide)⟩

/-- **The second hop**: under a cap of two, seven full levels are 127 readers, and
the next one is routed to the origin again. -/
theorem second_hop :
    ¬ ∀ (D : Dedup (KeyDirectory ℕ) Unit ℕ) (live : KeyDirectory ℕ → List ℕ)
        (topology : ℕ → Endpoint) (origin : ℕ) (readers : List ℕ)
        (s : State (KeyDirectory ℕ) ℕ),
        PutGetBurst D live topology origin readers s → 2 ≤ D.fanoutCap → readers ≠ [] →
        ∀ requests, ∃ s' plans, D.burst requests readers s = .ok (s', plans) ∧
          OneFabricHop origin plans := by
  intro hall
  have hnd : (0 :: List.range' 1 128).Nodup := by
    rw [List.nodup_cons]
    exact ⟨by simp, List.nodup_range'⟩
  have hburst := putGet_burst 2 _ hnd
  have hne : List.range' 1 128 ≠ [] := by simp
  obtain ⟨s, plans, hrun, hhop⟩ := hall _ _ _ _ _ _ hburst (le_refl 2) hne [()]
  obtain ⟨t, others, hrun', _, hbeyond⟩ := hburst.run (by decide) hne [()]
  have htwo := hbeyond (by
    have hbound : oneHopReaders (putGet 2).fanoutCap.toNat = 127 := by decide
    rw [hbound, List.length_range']
    omega)
  rw [hrun] at hrun'
  cases hrun'
  have hcount := hhop.1
  omega

end Toso.DedupSim
