/-
  Toso.DedupSim.Spread — how many trainer reads a spread burst costs.

  Several trainers hold a key on one node; the generators sit on distinct hosts
  of another, and each volume serves one reader at a time.  A spread charges a
  trainer its queue instead of its fabric.  An idle trainer beats everything;
  once all are busy an idle generator that reads from a trainer beats a second
  read of one; a generator behind a generator does not.

  Main results:
    * `WeightSync.run`, `one_read_iff` — every trainer is read once, and everybody
      else is behind a peer, exactly up to two generators a trainer.
    * `second_read` — with one trainer, the third generator reads it again.
-/
import Toso.DedupSim.OneHop

namespace Toso.DedupSim

open Lib Toso.Proposed Toso.SimCommon

variable {δ ρ ν : Type*} [LinearOrder ν]

/-! ## §1. The weight-sync burst. -/

/-- **The weight-sync burst**: a spread with a cap of one on the default profile,
the trainers that hold the key on one node and the generators on another, each
volume on a host of its own. -/
structure WeightSync (D : Dedup δ ρ ν) (live : δ → List ν) (topology : ν → Endpoint)
    (trainers generators : List ν) (s : State δ ν) : Prop where
  documented : D.controller.Documented
  wholeKey : D.controller.WholeKey live
  spreading : D.spread = true
  capOne : D.fanoutCap = 1
  environment : ∀ a b n, D.readTime a b n = readTime (topology a) (topology b) n defaultProfile
  distinct : (trainers ++ generators).Nodup
  ids : ∀ a ∈ trainers ++ generators, ∀ b ∈ trainers ++ generators, a ≠ b →
    (topology a).id ≠ (topology b).id
  hosts : ∀ a ∈ trainers ++ generators, ∀ b ∈ trainers ++ generators, a ≠ b →
    (topology a).host ≠ (topology b).host
  trainerNode : ∀ a ∈ trainers, ∀ b ∈ trainers, (topology a).node = (topology b).node
  generatorNode : ∀ a ∈ generators, ∀ b ∈ generators, (topology a).node = (topology b).node
  away : ∀ a ∈ trainers, ∀ b ∈ generators, (topology a).node ≠ (topology b).node
  fresh : D.Fresh s
  held : live s.sensor.directory = trainers

/-- **One trainer read a replica and no more**: no trainer is read first by two
generators, all are once there are generators enough, and every other generator
is behind one before it. -/
def OneReadPerReplica (trainers : List ν) (plans : List (ReadPlan ν)) : Prop :=
  (∀ t ∈ trainers, plans.countP (fun plan => plan.head = some t) ≤ 1) ∧
    (trainers.length ≤ plans.length → ∀ t ∈ trainers, ∃ plan ∈ plans, plan.head = some t) ∧
    ∀ before plan after, plans = before ++ plan :: after →
      (∃ t ∈ trainers, plan.head = some t) ∨
        ∃ earlier ∈ before, plan.head = some earlier.publication.volume

/-- **The two layers of a spread burst**: the generators that read from a trainer
and those behind one of these; the second is begun once every trainer is read. -/
structure Layered (trainers generators : List ν) (made : List (Publication ν))
    (s : State δ ν) (depth : Publication ν → ℕ) : Prop where
  generators : ∀ q ∈ made, q.volume ∈ generators
  arrival : ∀ q ∈ made, s.fanout.arrival q = some (farHop + depth q * nearHop)
  shallow : ∀ q ∈ made, depth q < 2
  trainerRoom : ∀ t ∈ trainers, s.fanout.named t ≤ 1
  room : ∀ q ∈ made, s.fanout.named q.volume ≤ 1
  roots : ((level made depth 0).card : ℤ) = ∑ t ∈ trainers.toFinset, s.fanout.named t
  leaves : ((level made depth 1).card : ℤ) = ∑ q ∈ level made depth 0, s.fanout.named q.volume
  rootsFirst : (level made depth 1).card ≠ 0 → (level made depth 0).card = trainers.length

/-- What is at most one on each of a set and does not sum to its size misses one. -/
theorem exists_idle {α : Type*} (s : Finset α) (f : α → ℤ)
    (hsum : ∑ a ∈ s, f a < s.card) : ∃ a ∈ s, f a < 1 := by
  by_contra hnone
  have hle : s.card • (1 : ℤ) ≤ ∑ a ∈ s, f a := by
    apply Finset.card_nsmul_le_sum
    intro a ha
    by_contra hlt
    exact hnone ⟨a, ha, by omega⟩
  rw [nsmul_eq_mul, mul_one] at hle
  omega

/-- What is at most one on each of a set and sums to its size is one on each. -/
theorem all_busy {α : Type*} (s : Finset α) (f : α → ℤ) (hle : ∀ a ∈ s, f a ≤ 1)
    (hsum : ∑ a ∈ s, f a = s.card) : ∀ a ∈ s, f a = 1 := by
  have hconst : ∑ a ∈ s, f a = ∑ _a ∈ s, (1 : ℤ) := by
    rw [hsum, Finset.sum_const, nsmul_eq_mul, mul_one]
  exact (Finset.sum_eq_sum_iff_of_le hle).mp hconst

namespace WeightSync

variable {D : Dedup δ ρ ν} {live : δ → List ν} {topology : ν → Endpoint}
  {trainers generators : List ν} {s₀ s s' : State δ ν} {made : List (Publication ν)}
  {depth : Publication ν → ℕ}

/-! ## §2. What sources weigh. -/

omit [LinearOrder ν] in
theorem apart (h : WeightSync D live topology trainers generators s₀) {t x : ν}
    (ht : t ∈ trainers) (hx : x ∈ generators) : t ≠ x :=
  fun heq => (List.nodup_append.mp h.distinct).2.2 t ht x hx heq

omit [LinearOrder ν] in
theorem far (h : WeightSync D live topology trainers generators s₀) {t x : ν}
    (ht : t ∈ trainers) (hx : x ∈ generators) : D.readTime t x 1 = farHop := by
  rw [h.environment]
  exact readTime_far
    (h.ids _ (List.mem_append_left _ ht) _ (List.mem_append_right _ hx) (h.apart ht hx))
    (h.hosts _ (List.mem_append_left _ ht) _ (List.mem_append_right _ hx) (h.apart ht hx))
    (h.away t ht x hx)

omit [LinearOrder ν] in
theorem near (h : WeightSync D live topology trainers generators s₀) {x y : ν}
    (hx : x ∈ generators) (hy : y ∈ generators) (hne : x ≠ y) :
    D.readTime x y 1 = nearHop := by
  rw [h.environment]
  exact readTime_near
    (h.ids _ (List.mem_append_right _ hx) _ (List.mem_append_right _ hy) hne)
    (h.hosts _ (List.mem_append_right _ hx) _ (List.mem_append_right _ hy) hne)
    (h.generatorNode x hx y hy)

/-- A trainer weighs its hop behind everybody queued. -/
theorem weight_trainer (h : WeightSync D live topology trainers generators s₀) {t x : ν}
    (ht : t ∈ trainers) (hx : x ∈ generators) (fanout : FanoutSensor ν) :
    D.weight fanout x ⟨0, t⟩ = farHop * (1 + (fanout.named t : ℚ)) := by
  unfold Dedup.weight
  rw [h.spreading, score_live D fanout (h.apart ht hx), h.far ht hx, Dedup.fabric, h.spreading]
  show (farHop + spreadFabric * farHop) * _ = _
  unfold spreadFabric
  ring

/-- An idle generator weighs the branch above it and one near hop. -/
theorem weight_peer (h : WeightSync D live topology trainers generators s₀)
    (hg : Gathered D live trainers made s) (hl : Layered trainers generators made s depth)
    {x : ν} (hx : x ∈ generators) {q : Publication ν} (hq : q ∈ made) (hne : q.volume ≠ x)
    (hadm : D.Admits s.fanout x q = true) :
    s.fanout.named q.volume = 0 ∧
      D.weight s.fanout x q = farHop + (depth q + 1) * nearHop := by
  have hroom := (hg.admits_made hq hne).mp hadm
  have hnonneg := hg.named_nonneg q.volume
  have hcap := h.capOne
  have hidle : s.fanout.named q.volume = 0 := by omega
  refine ⟨hidle, ?_⟩
  unfold Dedup.weight
  rw [h.spreading, hg.score_made hq hne hroom (hl.arrival q hq), h.near (hl.generators q hq) hx hne,
    Dedup.fabric, h.spreading, hidle]
  show (farHop + depth q * nearHop + nearHop + spreadFabric * nearHop) * (1 + ((0 : ℤ) : ℚ)) = _
  unfold spreadFabric
  push_cast
  ring

/-! ## §3. One generator more. -/

/-- The source that leads is a trainer, or an idle generator. -/
theorem lead_cases (h : WeightSync D live topology trainers generators s₀)
    (hg : Gathered D live trainers made s) (hl : Layered trainers generators made s depth)
    {x : ν} (hx : x ∈ generators) (hnew : x ∉ made.map Publication.volume)
    {q : Publication ν} (hlead : Leads D trainers made s.fanout x q) :
    (∃ t ∈ trainers, q = ⟨0, t⟩ ∧
      D.weight s.fanout x q = farHop * (1 + (s.fanout.named t : ℚ))) ∨
    (q ∈ made ∧ s.fanout.named q.volume = 0 ∧
      D.weight s.fanout x q = farHop + (depth q + 1) * nearHop) := by
  rcases hlead.offered with ⟨hpub, hlive⟩ | hq
  · left
    refine ⟨q.volume, hlive, ?_, ?_⟩
    · cases q
      cases hpub
      rfl
    · rw [← h.weight_trainer hlive hx s.fanout]
      cases q
      cases hpub
      rfl
  · right
    have hne : q.volume ≠ x := fun heq =>
      hnew (heq ▸ List.mem_map_of_mem (f := Publication.volume) hq)
    obtain ⟨hidle, hweight⟩ := h.weight_peer hg hl hx hq hne hlead.admits
    exact ⟨hq, hidle, hweight⟩

/-- **While a trainer is idle, an idle trainer leads.** -/
theorem idle_trainer_leads (h : WeightSync D live topology trainers generators s₀)
    (hg : Gathered D live trainers made s) (hl : Layered trainers generators made s depth)
    {x : ν} (hx : x ∈ generators) (hnew : x ∉ made.map Publication.volume)
    {q : Publication ν} (hlead : Leads D trainers made s.fanout x q)
    (hidle : ∃ t ∈ trainers, s.fanout.named t < 1) :
    ∃ t ∈ trainers, q = ⟨0, t⟩ ∧ s.fanout.named t = 0 := by
  obtain ⟨t, ht, htidle⟩ := hidle
  have hle := hlead.least ⟨0, t⟩ (.inl ⟨rfl, ht⟩) (admits_live D s.fanout (h.apart ht hx))
  have hzero : s.fanout.named t = 0 := by
    have hnonneg := hg.named_nonneg t
    omega
  rw [h.weight_trainer ht hx, hzero] at hle
  rcases h.lead_cases hg hl hx hnew hlead with ⟨u, hu, hq, hweight⟩ | ⟨hq, _, hweight⟩
  · refine ⟨u, hu, hq, ?_⟩
    rw [hweight] at hle
    unfold farHop at hle
    have hcast : (s.fanout.named u : ℚ) ≤ 0 := by
      push_cast at hle
      linarith
    have hint : s.fanout.named u ≤ 0 := by exact_mod_cast hcast
    have hnonneg := hg.named_nonneg u
    omega
  · -- a generator adds a near hop to its trainer's
    rw [hweight] at hle
    unfold farHop nearHop at hle
    have hdepth : (0 : ℚ) ≤ depth q := Nat.cast_nonneg _
    push_cast at hle
    exfalso
    linarith

/-- **With all trainers read once and an idle generator under one, such a
generator leads.** -/
theorem idle_root_leads (h : WeightSync D live topology trainers generators s₀)
    (hg : Gathered D live trainers made s) (hl : Layered trainers generators made s depth)
    {x : ν} (hx : x ∈ generators) (hnew : x ∉ made.map Publication.volume)
    {q : Publication ν} (hlead : Leads D trainers made s.fanout x q)
    (hbusy : ∀ t ∈ trainers, s.fanout.named t = 1)
    (hidle : ∃ r ∈ level made depth 0, s.fanout.named r.volume < 1) :
    q ∈ made ∧ depth q = 0 ∧ s.fanout.named q.volume = 0 := by
  obtain ⟨r, hr, hridle⟩ := hidle
  obtain ⟨hrmade, hrdepth⟩ := mem_level.mp hr
  have hrne : r.volume ≠ x := fun heq =>
    hnew (heq ▸ List.mem_map_of_mem (f := Publication.volume) hrmade)
  have hcap := h.capOne
  have hadm := (hg.admits_made hrmade hrne).mpr (by omega)
  have hle := hlead.least r (.inr hrmade) hadm
  rw [(h.weight_peer hg hl hx hrmade hrne hadm).2, hrdepth] at hle
  rcases h.lead_cases hg hl hx hnew hlead with ⟨u, hu, _, hweight⟩ | ⟨hq, hqidle, hweight⟩
  · rw [hweight, hbusy u hu] at hle
    unfold farHop nearHop at hle
    push_cast at hle
    exfalso
    linarith
  · refine ⟨hq, ?_, hqidle⟩
    rw [hweight] at hle
    unfold farHop nearHop at hle
    have hdepth : (depth q : ℚ) ≤ 0 := by
      push_cast at hle
      linarith
    have hnat : depth q ≤ 0 := by exact_mod_cast hdepth
    omega

/-- **With all trainers and all generators under them read once, a trainer leads
again.** -/
theorem busy_trainer_leads (h : WeightSync D live topology trainers generators s₀)
    (hg : Gathered D live trainers made s) (hl : Layered trainers generators made s depth)
    (hne : trainers ≠ []) {x : ν} (hx : x ∈ generators)
    (hnew : x ∉ made.map Publication.volume) {q : Publication ν}
    (hlead : Leads D trainers made s.fanout x q)
    (hbusy : ∀ t ∈ trainers, s.fanout.named t = 1)
    (hroots : ∀ r ∈ level made depth 0, s.fanout.named r.volume = 1) :
    ∃ t ∈ trainers, q = ⟨0, t⟩ := by
  obtain ⟨t, ht⟩ := List.exists_mem_of_ne_nil trainers hne
  have hle := hlead.least ⟨0, t⟩ (.inl ⟨rfl, ht⟩) (admits_live D s.fanout (h.apart ht hx))
  rw [h.weight_trainer ht hx, hbusy t ht] at hle
  rcases h.lead_cases hg hl hx hnew hlead with ⟨u, hu, hq, _⟩ | ⟨hq, hqidle, hweight⟩
  · exact ⟨u, hu, hq⟩
  · -- an idle generator is a leaf, two near hops after its trainer's
    have hleaf : 1 ≤ depth q := by
      by_contra hlt
      have hroot := hroots q (mem_level.mpr ⟨hq, by omega⟩)
      omega
    have hdepth : (1 : ℚ) ≤ depth q := by exact_mod_cast hleaf
    rw [hweight] at hle
    unfold farHop nearHop at hle
    push_cast at hle
    exfalso
    linarith

/-- **A generator at an idle trainer** joins the first layer. -/
theorem root_layered (h : WeightSync D live topology trainers generators s₀)
    (hg : Gathered D live trainers made s) (hl : Layered trainers generators made s depth)
    {x : ν} (hx : x ∈ generators) (hnew : x ∉ made.map Publication.volume)
    {plan : ReadPlan ν} {t : ν} (ht : t ∈ trainers)
    (hf : Followed D live trainers made s s' x plan ⟨0, t⟩) (hidle : s.fanout.named t = 0)
    (hleaves : (level made depth 1).card = 0) :
    Layered trainers generators (made ++ [plan.publication]) s'
      (Function.update depth plan.publication 0) := by
  have hxtrainer : x ∉ trainers := fun hmem => h.apart hmem hx rfl
  have hown := hf.named_own hg hnew hxtrainer
  have hlevel := level_append hf.fresh depth 0
  have hnotin : plan.publication ∉ level made depth 0 := fun hin =>
    hf.fresh (mem_level.mp hin).1
  have hnotmade : ∀ q ∈ made, q.volume ≠ t := fun q hq heq => hg.apart q hq (heq ▸ ht)
  have hsum := hf.sum_level hg depth 0
  rw [if_neg (fun hin => hnotmade _ (mem_level.mp hin).1 rfl), add_zero] at hsum
  constructor
  case generators =>
    intro q hq
    rcases List.mem_append.mp hq with hq | hq
    · exact hl.generators q hq
    · rw [List.mem_singleton] at hq
      rw [hq, hf.own]
      exact hx
  case arrival =>
    intro q hq
    rcases List.mem_append.mp hq with hq | hq
    · have hne : q ≠ plan.publication := fun heq => hf.fresh (heq ▸ hq)
      rw [hf.others q hq, Function.update_of_ne hne]
      exact hl.arrival q hq
    · rw [List.mem_singleton] at hq
      obtain ⟨wait, hwait, harr⟩ := hf.arrival
      rw [if_pos rfl, Option.some.injEq] at hwait
      rw [hq, Function.update_self, harr, h.far ht hx, ← hwait]
      norm_num
  case shallow =>
    intro q hq
    rcases List.mem_append.mp hq with hq | hq
    · have hne : q ≠ plan.publication := fun heq => hf.fresh (heq ▸ hq)
      rw [Function.update_of_ne hne]
      exact hl.shallow q hq
    · rw [List.mem_singleton] at hq
      rw [hq, Function.update_self]
      omega
  case trainerRoom =>
    intro u hu
    rw [hf.named]
    by_cases hut : u = t
    · rw [if_pos hut, hut, hidle]
      omega
    · rw [if_neg hut]
      exact hl.trainerRoom u hu
  case room =>
    intro q hq
    rcases List.mem_append.mp hq with hq | hq
    · rw [hf.named, if_neg (hnotmade q hq)]
      exact hl.room q hq
    · rw [List.mem_singleton] at hq
      rw [hq, hown]
      omega
  case roots =>
    -- one root more, and one more counted on the trainers
    have hterm : ∀ u ∈ trainers.toFinset, s'.fanout.named u
        = s.fanout.named u + if u = t then 1 else 0 := by
      intro u _
      rw [hf.named]
      split <;> omega
    rw [hlevel, if_pos rfl, Finset.card_insert_of_notMem hnotin, Finset.sum_congr rfl hterm,
      Finset.sum_add_distrib, Finset.sum_ite_eq', if_pos (List.mem_toFinset.mpr ht), ← hl.roots]
    push_cast
    rfl
  case leaves =>
    rw [hlevel, hlevel, if_neg (by omega), if_pos rfl, Finset.sum_insert hnotin, hown, hsum,
      zero_add]
    exact hl.leaves
  case rootsFirst =>
    intro hsome
    rw [hlevel, if_neg (by omega)] at hsome
    exact absurd hleaves hsome

/-- **A generator at an idle one of the first layer** joins the second. -/
theorem leaf_layered (h : WeightSync D live topology trainers generators s₀)
    (hg : Gathered D live trainers made s) (hl : Layered trainers generators made s depth)
    {x : ν} (hx : x ∈ generators) (hnew : x ∉ made.map Publication.volume)
    {plan : ReadPlan ν} {q : Publication ν} (hf : Followed D live trainers made s s' x plan q)
    (hq : q ∈ made) (hroot : depth q = 0) (hidle : s.fanout.named q.volume = 0)
    (hroots : (level made depth 0).card = trainers.length) :
    Layered trainers generators (made ++ [plan.publication]) s'
      (Function.update depth plan.publication 1) := by
  have hxtrainer : x ∉ trainers := fun hmem => h.apart hmem hx rfl
  have hown := hf.named_own hg hnew hxtrainer
  have hlevel := level_append hf.fresh depth 1
  have hnotin : plan.publication ∉ level made depth 1 := fun hin =>
    hf.fresh (mem_level.mp hin).1
  have hqne : q.volume ≠ x := fun heq =>
    hnew (heq ▸ List.mem_map_of_mem (f := Publication.volume) hq)
  have hnottrainer : ∀ t ∈ trainers, t ≠ q.volume := fun t ht heq =>
    hg.apart q hq (heq ▸ ht)
  have hsum := hf.sum_level hg depth 0
  rw [if_pos (mem_level.mpr ⟨hq, hroot⟩)] at hsum
  constructor
  case generators =>
    intro p hp
    rcases List.mem_append.mp hp with hp | hp
    · exact hl.generators p hp
    · rw [List.mem_singleton] at hp
      rw [hp, hf.own]
      exact hx
  case arrival =>
    intro p hp
    rcases List.mem_append.mp hp with hp | hp
    · have hne : p ≠ plan.publication := fun heq => hf.fresh (heq ▸ hp)
      rw [hf.others p hp, Function.update_of_ne hne]
      exact hl.arrival p hp
    · rw [List.mem_singleton] at hp
      obtain ⟨wait, hwait, harr⟩ := hf.arrival
      rw [if_neg (hg.pub_ne_zero hq), hl.arrival q hq, Option.some.injEq, hroot] at hwait
      rw [hp, Function.update_self, harr, h.near (hl.generators q hq) hx hqne, ← hwait]
      norm_num
  case shallow =>
    intro p hp
    rcases List.mem_append.mp hp with hp | hp
    · have hne : p ≠ plan.publication := fun heq => hf.fresh (heq ▸ hp)
      rw [Function.update_of_ne hne]
      exact hl.shallow p hp
    · rw [List.mem_singleton] at hp
      rw [hp, Function.update_self]
      omega
  case trainerRoom =>
    intro t ht
    rw [hf.named, if_neg (hnottrainer t ht)]
    exact hl.trainerRoom t ht
  case room =>
    intro p hp
    rcases List.mem_append.mp hp with hp | hp
    · rw [hf.named]
      by_cases hpq : p.volume = q.volume
      · rw [if_pos hpq, hpq, hidle]
        omega
      · rw [if_neg hpq]
        exact hl.room p hp
    · rw [List.mem_singleton] at hp
      rw [hp, hown]
      omega
  case roots =>
    have hterm : ∀ t ∈ trainers.toFinset, s'.fanout.named t = s.fanout.named t := by
      intro t ht
      rw [hf.named, if_neg (hnottrainer t (List.mem_toFinset.mp ht))]
    rw [hlevel, if_neg (by omega), Finset.sum_congr rfl hterm]
    exact hl.roots
  case leaves =>
    -- one leaf more, and one more counted on the roots
    rw [hlevel, hlevel, if_pos rfl, if_neg (by omega), Finset.card_insert_of_notMem hnotin, hsum,
      ← hl.leaves]
    push_cast
    rfl
  case rootsFirst =>
    intro _
    rw [hlevel, if_neg (by omega)]
    exact hroots

/-! ## §4. The whole burst. -/

/-- The sizes of the two layers: no more roots than trainers, no more leaves than
roots. -/
theorem layer_sizes (h : WeightSync D live topology trainers generators s₀)
    (hg : Gathered D live trainers made s) (hl : Layered trainers generators made s depth) :
    trainers.toFinset.card = trainers.length ∧
      made.length = (level made depth 0).card + (level made depth 1).card ∧
      (level made depth 0).card ≤ trainers.length ∧
      (level made depth 1).card ≤ (level made depth 0).card := by
  have hcard := List.toFinset_card_of_nodup (List.nodup_append.mp h.distinct).1
  have hsize := length_eq_levels (List.Nodup.of_map _ hg.distinct) hl.shallow
  have hroots : ∑ t ∈ trainers.toFinset, s.fanout.named t ≤ trainers.toFinset.card • (1 : ℤ) :=
    Finset.sum_le_card_nsmul _ _ _ fun t ht => hl.trainerRoom t (List.mem_toFinset.mp ht)
  have hleaves : ∑ q ∈ level made depth 0, s.fanout.named q.volume
      ≤ (level made depth 0).card • (1 : ℤ) :=
    Finset.sum_le_card_nsmul _ _ _ fun q hq => hl.room q (mem_level.mp hq).1
  rw [nsmul_eq_mul, mul_one, ← hl.roots, hcard] at hroots
  rw [nsmul_eq_mul, mul_one, ← hl.leaves] at hleaves
  rw [Finset.sum_range_succ, Finset.sum_range_one] at hsize
  refine ⟨hcard, hsize, by omega, by omega⟩

/-- A full first layer has every trainer read once. -/
theorem trainers_busy (h : WeightSync D live topology trainers generators s₀)
    (hl : Layered trainers generators made s depth)
    (hfull : (level made depth 0).card = trainers.length) :
    ∀ t ∈ trainers, s.fanout.named t = 1 := by
  have hcard := List.toFinset_card_of_nodup (List.nodup_append.mp h.distinct).1
  intro t ht
  refine all_busy trainers.toFinset s.fanout.named
    (fun u hu => hl.trainerRoom u (List.mem_toFinset.mp hu)) ?_ t (List.mem_toFinset.mpr ht)
  rw [← hl.roots, hfull, hcard]

/-- **The burst so far**: two layers while they hold it, some trainer read twice
once they do not. -/
structure Spread (trainers generators : List ν) (made : List (Publication ν))
    (s : State δ ν) : Prop where
  layers : made.length ≤ 2 * trainers.length →
    ∃ depth, Layered trainers generators made s depth
  beyond : 2 * trainers.length < made.length → ∃ t ∈ trainers, 2 ≤ s.fanout.named t

/-- **Every decision keeps it.** -/
theorem spread_step (h : WeightSync D live topology trainers generators s₀)
    (hne : trainers ≠ []) {x : ν} (hx : x ∈ generators)
    (hg : Gathered D live trainers made s) (hs : Spread trainers generators made s)
    (hnew : x ∉ made.map Publication.volume) {plan : ReadPlan ν} {q : Publication ν}
    (hf : Followed D live trainers made s s' x plan q) :
    Spread trainers generators (made ++ [plan.publication]) s' := by
  have hsize : (made ++ [plan.publication]).length = made.length + 1 := by simp
  rcases Nat.lt_trichotomy made.length (2 * trainers.length) with hlt | heq | hgt
  · -- room is left in one of the layers
    refine ⟨fun _ => ?_, fun hbeyond => by omega⟩
    obtain ⟨depth, hl⟩ := hs.layers (Nat.le_of_lt hlt)
    obtain ⟨hcard, hlen, hroots, hleaves⟩ := h.layer_sizes hg hl
    by_cases hfull : (level made depth 0).card = trainers.length
    · have hidle := exists_idle (level made depth 0) (fun r => s.fanout.named r.volume)
        (by rw [← hl.leaves]; omega)
      obtain ⟨hq, hroot, hqidle⟩ := h.idle_root_leads hg hl hx hnew hf.leads
        (h.trainers_busy hl hfull) hidle
      exact ⟨_, h.leaf_layered hg hl hx hnew hf hq hroot hqidle hfull⟩
    · obtain ⟨t, ht, htidle⟩ := exists_idle trainers.toFinset s.fanout.named
        (by rw [← hl.roots, hcard]; omega)
      obtain ⟨u, hu, rfl, huidle⟩ := h.idle_trainer_leads hg hl hx hnew hf.leads
        ⟨t, List.mem_toFinset.mp ht, htidle⟩
      have hnone : (level made depth 1).card = 0 := by
        by_contra hsome
        exact hfull (hl.rootsFirst hsome)
      exact ⟨_, h.root_layered hg hl hx hnew hu hf huidle hnone⟩
  · -- both layers are full, so a trainer is read again
    refine ⟨fun hle => by omega, fun _ => ?_⟩
    obtain ⟨depth, hl⟩ := hs.layers (le_of_eq heq)
    obtain ⟨_, hlen, hroots, hleaves⟩ := h.layer_sizes hg hl
    have hfull : (level made depth 0).card = trainers.length := by omega
    have hbusy := h.trainers_busy hl hfull
    have hread := all_busy (level made depth 0) (fun r => s.fanout.named r.volume)
      (fun r hr => hl.room r (mem_level.mp hr).1)
      (by rw [← hl.leaves]; omega)
    obtain ⟨t, ht, rfl⟩ := h.busy_trainer_leads hg hl hne hx hnew hf.leads hbusy hread
    refine ⟨t, ht, ?_⟩
    rw [hf.named, if_pos rfl, hbusy t ht]
    omega
  · refine ⟨fun hle => by omega, fun _ => ?_⟩
    obtain ⟨t, ht, htwo⟩ := hs.beyond hgt
    refine ⟨t, ht, ?_⟩
    rw [hf.named]
    split <;> omega

/-- **The run of a spread burst**: one read a trainer up to two generators each,
and a second read of some trainer past that. -/
theorem run (h : WeightSync D live topology trainers generators s₀) (hne : trainers ≠ [])
    (requests : List ρ) :
    ∃ s' plans, D.burst requests generators s₀ = .ok (s', plans) ∧
      (generators.length ≤ 2 * trainers.length → OneReadPerReplica trainers plans) ∧
      (2 * trainers.length < generators.length →
        ∃ t ∈ trainers, 2 ≤ plans.countP (fun plan => plan.head = some t)) := by
  have hg : Gathered D live trainers [] s₀ := by
    rw [← h.held]
    exact .init h.fresh
  have hzero : ∀ v, s₀.fanout.named v = 0 := by
    intro v
    rw [h.fresh.fanout]
    rfl
  have hstart : Spread trainers generators [] s₀ := by
    refine ⟨fun _ => ⟨fun _ => 0, ?_⟩, fun hlt => absurd hlt (Nat.not_lt_zero _)⟩
    refine ⟨fun q hq => absurd hq List.not_mem_nil, fun q hq => absurd hq List.not_mem_nil,
      fun q hq => absurd hq List.not_mem_nil, ?_, fun q hq => absurd hq List.not_mem_nil,
      ?_, rfl, fun hsome => absurd rfl hsome⟩
    · intro t _
      rw [hzero]
      omega
    · rw [Finset.sum_eq_zero (fun t _ => hzero t)]
      rfl
  obtain ⟨s', plans, hburst, hvols, hs, hnamed, hbehind⟩ := hg.run h.documented h.wholeKey hne
    requests (A := fun x => x ∈ generators) (P := Spread trainers generators)
    (fun hok hg hs hnew hf => h.spread_step hne hok hg hs hnew hf) generators hstart
    (List.nodup_append.mp h.distinct).2.1
    (fun x hx => ⟨hx, List.not_mem_nil, fun ht => h.apart ht hx rfl⟩)
  have hlen : ([] ++ plans.map ReadPlan.publication).length = generators.length := by
    rw [← hvols]
    simp
  have hplans : plans.length = generators.length := by
    rw [← hvols, List.length_map]
  have hcount : ∀ v, s'.fanout.named v = plans.countP (fun plan => plan.head = some v) := by
    intro v
    rw [hnamed, hzero, zero_add]
  refine ⟨s', plans, hburst, ?_, ?_⟩
  · intro hle
    obtain ⟨depth, hl⟩ := hs.layers (by rw [hlen]; exact hle)
    refine ⟨?_, ?_, ?_⟩
    · intro t ht
      have hroom := hl.trainerRoom t ht
      rw [hcount] at hroom
      exact_mod_cast hroom
    · intro henough t ht
      -- as many generators as trainers fill the first layer
      have hfull : (level ([] ++ plans.map ReadPlan.publication) depth 0).card
          = trainers.length := by
        by_cases hnone : (level ([] ++ plans.map ReadPlan.publication) depth 1).card = 0
        · have hsize := length_eq_levels (List.Nodup.of_map Publication.volume (by
            rw [List.nil_append, List.map_map]
            show (plans.map fun plan => plan.publication.volume).Nodup
            rw [hvols]
            exact (List.nodup_append.mp h.distinct).2.1)) hl.shallow
          rw [Finset.sum_range_succ, Finset.sum_range_one, hlen, hnone] at hsize
          have hroots := Finset.sum_le_card_nsmul trainers.toFinset s'.fanout.named 1
            fun u hu => hl.trainerRoom u (List.mem_toFinset.mp hu)
          rw [← hl.roots, nsmul_eq_mul, mul_one,
            List.toFinset_card_of_nodup (List.nodup_append.mp h.distinct).1] at hroots
          omega
        · exact hl.rootsFirst hnone
      have hone := h.trainers_busy hl hfull t ht
      rw [hcount] at hone
      have hpos : 0 < plans.countP (fun plan => plan.head = some t) := by omega
      obtain ⟨plan, hplan, hhead⟩ := List.countP_pos_iff.mp hpos
      exact ⟨plan, hplan, of_decide_eq_true hhead⟩
    · intro before plan after hsplit
      obtain ⟨v, hv, hmem⟩ := hbehind before plan after hsplit
      rcases List.mem_append.mp hmem with hmem | hmem
      · rw [List.map_nil, List.append_nil] at hmem
        exact .inl ⟨v, hmem, hv⟩
      · obtain ⟨earlier, hin, rfl⟩ := List.mem_map.mp hmem
        exact .inr ⟨earlier, hin, hv⟩
  · intro hlt
    obtain ⟨t, ht, htwo⟩ := hs.beyond (by rw [hlen]; exact hlt)
    refine ⟨t, ht, ?_⟩
    rw [hcount] at htwo
    exact_mod_cast htwo

end WeightSync

/-- **A spread burst reads every trainer once and no more exactly up to two
generators a trainer.** -/
theorem one_read_iff {D : Dedup δ ρ ν} {live : δ → List ν} {topology : ν → Endpoint}
    {trainers generators : List ν} {s : State δ ν}
    (h : WeightSync D live topology trainers generators s) (hne : trainers ≠ [])
    (requests : List ρ) :
    ∃ s' plans, D.burst requests generators s = .ok (s', plans) ∧
      (OneReadPerReplica trainers plans ↔ generators.length ≤ 2 * trainers.length) := by
  obtain ⟨s', plans, hburst, hwithin, hbeyond⟩ := h.run hne requests
  refine ⟨s', plans, hburst, ?_, hwithin⟩
  intro hone
  by_contra hlt
  obtain ⟨t, ht, htwo⟩ := hbeyond (Nat.lt_of_not_le hlt)
  have hle := hone.1 t ht
  omega

/-! ## §5. Bursts on two nodes. -/

/-- The first volumes on node `T`, the others on node `G`; hosts named by length. -/
def weightSyncTopology (trainers v : ℕ) : Endpoint where
  id := String.ofList (List.replicate v 'v')
  host := String.ofList (List.replicate v 'h')
  node := if v < trainers then "T" else "G"

/-- The spread plane over one key of that topology. -/
def weightSync (trainers : ℕ) : Dedup (KeyDirectory ℕ) Unit ℕ where
  controller := keyController ℕ
  readTime a b n :=
    readTime (weightSyncTopology trainers a) (weightSyncTopology trainers b) n defaultProfile
  fanoutCap := 1
  spread := true

/-- Nothing decided yet, over the key on every trainer. -/
def atTrainers (trainers : ℕ) : State (KeyDirectory ℕ) ℕ :=
  ⟨⟨⟨List.range trainers, [], 0⟩, Dict.empty⟩, FanoutSensor.new 1, Dispatcher.new, []⟩

/-- The volumes past the trainers are such a burst. -/
theorem weightSync_burst (trainers generators : ℕ) :
    WeightSync (weightSync trainers) KeyDirectory.live (weightSyncTopology trainers)
      (List.range trainers) (List.range' trainers generators) (atTrainers trainers) where
  documented := keyController_documented ℕ
  wholeKey := keyController_wholeKey ℕ
  spreading := rfl
  capOne := rfl
  environment _ _ _ := rfl
  distinct := by
    rw [List.nodup_append]
    refine ⟨List.nodup_range, List.nodup_range', ?_⟩
    intro a ha b hb
    have hlt := List.mem_range.mp ha
    have hle := (List.mem_range'_1.mp hb).1
    omega
  ids _ _ _ _ hne := named_by_length hne
  hosts _ _ _ _ hne := named_by_length hne
  trainerNode a ha b hb := by
    simp [weightSyncTopology, List.mem_range.mp ha, List.mem_range.mp hb]
  generatorNode a ha b hb := by
    have hale := (List.mem_range'_1.mp ha).1
    have hble := (List.mem_range'_1.mp hb).1
    simp [weightSyncTopology, Nat.not_lt.mpr hale, Nat.not_lt.mpr hble]
  away a ha b hb := by
    have hble := (List.mem_range'_1.mp hb).1
    simp [weightSyncTopology, List.mem_range.mp ha, Nat.not_lt.mpr hble]
  fresh := ⟨(fun _ hp => List.not_mem_nil hp), rfl, rfl, rfl, rfl⟩
  held := rfl

/-- Four generators over two trainers read each trainer once. -/
theorem one_read_of_four :
    ∃ s' plans, (weightSync 2).burst [()] (List.range' 2 4) (atTrainers 2) = .ok (s', plans) ∧
      OneReadPerReplica (List.range 2) plans := by
  obtain ⟨s', plans, hburst, hiff⟩ := one_read_iff (weightSync_burst 2 4) (by decide) [()]
  exact ⟨s', plans, hburst, hiff.mpr (by decide)⟩

/-- **The second read**: with one trainer, the third generator reads it again. -/
theorem second_read :
    ¬ ∀ (D : Dedup (KeyDirectory ℕ) Unit ℕ) (live : KeyDirectory ℕ → List ℕ)
        (topology : ℕ → Endpoint) (trainers generators : List ℕ)
        (s : State (KeyDirectory ℕ) ℕ),
        WeightSync D live topology trainers generators s → trainers ≠ [] →
        ∀ requests, ∃ s' plans, D.burst requests generators s = .ok (s', plans) ∧
          OneReadPerReplica trainers plans := by
  intro hall
  have hburst := weightSync_burst 1 3
  have hne : List.range 1 ≠ [] := by decide
  obtain ⟨s, plans, hrun, hone⟩ := hall _ _ _ _ _ _ hburst hne [()]
  obtain ⟨t, others, hrun', _, hbeyond⟩ := hburst.run hne [()]
  rw [hrun] at hrun'
  cases hrun'
  obtain ⟨u, hu, htwo⟩ := hbeyond (by decide)
  have hle := hone.1 u hu
  omega

end Toso.DedupSim
