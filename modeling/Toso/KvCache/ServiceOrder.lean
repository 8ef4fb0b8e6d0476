/-
  Toso.KvCache.ServiceOrder — whether a workload fixes the order it is served in.

  Passes that wait are served by submission instant and tag, but a pass that finds
  nobody running has the device at once, so of two passes submitted at one instant to
  an idle device the one whose coroutine is resumed first is served first.

  Main results:
    * `Ordered.step` — the device serves the line in its order, as long as nobody is
      overtaken.
    * `deterministic_iff` — every run of a workload gives each pass the same times,
      exactly when passes submitted at one instant always find a backlog.
-/
import Toso.KvCache.ServiceRun

namespace Toso.KvCache

open Lib

variable {τ : Type*} [LinearOrder τ]

/-! ## §1. The line. -/

/-- In the order of service. -/
def Submission.Before (x y : Submission τ) : Prop := x.key ≤ y.key

instance : DecidableRel (Submission.Before (τ := τ)) := fun x y =>
  inferInstanceAs (Decidable (x.key ≤ y.key))

instance : IsTrans (Submission τ) Submission.Before :=
  ⟨fun _ _ _ h h' => le_trans (α := ℚ ×ₗ τ) h h'⟩

instance : Std.Total (Submission.Before (τ := τ)) := ⟨fun x y => le_total x.key y.key⟩

namespace Workload

/-- The passes with something to compute, in the order of service. -/
def line (costs : WorkCosts) (W : Workload τ) : List (Submission τ) :=
  (W.passes.filter fun x => x.Queues costs).insertionSort Submission.Before

/-- Those submitted before `now`; the line is in the order of submission. -/
def earlier (costs : WorkCosts) (W : Workload τ) (now : ℚ) : List (Submission τ) :=
  (W.line costs).takeWhile fun x => x.submitted < now

/-- **A backlog**: passes were submitted before `now`, and served one after another they
are not all through by then. -/
def Backlog (costs : WorkCosts) (W : Workload τ) (now : ℚ) : Prop :=
  W.earlier costs now ≠ [] ∧ now < Server.clears Submission.submitted (Submission.cost costs)
    W.busyUntil (W.earlier costs now)

/-- **Backlogged**: whenever several passes are submitted at one instant, they find a
backlog. -/
def Backlogged (costs : WorkCosts) (W : Workload τ) : Prop :=
  ∀ x ∈ W.line costs, ∀ y ∈ W.line costs, x ≠ y → x.submitted = y.submitted →
    W.Backlog costs x.submitted

instance (costs : WorkCosts) (W : Workload τ) (now : ℚ) : Decidable (W.Backlog costs now) :=
  inferInstanceAs (Decidable (_ ∧ _))

instance (costs : WorkCosts) (W : Workload τ) : Decidable (W.Backlogged costs) :=
  inferInstanceAs (Decidable (∀ x ∈ W.line costs, ∀ y ∈ W.line costs, x ≠ y →
    x.submitted = y.submitted → W.Backlog costs x.submitted))

variable {costs : WorkCosts} {W : Workload τ}

theorem mem_line {x : Submission τ} :
    x ∈ W.line costs ↔ x ∈ W.passes ∧ x.Queues costs := by
  unfold line
  rw [List.mem_insertionSort, List.mem_filter, decide_eq_true_iff]

theorem line_sorted (costs : WorkCosts) (W : Workload τ) :
    (W.line costs).Pairwise Submission.Before := List.pairwise_insertionSort _ _

omit [LinearOrder τ] in
theorem nodup_passes (W : Workload τ) : W.passes.Nodup := W.distinct.of_map

theorem line_nodup (costs : WorkCosts) (W : Workload τ) : (W.line costs).Nodup := by
  unfold line
  rw [(List.perm_insertionSort _ _).nodup_iff]
  exact W.nodup_passes.filter _

omit [LinearOrder τ] in
/-- A tag names one pass. -/
theorem eq_of_tag {x y : Submission τ} (hx : x ∈ W.passes) (hy : y ∈ W.passes)
    (h : x.tag = y.tag) : x = y := List.inj_on_of_nodup_map W.distinct hx hy h

omit [LinearOrder τ] in
theorem eq_of_key {x y : Submission τ} (hx : x ∈ W.passes) (hy : y ∈ W.passes)
    (h : x.key = y.key) : x = y := by
  refine eq_of_tag hx hy ?_
  exact (Prod.mk.inj (toLex.injective h)).2

end Workload

namespace Service

/-- The times of a line served in its order. -/
def schedule (costs : WorkCosts) (busyUntil : ℚ) (l : List (Submission τ)) : List (Slot τ) :=
  (Server.slots Submission.submitted (Submission.cost costs) busyUntil l).map fun e =>
    ⟨e.1.tag, e.2.1, e.2.2⟩

omit [LinearOrder τ] in
/-- The last of a line starts when it was submitted and the others are through. -/
theorem schedule_concat (costs : WorkCosts) (busyUntil : ℚ) (l : List (Submission τ))
    (x : Submission τ) : schedule costs busyUntil (l ++ [x]) = schedule costs busyUntil l ++
      [⟨x.tag, max x.submitted (Server.clears Submission.submitted (Submission.cost costs)
          busyUntil l), Server.clears Submission.submitted (Submission.cost costs)
          busyUntil (l ++ [x])⟩] := by
  unfold schedule
  rw [Server.slots_concat, List.map_append]
  rfl

/-! ## §2. The line is served in its order. -/

section

variable {costs : WorkCosts} {W : Workload τ} {s t : Service τ} {booked rest : List (Submission τ)}

/-- Not submitted yet, or parked, or handed the device. -/
def Unserved (costs : WorkCosts) (s : Service τ) (x : Submission τ) : Prop :=
  x ∈ s.left ∧ x.Queues costs ∨ ∃ id, s.passes[id]? = some x ∧
    (s.device.queue.stage id = some .waiting ∨ s.device.queue.stage id = some .handed)

/-- **The invariant of a run in order**: the device booked a part of the line, the rest is
left, waits or was handed the device, and nobody but the next is handed it. -/
structure Ordered (costs : WorkCosts) (W : Workload τ) (s : Service τ)
    (booked rest : List (Submission τ)) : Prop where
  line : W.line costs = booked ++ rest
  log : s.log = schedule costs W.busyUntil booked
  busy : s.device.busyUntil
    = Server.clears Submission.submitted (Submission.cost costs) W.busyUntil booked
  served : ∀ x ∈ booked, x ∈ s.passes
  unserved : ∀ x, x ∈ rest ↔ s.Unserved costs x
  handed : ∀ id, s.device.queue.stage id = some .handed →
    s.device.clock = s.device.busyUntil ∧ s.passes[id]? = rest.head?
  occupying : ∀ id due, s.device.queue.stage id = some (.occupying due) →
    due = s.device.busyUntil ∧ booked ≠ []
  idle : s.device.queue.running = false → booked = [] ∨ s.device.busyUntil ≤ s.device.clock

/-- Nobody submitted comes after a pass still left, unless there is a backlog then. -/
def NoOvertake (costs : WorkCosts) (W : Workload τ) (s : Service τ) : Prop :=
  ∀ x ∈ s.passes, ∀ y ∈ s.left, y.Queues costs → y.key < x.key → W.Backlog costs y.submitted

theorem ordered_start (costs : WorkCosts) (W : Workload τ) :
    Ordered costs W W.start [] (W.line costs) where
  line := rfl
  log := rfl
  busy := rfl
  served x hx := by cases hx
  unserved x := by
    rw [Workload.mem_line]
    unfold Unserved
    constructor
    · exact .inl
    · rintro (hleft | ⟨id, hid, _⟩)
      · exact hleft
      · cases hid
  handed id hid := by cases hid
  occupying id due hid := by cases hid
  idle _ := .inl rfl

theorem Ordered.mem_line (ho : Ordered costs W s booked rest) {x : Submission τ}
    (hx : x ∈ rest) : x ∈ W.passes ∧ x.Queues costs := by
  rw [← Workload.mem_line, ho.line]
  exact List.mem_append_right _ hx

/-- Where everything before it is through, the next pass finds no backlog. -/
theorem Ordered.not_backlog (ho : Ordered costs W s booked rest) {x : Submission τ}
    (hx : rest.head? = some x) (hfree : booked = [] ∨ s.device.busyUntil ≤ x.submitted) :
    ¬ W.Backlog costs x.submitted := by
  rintro ⟨hne, hlt⟩
  have hprefix : W.earlier costs x.submitted <+: booked := by
    unfold Workload.earlier
    rw [ho.line]
    refine takeWhile_append_of_head fun y hy => ?_
    rw [hx] at hy
    cases hy
    exact decide_eq_false (lt_irrefl _)
  rcases hfree with hnil | hle
  · rw [hnil] at hprefix
    exact hne (List.prefix_nil.mp hprefix)
  · have hpos : ∀ y ∈ booked, 0 ≤ y.cost costs := by
      intro y hy
      have hline : y ∈ W.line costs := by
        rw [ho.line]
        exact List.mem_append_left _ hy
      exact le_of_lt (Workload.mem_line.mp hline).2
    have hclears : _ ≤ s.device.busyUntil := ho.busy ▸
      Server.clears_le_of_isPrefix hprefix W.busyUntil hpos
    exact absurd (hclears.trans hle) (not_le.mpr hlt)

/-- **The next pass is the least**: a pass of the rest that nobody before it waits with is
the head of the rest, once everything booked is through. -/
theorem Ordered.head (h : Tracked costs W s) (ho : Ordered costs W s booked rest)
    {x : Submission τ} (hx : x ∈ rest)
    (hfree : booked = [] ∨ s.device.busyUntil ≤ s.device.clock)
    (hbefore : ∀ y ∈ rest, y.key < x.key → y ∈ s.left ∧ W.Backlog costs y.submitted) :
    rest.head? = some x := by
  have hsorted := Workload.line_sorted costs W
  rw [ho.line] at hsorted
  cases hrest : rest with
  | nil =>
      rw [hrest] at hx
      cases hx
  | cons y tail =>
      by_cases hxy : x = y
      · rw [hxy]
        rfl
      · exfalso
        have hy : y ∈ rest := by
          rw [hrest]
          exact List.mem_cons_self
        have htail : x ∈ tail := by
          rw [hrest] at hx
          exact (List.mem_cons.mp hx).resolve_left hxy
        rw [hrest] at hsorted
        have hle : y.key ≤ x.key :=
          (List.pairwise_cons.mp (List.pairwise_append.mp hsorted).2.1).1 x htail
        have hne : y.key ≠ x.key := fun heq =>
          hxy (Workload.eq_of_key (ho.mem_line hy).1 (ho.mem_line hx).1 heq).symm
        obtain ⟨hleft, hbacklog⟩ := hbefore y hy (lt_of_le_of_ne hle hne)
        have hhead : rest.head? = some y := by
          rw [hrest]
          rfl
        exact ho.not_backlog hhead (hfree.imp_right fun hle => hle.trans (h.ahead y hleft)) hbacklog

/-- The next pass is served. -/
theorem Ordered.serve (ho : Ordered costs W s booked rest) {x : Submission τ}
    (hx : rest.head? = some x)
    (hlog : t.log = s.log ++ [⟨x.tag, max x.submitted s.device.busyUntil,
      max x.submitted s.device.busyUntil + x.cost costs⟩])
    (hbusy : t.device.busyUntil = max x.submitted s.device.busyUntil + x.cost costs)
    (hpasses : ∀ y ∈ s.passes, y ∈ t.passes) (hserved : x ∈ t.passes)
    (hunserved : ∀ y, t.Unserved costs y ↔ s.Unserved costs y ∧ y ≠ x)
    (hrun : t.device.queue.running = true)
    (hhanded : ∀ id, t.device.queue.stage id ≠ some .handed)
    (hdue : ∀ id due, t.device.queue.stage id = some (.occupying due) →
      due = t.device.busyUntil) :
    Ordered costs W t (booked ++ [x]) rest.tail := by
  cases rest with
  | nil => cases hx
  | cons x' tail =>
      cases hx
      have hnodup := Workload.line_nodup costs W
      rw [ho.line, List.nodup_append] at hnodup
      have hnot : x ∉ tail := (List.nodup_cons.mp hnodup.2.1).1
      constructor
      case line =>
        rw [ho.line, List.append_assoc]
        rfl
      case log =>
        rw [hlog, ho.log, schedule_concat, Server.clears_concat, ← ho.busy]
      case busy => rw [hbusy, Server.clears_concat, ← ho.busy]
      case served =>
        intro y hy
        rcases List.mem_append.mp hy with hy | hy
        · exact hpasses y (ho.served y hy)
        · rw [List.mem_singleton.mp hy]
          exact hserved
      case unserved =>
        intro y
        rw [hunserved, ← ho.unserved, List.mem_cons, List.tail_cons]
        constructor
        · intro hy
          exact ⟨.inr hy, fun heq => hnot (heq ▸ hy)⟩
        · rintro ⟨hy, hne⟩
          exact hy.resolve_left hne
      case handed => exact fun id hid => absurd hid (hhanded id)
      case occupying => exact fun id due hid => ⟨hdue id due hid, by simp⟩
      case idle =>
        intro hidle
        rw [hrun] at hidle
        cases hidle

/-- A pass that has nothing to compute changes no turn. -/
theorem Ordered.free (ho : Ordered costs W s booked rest) {x : Submission τ}
    (hcost : ¬ x.Queues costs) (h : Tracked costs W s) (slots : List (Slot τ)) :
    Ordered costs W { s with left := s.left.erase x, free := slots } booked rest := by
  refine ⟨ho.line, ho.log, ho.busy, ho.served, fun y => ?_, ho.handed, ho.occupying, ho.idle⟩
  rw [ho.unserved]
  refine or_congr_left ?_
  show y ∈ s.left ∧ _ ↔ y ∈ s.left.erase x ∧ _
  rw [h.mem_erase]
  constructor
  · rintro ⟨hy, hqueues⟩
    exact ⟨⟨fun heq => hcost (heq ▸ hqueues), hy⟩, hqueues⟩
  · rintro ⟨⟨_, hy⟩, hqueues⟩
    exact ⟨hy, hqueues⟩

omit [LinearOrder τ] in
theorem Tracked.length (h : Tracked costs W s) :
    s.device.queue.passes.length = s.passes.length := by
  have hlen := congrArg List.length h.tokens
  rwa [List.length_map, List.length_map] at hlen

omit [LinearOrder τ] in
/-- A pass that has a number keeps it. -/
theorem Tracked.getElem?_concat (h : Tracked costs W s) (x : Submission τ) (id : ℕ) :
    (s.passes ++ [x])[id]? =
      if id = s.device.queue.passes.length then some x else s.passes[id]? := by
  rw [h.length]
  by_cases hid : id = s.passes.length
  · rw [if_pos hid, hid, List.getElem?_concat_length]
  · rw [if_neg hid]
    by_cases hlt : id < s.passes.length
    · rw [List.getElem?_append_left hlt]
    · rw [List.getElem?_eq_none (by rw [List.length_append, List.length_singleton]; omega),
        List.getElem?_eq_none (by omega)]

/-- A pass that finds the device in use parks. -/
theorem Ordered.park (ho : Ordered costs W s booked rest) (h : Tracked costs W s)
    {x : Submission τ} (hx : x ∈ s.left) (hcost : x.Queues costs)
    (hrun : s.device.queue.running = true) (waiting : List (Queued τ)) :
    Ordered costs W { s with
      device := { s.device with queue := { s.device.queue with
        waiting := waiting
        passes := s.device.queue.passes ++ [⟨x.tokens, .waiting⟩] } }
      left := s.left.erase x
      passes := s.passes ++ [x] } booked rest := by
  have hstage := PrefillQueue.stage_concat s.device.queue s.device.queue.running waiting
    ⟨x.tokens, .waiting⟩
  have hget := h.getElem?_concat x
  constructor
  case line => exact ho.line
  case log => exact ho.log
  case busy => exact ho.busy
  case served => exact fun y hy => List.mem_append_left _ (ho.served y hy)
  case unserved =>
    intro y
    rw [ho.unserved]
    unfold Unserved
    simp only [h.mem_erase, hstage, hget]
    constructor
    · rintro (⟨hy, hqueues⟩ | ⟨id, hid, hstage'⟩)
      · by_cases hyx : y = x
        · exact .inr ⟨s.device.queue.passes.length, by simp [hyx]⟩
        · exact .inl ⟨⟨hyx, hy⟩, hqueues⟩
      -- the new pass waits, so it has the next number
      · have hne : id ≠ s.device.queue.passes.length := by
          rintro rfl
          rw [PrefillQueue.stage_fresh] at hstage'
          simp at hstage'
        refine .inr ⟨id, ?_, ?_⟩
        · rw [if_neg hne]
          exact hid
        · rw [if_neg hne]
          exact hstage'
    · rintro (⟨⟨_, hy⟩, hqueues⟩ | ⟨id, hid, hstage'⟩)
      · exact .inl ⟨hy, hqueues⟩
      · by_cases hne : id = s.device.queue.passes.length
        · rw [if_pos hne] at hid
          cases hid
          exact .inl ⟨hx, hcost⟩
        · rw [if_neg hne] at hid hstage'
          exact .inr ⟨id, hid, hstage'⟩
  case handed =>
    intro id hid
    have hid' := (hstage id).symm.trans hid
    split at hid'
    · cases hid'
    · next hne =>
        obtain ⟨hclock, hhead⟩ := ho.handed id hid'
        refine ⟨hclock, ?_⟩
        rw [hget, if_neg hne]
        exact hhead
  case occupying =>
    intro id due hid
    have hid' := (hstage id).symm.trans hid
    split at hid'
    · cases hid'
    · exact ho.occupying id due hid'
  case idle =>
    intro hidle
    rw [show s.device.queue.running = false from hidle] at hrun
    cases hrun

omit [LinearOrder τ] in
/-- While nobody is running, nobody waits for the device. -/
theorem Tracked.unserved_of_idle (h : Tracked costs W s) (hrun : s.device.queue.running = false)
    {x : Submission τ} (hx : s.Unserved costs x) : x ∈ s.left ∧ x.Queues costs := by
  obtain ⟨hwait, hnone⟩ := h.queue.idle hrun
  rcases hx with hleft | ⟨id, _, hparked | hhanded⟩
  · exact hleft
  · have hturn := (h.queue.parked id).mp hparked
    rw [hwait] at hturn
    cases hturn
  · exact absurd (.inl hhanded) (hnone id)

/-- **A pass that finds nobody running** is the next of the line. -/
theorem Ordered.take (ho : Ordered costs W s booked rest) (h : Tracked costs W s)
    {x : Submission τ} (hx : x ∈ s.left) (hnow : x.submitted = s.device.clock)
    (hcost : x.Queues costs) (hrun : s.device.queue.running = false)
    (hover : NoOvertake costs W { s with left := s.left.erase x, passes := s.passes ++ [x] }) :
    Ordered costs W { s with
      device := occupied costs { s.device with queue := { s.device.queue with
        running := true
        passes := s.device.queue.passes ++ [⟨x.tokens, .handed⟩] } }
        s.device.queue.passes.length x.tokens
      left := s.left.erase x
      passes := s.passes ++ [x]
      log := s.log ++ [slot costs s.device x] } (booked ++ [x]) rest.tail := by
  obtain ⟨hwait, hnone⟩ := h.queue.idle hrun
  have hrest : ∀ y ∈ rest, y ∈ s.left ∧ y.Queues costs := fun y hy =>
    h.unserved_of_idle hrun ((ho.unserved y).mp hy)
  -- the device is free, so nobody of a smaller key waits or has come by now
  have hhead : rest.head? = some x := by
    refine ho.head h ((ho.unserved x).mpr (.inl ⟨hx, hcost⟩)) (ho.idle hrun) fun y hy hlt => ?_
    obtain ⟨hleft, hqueues⟩ := hrest y hy
    have hne : y ≠ x := fun heq => absurd (heq ▸ hlt) (lt_irrefl x.key)
    exact ⟨hleft, hover x (List.mem_append_right _ (List.mem_singleton_self x)) y
      (h.mem_erase.mpr ⟨hne, hleft⟩) hqueues hlt⟩
  refine ho.serve hhead ?_ ?_ (fun y hy => List.mem_append_left _ hy)
    (List.mem_append_right _ (List.mem_singleton_self x)) ?_ rfl ?_ ?_
  · rw [hnow]
    rfl
  · rw [hnow]
    rfl
  · intro y
    constructor
    · rintro (⟨hy, hqueues⟩ | ⟨id, _, hstage⟩)
      · obtain ⟨hne, hleft⟩ := h.mem_erase.mp hy
        exact ⟨.inl ⟨hleft, hqueues⟩, hne⟩
      · -- nobody else was parked or handed the device
        exfalso
        simp only [stage_taken] at hstage
        split at hstage
        · simp at hstage
        · rcases hstage with hparked | hhanded
          · have hturn := (h.queue.parked id).mp hparked
            rw [hwait] at hturn
            cases hturn
          · exact hnone id (.inl hhanded)
    · rintro ⟨hy, hne⟩
      obtain ⟨hleft, hqueues⟩ := h.unserved_of_idle hrun hy
      exact .inl ⟨h.mem_erase.mpr ⟨hne, hleft⟩, hqueues⟩
  · intro id hid
    rw [stage_taken] at hid
    split at hid
    · cases hid
    · exact hnone id (.inl hid)
  · intro id due hid
    rw [stage_taken] at hid
    split at hid
    · cases hid
      rfl
    · exact absurd (.inr ⟨due, hid⟩) (hnone id)

omit [LinearOrder τ] in
/-- A pass with a number is not left. -/
theorem Tracked.not_left (h : Tracked costs W s) {x : Submission τ} (hx : x ∈ s.passes) :
    x ∉ s.left := by
  have hdistinct := h.distinct.of_map
  rw [List.nodup_append] at hdistinct
  exact fun hleft => hdistinct.2.2 x hx x hleft rfl

omit [LinearOrder τ] in
/-- A pass has one number. -/
theorem Tracked.id_unique (h : Tracked costs W s) {id id' : ℕ} {x : Submission τ}
    (hid : s.passes[id]? = some x) (hid' : s.passes[id']? = some x) : id = id' := by
  have hdistinct := h.distinct.of_map
  rw [List.nodup_append] at hdistinct
  exact (List.getElem?_inj (List.getElem?_eq_some_iff.mp hid).1 hdistinct.1).mp
    (hid.trans hid'.symm)

/-- **The pass the device was handed** is the next of the line. -/
theorem Ordered.begin (ho : Ordered costs W s booked rest) (h : Tracked costs W s)
    {id tokens : ℕ} {x : Submission τ} (hx : s.passes[id]? = some x)
    (hid : s.device.queue.passes[id]? = some ⟨tokens, .handed⟩) :
    Ordered costs W { s with
      device := occupied costs s.device id tokens
      log := s.log ++ [⟨x.tag, max s.device.clock s.device.busyUntil,
        max s.device.clock s.device.busyUntil + costs.prefillCost tokens⟩] }
      (booked ++ [x]) rest.tail := by
  have hhanded : s.device.queue.stage id = some .handed := by
    unfold PrefillQueue.stage
    rw [hid]
    rfl
  have hown : s.device.queue.Owns id := .inl hhanded
  have hrun := running_of_owns h.queue hown
  have hmem := List.mem_of_getElem? hx
  obtain ⟨hclock, hhead⟩ := ho.handed id hhanded
  -- it was submitted before the device was free, and begins there
  have hpast : x.submitted ≤ s.device.busyUntil := hclock ▸ h.past x hmem
  have hcost : costs.prefillCost tokens = x.cost costs := by
    rw [h.begin_tokens hx hid]
    rfl
  have hstage := PrefillQueue.stage_setStage hhanded
    (.occupying (max s.device.clock s.device.busyUntil + costs.prefillCost tokens))
  have hstart : max s.device.clock s.device.busyUntil = max x.submitted s.device.busyUntil := by
    rw [hclock, max_self, max_eq_right hpast]
  refine ho.serve (hhead.symm.trans hx) ?_ ?_ (fun y hy => hy) hmem ?_ hrun ?_ ?_
  · rw [← hstart, ← hcost]
  · rw [← hstart, ← hcost]
    rfl
  · intro y
    constructor
    · rintro (⟨hy, hqueues⟩ | ⟨j, hj, hjstage⟩)
      · exact ⟨.inl ⟨hy, hqueues⟩, fun heq => h.not_left hmem (heq ▸ hy)⟩
      · by_cases hjid : j = id
        · rw [hjid] at hjstage
          rcases hjstage with hp | hp
          · cases ((hstage id).symm.trans hp).symm.trans (if_pos rfl)
          · cases ((hstage id).symm.trans hp).symm.trans (if_pos rfl)
        · have hold := (hstage j).trans (if_neg hjid)
          refine ⟨.inr ⟨j, hj, hjstage.imp hold.symm.trans hold.symm.trans⟩, fun heq => hjid ?_⟩
          exact h.id_unique hj (heq ▸ hx)
    · rintro ⟨hy | ⟨j, hj, hjstage⟩, hne⟩
      · exact .inl hy
      · have hjid : j ≠ id := by
          rintro rfl
          exact hne (Option.some.inj (hj.symm.trans hx))
        have hold := (hstage j).trans (if_neg hjid)
        exact .inr ⟨j, hj, hjstage.imp hold.trans hold.trans⟩
  · intro j hj
    have hj' := (hstage j).symm.trans hj
    split at hj'
    · cases hj'
    · next hne => exact hne (h.queue.one j id (.inl hj') hown)
  · intro j due hj
    have hj' := (hstage j).symm.trans hj
    split at hj'
    · cases hj'
      rfl
    · next hne => exact absurd (h.queue.one j id (.inr ⟨due, hj'⟩) hown) hne

/-- **The pass a device is handed to** is the next of the line. -/
theorem Ordered.handed_head (ho : Ordered costs W s booked rest) (h : Tracked costs W s)
    (hnone : ∀ id, s.device.queue.stage id ≠ some .handed)
    (hfree : s.device.busyUntil ≤ s.device.clock) (hover : NoOvertake costs W s)
    {w : Queued τ} (hw : s.device.queue.stage w.turn = some .waiting)
    (hmem : w ∈ s.device.queue.waiting)
    (hleast : ∀ w' ∈ s.device.queue.waiting, w.Before w') :
    s.passes[w.turn]? = rest.head? := by
  obtain ⟨x, hx, hkey⟩ := h.entries w hmem
  refine hx.trans (ho.head h ((ho.unserved x).mpr (.inr ⟨w.turn, hx, .inl hw⟩)) (.inr hfree)
    fun y hy hlt => ?_).symm
  rcases (ho.unserved y).mp hy with ⟨hleft, hqueues⟩ | ⟨id, hid, hparked | hhanded⟩
  · exact ⟨hleft, hover x (List.mem_of_getElem? hx) y hleft hqueues hlt⟩
  · -- it waits as well, and would have been handed the device
    exfalso
    obtain ⟨w', hw', rfl⟩ := List.mem_map.mp ((h.queue.parked id).mp hparked)
    obtain ⟨y', hy', hkey'⟩ := h.entries w' hw'
    obtain rfl : y = y' := Option.some.inj (hid.symm.trans hy')
    have hle : w.key ≤ w'.key := hleast w' hw'
    rw [hkey, hkey'] at hle
    exact absurd hlt (not_lt.mpr hle)
  · exact absurd hhanded (hnone id)

/-- **A pass that is through** hands the device to the next of the line. -/
theorem Ordered.finish (ho : Ordered costs W s booked rest) (h : Tracked costs W s)
    {id : ℕ} {due : ℚ} (hid : s.device.queue.stage id = some (.occupying due))
    (hdue : due ≤ s.device.clock) (hover : NoOvertake costs W s) :
    Ordered costs W { s with device := s.device.leave id } booked rest := by
  have hown : s.device.queue.Owns id := .inr ⟨due, hid⟩
  have hnone := not_handed_of_occupying h.queue hid
  obtain ⟨rfl, hbooked⟩ := ho.occupying id due hid
  have hclock : s.device.clock = s.device.busyUntil :=
    le_antisymm (h.lasts id _ hid) hdue
  -- one pass occupies the device at a time
  have hother : ∀ j due', s.device.queue.stage j = some (.occupying due') → j = id :=
    fun j due' hj => h.queue.one j id (.inr ⟨due', hj⟩) hown
  obtain ⟨_, ⟨_, _, hidle, hstage⟩ | ⟨w, waiting, hperm, hleast, _, hrun, hw, hstage⟩⟩ :=
    leave_cases h.queue hown
  · refine ⟨ho.line, ho.log, ho.busy, ho.served, fun y => ?_, fun j hj => ?_,
      fun j due' hj => ?_, fun _ => .inr hdue⟩
    · rw [ho.unserved]
      refine or_congr_right (exists_congr fun j => and_congr_right fun _ => ?_)
      show _ ↔ (s.device.queue.setStage id .done).handOff.stage j = _ ∨
        (s.device.queue.setStage id .done).handOff.stage j = _
      rw [hstage]
      split
      · next hj => simp [hj, hid]
      · exact Iff.rfl
    · have hj' := (hstage j).symm.trans hj
      split at hj'
      · cases hj'
      · exact absurd hj' (hnone j)
    · have hj' := (hstage j).symm.trans hj
      split at hj'
      · cases hj'
      · next hne => exact absurd (hother j due' hj') hne
  -- the least entry is handed the device; in the line it is the head
  · have hmem : w ∈ s.device.queue.waiting := hperm.mem_iff.mp List.mem_cons_self
    have hturn : w.turn ≠ id := by
      intro heq
      rw [heq, hid] at hw
      cases hw
    refine ⟨ho.line, ho.log, ho.busy, ho.served, fun y => ?_, fun j hj => ?_,
      fun j due' hj => ?_, fun hnot => ?_⟩
    · rw [ho.unserved]
      refine or_congr_right (exists_congr fun j => and_congr_right fun _ => ?_)
      show _ ↔ (s.device.queue.setStage id .done).handOff.stage j = _ ∨
        (s.device.queue.setStage id .done).handOff.stage j = _
      rw [hstage]
      split
      · next hj => simp [hj, hw]
      · split
        · next hj => simp [hj, hid]
        · exact Iff.rfl
    · have hj' := (hstage j).symm.trans hj
      split at hj'
      · next heq =>
          rw [heq]
          exact ⟨hclock, ho.handed_head h hnone hdue hover hw hmem hleast⟩
      · split at hj'
        · cases hj'
        · exact absurd hj' (hnone j)
    · have hj' := (hstage j).symm.trans hj
      split at hj'
      · cases hj'
      · split at hj'
        · cases hj'
        · next hne => exact absurd (hother j due' hj') hne
    · have hbusy := running_of_owns h.queue hown
      rw [← hrun, show (s.device.queue.setStage id .done).handOff.running = false from hnot]
        at hbusy
      cases hbusy

omit [LinearOrder τ] in
/-- The clock moves past no pass that was handed the device. -/
theorem not_handed_of_holds {q : PrefillQueue τ} {now : ℚ}
    (hheld : ∀ p ∈ q.passes, p.stage.Holds now) (id : ℕ) : q.stage id ≠ some .handed := by
  intro hid
  obtain ⟨p, hp, hstage⟩ := Option.map_eq_some_iff.mp hid
  have hholds := hheld p (List.mem_of_getElem? hp)
  rw [hstage] at hholds
  exact hholds

/-- **The line is served in its order**, as long as nobody is overtaken. -/
theorem Ordered.step {e : Event τ} (ho : Ordered costs W s booked rest) (h : Tracked costs W s)
    (hm : Moves costs s e t) (hover : NoOvertake costs W t) :
    ∃ booked' rest', Ordered costs W t booked' rest' := by
  cases hm with
  | free hx hnow hcost => exact ⟨booked, rest, ho.free hcost h _⟩
  | park hx hnow hcost hrun => exact ⟨booked, rest, ho.park h hx hcost hrun _⟩
  | take hx hnow hcost hrun => exact ⟨_, _, ho.take h hx hnow hcost hrun hover⟩
  | begin hx hid => exact ⟨_, _, ho.begin h hx hid⟩
  | finish hid hdue => exact ⟨booked, rest, ho.finish h hid hdue hover⟩
  | tick hnow hheld hleft =>
      have hnone := not_handed_of_holds hheld
      exact ⟨booked, rest, ho.line, ho.log, ho.busy, ho.served, ho.unserved,
        fun id hid => absurd hid (hnone id), ho.occupying,
        fun hidle => (ho.idle hidle).imp_right fun hle => hle.trans hnow⟩

/-! ## §3. Runs in order. -/

/-- Whoever overtakes was submitted at the same instant. -/
theorem Tracked.noOvertake (h : Tracked costs W s) (hW : W.Backlogged costs) :
    NoOvertake costs W s := by
  intro x hx y hy hqueues hlt
  have hsame : y.submitted = x.submitted := by
    refine le_antisymm (submitted_le_of_key hlt.le) ?_
    exact (h.past x hx).trans (h.ahead y hy)
  have hxline := Workload.mem_line.mpr ⟨h.member x (List.mem_append_left _ hx), h.queues x hx⟩
  have hyline := Workload.mem_line.mpr ⟨h.member y (List.mem_append_right _ hy), hqueues⟩
  have hne : y ≠ x := fun heq => absurd (heq ▸ hlt) (lt_irrefl x.key)
  exact hW y hyline x hxline hne hsame

/-- **Every run of a workload whose ties find a backlog** serves the line in its order. -/
theorem ordered_of_run (hW : W.Backlogged costs) (hrun : (machine costs W).Reachable s) :
    ∃ booked rest, Ordered costs W s booked rest := by
  have hboth : Tracked costs W s ∧ ∃ booked rest, Ordered costs W s booked rest := by
    refine hrun.invariant (P := fun s => Tracked costs W s ∧ ∃ booked rest,
      Ordered costs W s booked rest) ?_ ?_
    · rintro _ rfl
      exact ⟨tracked_start costs W, [], W.line costs, ordered_start costs W⟩
    · rintro u e v ⟨hu, booked, rest, ho⟩ hst
      have hv := hu.step (moves_of_next hst)
      exact ⟨hv, ho.step hu (moves_of_next hst) (hv.noOvertake hW)⟩
  exact hboth.2

/-- Nobody left comes before a pass that was submitted. -/
def Sorted (s : Service τ) : Prop := ∀ x ∈ s.passes, ∀ y ∈ s.left, x.key ≤ y.key

theorem Sorted.step {e : Event τ} (hs : s.Sorted) (hok : Orderly s e) (hm : Moves costs s e t) :
    t.Sorted := by
  have hnew : ∀ x, (∀ y ∈ s.left, x.key ≤ y.key) →
      ∀ z ∈ s.passes ++ [x], ∀ y ∈ s.left.erase x, z.key ≤ y.key := by
    intro x hleast z hz y hy
    have hleft := List.mem_of_mem_erase hy
    rcases List.mem_append.mp hz with hz | hz
    · exact hs z hz y hleft
    · rw [List.mem_singleton.mp hz]
      exact hleast y hleft
  cases hm with
  | free hx hnow hcost => exact fun z hz y hy => hs z hz y (List.mem_of_mem_erase hy)
  | park hx hnow hcost hrun => exact hnew _ hok
  | take hx hnow hcost hrun => exact hnew _ hok
  | begin hx hid => exact hs
  | finish hid hdue => exact hs
  | tick hnow hheld hleft => exact hs

theorem Sorted.noOvertake (hs : s.Sorted) : NoOvertake costs W s :=
  fun x hx y hy _ hlt => absurd hlt (not_lt.mpr (hs x hx y hy))

/-- **A run that submits in order** serves the line in its order. -/
theorem ordered_of_orderly (hrun : ((machine costs W).guarded Orderly).Reachable s) :
    ∃ booked rest, Ordered costs W s booked rest := by
  have hall : Tracked costs W s ∧ s.Sorted ∧ ∃ booked rest, Ordered costs W s booked rest := by
    refine hrun.invariant (P := fun s => Tracked costs W s ∧ s.Sorted ∧ ∃ booked rest,
      Ordered costs W s booked rest) ?_ ?_
    · rintro _ rfl
      have hnone : W.start.Sorted := fun x hx => by cases hx
      exact ⟨tracked_start costs W, hnone, [], W.line costs, ordered_start costs W⟩
    · rintro u e v ⟨hu, hsorted, booked, rest, ho⟩ ⟨hok, hst⟩
      have hm := moves_of_next hst
      have hv := hsorted.step hok hm
      exact ⟨hu.step hm, hv, ho.step hu hm hv.noOvertake⟩
  exact hall.2.2

/-! ## §4. The times of a complete run. -/

/-- At the end everything was served. -/
theorem Ordered.complete (ho : Ordered costs W s booked rest) (h : Tracked costs W s)
    (hs : s.Complete) : s.log = schedule costs W.busyUntil (W.line costs) := by
  obtain ⟨hleft, hrun⟩ := hs
  have hrest : rest = [] := by
    refine List.eq_nil_iff_forall_not_mem.mpr fun x hx => ?_
    have hmem := (h.unserved_of_idle hrun ((ho.unserved x).mp hx)).1
    rw [hleft] at hmem
    cases hmem
  rw [ho.log, ho.line, hrest, List.append_nil]

/-- The passes with nothing to compute have the times they are submitted at. -/
theorem Tracked.find_free (hs : Tracked costs W s) (ht : Tracked costs W t)
    (hleft : t.left = []) {tag : τ} {e : Slot τ}
    (he : s.free.find? (fun e => decide (e.tag = tag)) = some e) :
    t.free.find? (fun e => decide (e.tag = tag)) = some e := by
  obtain ⟨x, hx, hfree, rfl⟩ := hs.freed e (List.mem_of_find?_eq_some he)
  have hp := List.find?_some he
  have htag : x.tag = tag := of_decide_eq_true hp
  have hmem : (⟨x.tag, x.submitted, x.submitted⟩ : Slot τ) ∈ t.free := by
    refine (ht.gone x hx hfree).resolve_left fun hin => ?_
    rw [hleft] at hin
    cases hin
  have hsome : (t.free.find? fun e => decide (e.tag = tag)).isSome :=
    List.find?_isSome.mpr ⟨_, hmem, decide_eq_true htag⟩
  obtain ⟨e', he'⟩ := Option.isSome_iff_exists.mp hsome
  obtain ⟨y, hy, _, rfl⟩ := ht.freed e' (List.mem_of_find?_eq_some he')
  have hp' := List.find?_some he'
  have htag' : y.tag = tag := of_decide_eq_true hp'
  rw [he', Workload.eq_of_tag hy hx (htag'.trans htag.symm)]

/-- **Two complete runs with one log** give every pass the same times. -/
theorem times_eq (hs : Tracked costs W s) (ht : Tracked costs W t) (hleft : s.left = [])
    (hleft' : t.left = []) (hlog : s.log = t.log) (tag : τ) : s.times tag = t.times tag := by
  have hfree : s.free.find? (fun e => decide (e.tag = tag))
      = t.free.find? (fun e => decide (e.tag = tag)) :=
    Option.ext fun e => ⟨hs.find_free ht hleft', ht.find_free hs hleft⟩
  unfold times
  rw [List.find?_append, List.find?_append, hlog, hfree]

/-! ## §5. Two runs with different times. -/

/-- What a device books from a state on starts where it was free, or later. -/
theorem logged_after (h : Tracked costs W s)
    (hsteps : ((machine costs W).guarded Orderly).Steps s t) :
    ∃ more, t.log = s.log ++ more ∧ ∀ e ∈ more, s.device.busyUntil ≤ e.start := by
  have hall : Tracked costs W t ∧ s.device.busyUntil ≤ t.device.busyUntil ∧
      ∃ more, t.log = s.log ++ more ∧ ∀ e ∈ more, s.device.busyUntil ≤ e.start := by
    refine hsteps.invariant (P := fun t => Tracked costs W t ∧
      s.device.busyUntil ≤ t.device.busyUntil ∧
      ∃ more, t.log = s.log ++ more ∧ ∀ e ∈ more, s.device.busyUntil ≤ e.start) ?_ ?_
    · rintro u e v ⟨hu, hle, more, hlog, hmore⟩ ⟨_, hst⟩
      have hm := moves_of_next hst
      obtain ⟨hle', new, hlog', hnew⟩ := hm.booked hu
      refine ⟨hu.step hm, hle.trans hle', more ++ new, ?_, ?_⟩
      · rw [hlog', hlog, List.append_assoc]
      · intro e he
        rcases List.mem_append.mp he with he | he
        · exact hmore e he
        · exact hle.trans (hnew e he)
    · exact ⟨h, le_rfl, [], (List.append_nil _).symm, fun e he => by cases he⟩
  exact hall.2.2

/-- Where there is no backlog, some run has the device idle, with everything submitted
then still to come. -/
theorem idle_at {now : ℚ} (hopens : W.opens ≤ now) (hnot : ¬ W.Backlog costs now) :
    ∃ s, (machine costs W).Reachable s ∧ s.device.clock = now ∧
      s.device.queue.running = false ∧ ∀ y ∈ W.line costs, y.submitted = now → y ∈ s.left := by
  obtain ⟨s, hsteps, hclock, hsettled, hpasses⟩ := settle now W.start.remaining W.start rfl
    (tracked_start costs W) (WithTop.coe_le_coe.mpr hopens)
  have hstart : ((machine costs W).guarded Orderly).Reachable W.start := .init rfl
  have hrun := hstart.of_steps hsteps
  have h := tracked_of_run hrun.of_guarded
  obtain ⟨booked, rest, ho⟩ := ordered_of_orderly hrun
  have hbefore : ∀ x ∈ s.passes, x.submitted < now := fun x hx =>
    WithTop.coe_lt_coe.mp ((hpasses x hx).resolve_left (by simp [Workload.start]))
  have hearlier : booked <+: W.earlier costs now := by
    unfold Workload.earlier
    rw [ho.line, List.takeWhile_append_of_pos
      fun x hx => decide_eq_true (hbefore x (ho.served x hx))]
    exact List.prefix_append _ _
  have hidle : s.device.queue.running = false := by
    by_contra hbusy
    obtain ⟨id, hid | ⟨due, hid⟩⟩ := h.queue.busy (by simpa using hbusy)
    · exact hsettled.handed id hid
    · obtain ⟨rfl, hne⟩ := ho.occupying id due hid
      refine hnot ⟨fun hnil => hne (List.prefix_nil.mp (hnil ▸ hearlier)), ?_⟩
      have hpos : ∀ x ∈ W.earlier costs now, 0 ≤ x.cost costs := fun x hx =>
        le_of_lt (Workload.mem_line.mp ((List.takeWhile_prefix _).mem hx)).2
      have hclears : s.device.busyUntil ≤ _ :=
        ho.busy ▸ Server.clears_le_of_isPrefix hearlier W.busyUntil hpos
      exact lt_of_lt_of_le (WithTop.coe_lt_coe.mp (hsettled.occupying id _ hid)) hclears
  have htick := ticked costs W (WithTop.coe_le_coe.mp hclock) hsettled.handed
    (fun id due hid => (WithTop.coe_lt_coe.mp (hsettled.occupying id due hid)).le)
    (fun x hx => WithTop.coe_le_coe.mp (hsettled.left x hx))
  refine ⟨_, hrun.of_guarded.step htick.2, rfl, hidle, fun y hy hnow => ?_⟩
  rw [ho.line] at hy
  rcases List.mem_append.mp hy with hy | hy
  · exact absurd (hbefore y (ho.served y hy)) (not_lt.mpr hnow.ge)
  · exact (h.unserved_of_idle hidle ((ho.unserved y).mp hy)).1

/-- **Whoever is resumed first on an idle device** is served first, in some run to the
end. -/
theorem first_served (hrun : (machine costs W).Reachable s)
    (hidle : s.device.queue.running = false) {x : Submission τ} (hx : x ∈ s.left)
    (hnow : x.submitted = s.device.clock) (hcost : x.Queues costs) :
    ∃ t, (machine costs W).Reachable t ∧ t.Complete ∧ ∃ more,
      t.log = s.log ++ slot costs s.device x :: more ∧
      ∀ e ∈ more, (slot costs s.device x).stop ≤ e.start := by
  obtain ⟨u, hu⟩ := can_submit costs hx hnow
  have hreach : (machine costs W).Reachable u := hrun.step hu
  obtain ⟨t, hsteps, hcomplete⟩ := complete (tracked_of_run hreach)
  have ht : (machine costs W).Reachable t := by
    refine hsteps.invariant (P := (machine costs W).Reachable) ?_ hreach
    exact fun _ _ _ hr hst => hr.step hst.2
  obtain ⟨more, hlog, hmore⟩ := logged_after (tracked_of_run hreach) hsteps
  have hboth : u.log = s.log ++ [slot costs s.device x] ∧
      u.device.busyUntil = (slot costs s.device x).stop := by
    cases moves_of_next hu with
    | free _ _ hnone => exact absurd hcost hnone
    | park _ _ _ hbusy =>
        rw [hidle] at hbusy
        cases hbusy
    | take => exact ⟨rfl, rfl⟩
  refine ⟨t, ht, hcomplete, more, ?_, fun e he => hboth.2 ▸ hmore e he⟩
  rw [hlog, hboth.1, List.append_assoc]
  rfl

/-- Every run of a workload to its end gives each pass the same times. -/
def Deterministic (costs : WorkCosts) (W : Workload τ) : Prop :=
  ∀ s t, (machine costs W).Reachable s → (machine costs W).Reachable t →
    s.Complete → t.Complete → ∀ tag, s.times tag = t.times tag

theorem deterministic_of_backlogged (hW : W.Backlogged costs) : Deterministic costs W := by
  intro s t hs ht hcs hct tag
  obtain ⟨_, _, ho⟩ := ordered_of_run hW hs
  obtain ⟨_, _, ho'⟩ := ordered_of_run hW ht
  have hlog : s.log = t.log := by
    rw [ho.complete (tracked_of_run hs) hcs, ho'.complete (tracked_of_run ht) hct]
  exact times_eq (tracked_of_run hs) (tracked_of_run ht) hcs.1 hct.1 hlog tag

/-- The times of a pass that is served first, where the pass is new. -/
theorem times_first {e : Slot τ} {more : List (Slot τ)} (hlog : t.log = s.log ++ e :: more)
    (hnew : ∀ e' ∈ s.log, e'.tag ≠ e.tag) : t.times e.tag = some (e.start, e.stop) := by
  have hnone : s.log.find? (fun e' => decide (e'.tag = e.tag)) = none :=
    List.find?_eq_none.mpr fun e' he' htag => hnew e' he' (of_decide_eq_true htag)
  unfold times
  rw [hlog, List.append_assoc, List.find?_append, hnone, Option.none_or, List.cons_append,
    List.find?_cons_of_pos (by simp)]
  rfl

/-- A pass that is not served first starts when the first one is through. -/
theorem times_later (h : Tracked costs W t) {x : Submission τ} (hx : x ∈ W.passes)
    (hcost : x.Queues costs) {e : Slot τ} {more : List (Slot τ)}
    (hlog : t.log = s.log ++ e :: more) (hnew : ∀ e' ∈ s.log, e'.tag ≠ x.tag)
    (hne : e.tag ≠ x.tag) (hmore : ∀ e' ∈ more, e.stop ≤ e'.start) {start stop : ℚ}
    (htimes : t.times x.tag = some (start, stop)) : e.stop ≤ start := by
  obtain ⟨e', he', hpair⟩ := Option.map_eq_some_iff.mp htimes
  have hp := List.find?_some he'
  have htag : e'.tag = x.tag := of_decide_eq_true hp
  obtain rfl : e'.start = start := congrArg Prod.fst hpair
  rcases List.mem_append.mp (List.mem_of_find?_eq_some he') with hmem | hfree
  · rw [hlog] at hmem
    rcases List.mem_append.mp hmem with hold | hmem
    · exact absurd htag (hnew e' hold)
    · rcases List.mem_cons.mp hmem with rfl | hmem
      · exact absurd htag hne
      · exact hmore e' hmem
  · -- the free ones are others
    obtain ⟨z, hz, hnone, rfl⟩ := h.freed e' hfree
    rw [Workload.eq_of_tag hz hx htag] at hnone
    exact absurd hcost hnone

theorem backlogged_of_deterministic (h : Deterministic costs W) : W.Backlogged costs := by
  intro x hx y hy hne hsame
  by_contra hnot
  obtain ⟨hxmem, hxcost⟩ := Workload.mem_line.mp hx
  obtain ⟨hymem, hycost⟩ := Workload.mem_line.mp hy
  obtain ⟨s, hrun, hclock, hidle, hleft⟩ := idle_at (W.ahead x hxmem) hnot
  have hs := tracked_of_run hrun
  have hxleft := hleft x hx rfl
  have hyleft := hleft y hy hsame.symm
  have hnew : ∀ e ∈ s.log, e.tag ≠ x.tag := by
    intro e he htag
    obtain ⟨z, hz, hztag⟩ := hs.logged e he
    have hzx := Workload.eq_of_tag (hs.member z (List.mem_append_left _ hz)) hxmem
      (hztag.symm.trans htag)
    exact hs.not_left hz (hzx ▸ hxleft)
  obtain ⟨u, hu, hcu, _, hlog, _⟩ := first_served hrun hidle hxleft hclock.symm hxcost
  obtain ⟨v, hv, hcv, _, hlog', hmore⟩ :=
    first_served hrun hidle hyleft (hsame.symm.trans hclock.symm) hycost
  have htimes := times_first hlog hnew
  have hsame' : v.times x.tag = some _ := (h u v hu hv hcu hcv x.tag).symm.trans htimes
  have hyx : y.tag ≠ x.tag := fun htag => hne (Workload.eq_of_tag hymem hxmem htag).symm
  have hlate := times_later (tracked_of_run hv) hxmem hxcost hlog' hnew hyx hmore hsame'
  -- both would have the device from the same instant on
  have hpos : 0 < y.cost costs := hycost
  exact absurd hlate (not_le.mpr (lt_add_of_pos_right _ hpos))

/-- **The times of the passes do not depend on the order of resumption** exactly when
passes submitted at one instant always find a backlog. -/
theorem deterministic_iff (costs : WorkCosts) (W : Workload τ) :
    Deterministic costs W ↔ W.Backlogged costs :=
  ⟨backlogged_of_deterministic, deterministic_of_backlogged⟩

end

/-! ### Two passes at once -/

/-- Two passes of a second, submitted at one instant to an idle device. -/
def pairAtOnce : Workload ℕ where
  busyUntil := 0
  opens := 0
  passes := [⟨0, 9, 1⟩, ⟨0, 1, 1⟩]
  distinct := by decide
  ahead := by simp

/-- A pass submitted before two others makes them wait. -/
example : (⟨0, 0, [⟨0, 5, 3⟩, ⟨1, 9, 1⟩, ⟨1, 1, 1⟩], by decide, by simp⟩ :
    Workload ℕ).Backlogged Device.secondEach := by
  decide +kernel

/-- One is resumed first, and the other waits for it. -/
def resumedFirst (x y : Submission ℕ) : List (Event ℕ) :=
  [.submit x, .submit y, .tick 1, .finish 0, .resume 1, .tick 2, .finish 1]

/-- Whichever of the two is resumed first is served first. -/
theorem resumed_first_served_first : ¬ Deterministic Device.secondEach pairAtOnce := by
  intro h
  have hnine : (Machine.replay (next Device.secondEach) pairAtOnce.start
      (resumedFirst ⟨0, 9, 1⟩ ⟨0, 1, 1⟩)).any (fun s =>
        decide (s.Complete ∧ s.times 9 = some (0, 1))) = true := by
    decide +kernel
  have hone : (Machine.replay (next Device.secondEach) pairAtOnce.start
      (resumedFirst ⟨0, 1, 1⟩ ⟨0, 9, 1⟩)).any (fun s =>
        decide (s.Complete ∧ s.times 9 = some (1, 2))) = true := by
    decide +kernel
  obtain ⟨s, hs, hends⟩ := (Option.any_eq_true _ _).mp hnine
  obtain ⟨t, ht, hends'⟩ := (Option.any_eq_true _ _).mp hone
  obtain ⟨hcs, htimes⟩ := of_decide_eq_true hends
  obtain ⟨hct, htimes'⟩ := of_decide_eq_true hends'
  have hrs := Machine.Reachable.of_replay (M := machine Device.secondEach pairAtOnce)
    (fun _ _ _ hst => hst) _ (.init rfl) hs
  have hrt := Machine.Reachable.of_replay (M := machine Device.secondEach pairAtOnce)
    (fun _ _ _ hst => hst) _ (.init rfl) ht
  have hsame := h s t hrs hrt hcs hct 9
  rw [htimes, htimes'] at hsame
  exact absurd hsame (by decide +kernel)

end Service

end Toso.KvCache
