/-
  Toso.StoreReader.Trie — drilling down the dotted keys.

  The trie is implicit: the rows below a prefix group the keys by their next
  dotted segment, and a row is a leaf when its one member is the key the row
  spells.  A reader opens a leaf and expands every other row.

  A key that another key continues after a dot is a member of a row that is no
  leaf and of no row below it, and a key that starts with a dot has the row of
  the empty prefix, which expands to the top level again.

  Main results:
    * `members_eq` — the members of a row are the keys it spells or is continued
      by.
    * `drill_perm`, `drill_isSome` — under `Separate` the drill-down opens every
      key once, and ends.
    * `drill_down_iff` — it does, and every row adds up, exactly then.
-/
import Toso.StoreReader.Records
import Mathlib.Data.List.TakeWhile

namespace Toso.StoreReader

open Lib

/-! ## §1. What a row spells. -/

/-- `key` continues `c` after a dot. -/
def Continues (c key : Text) : Prop := c ++ [dot] <+: key

instance (c key : Text) : Decidable (Continues c key) :=
  inferInstanceAs (Decidable (c ++ [dot] <+: key))

theorem mem_below {records : List KeyRecord} {parent : Text} {r : KeyRecord} :
    r ∈ below records parent ↔ r ∈ records ∧ parentDot parent <+: r.key := by
  unfold below parentDot
  rw [List.mem_filter]
  by_cases h : parent = []
  · simp [h]
  · simp [h]

theorem mem_below_of_ne {records : List KeyRecord} {parent : Text} (h : parent ≠ [])
    {r : KeyRecord} : r ∈ below records parent ↔ r ∈ records ∧ Continues parent r.key := by
  rw [mem_below, parentDot, if_neg h]
  exact Iff.rfl

/-- A segment ends where the key does, or before a dot. -/
theorem takeWhile_split (rest : Text) :
    rest = rest.takeWhile (· ≠ dot) ∨ rest.takeWhile (· ≠ dot) ++ [dot] <+: rest := by
  induction rest with
  | nil => exact .inl rfl
  | cons c rest ih =>
      by_cases h : c = dot
      · subst h
        exact .inr (by simp [List.takeWhile])
      · rw [List.takeWhile_cons_of_pos (by simpa using h)]
        rcases ih with ih | ih
        · exact .inl (congrArg _ ih)
        · exact .inr ((List.prefix_cons_inj c).mpr ih)

/-- A segment read up to a dot, or to the end. -/
theorem takeWhile_append {segment tail : Text} (hseg : ∀ c ∈ segment, c ≠ dot)
    (htail : tail = [] ∨ [dot] <+: tail) : (segment ++ tail).takeWhile (· ≠ dot) = segment := by
  have hstop : tail.takeWhile (· ≠ dot) = [] := by
    rcases htail with rfl | ⟨more, rfl⟩
    · rfl
    · simp
  rw [List.takeWhile_append_of_pos (by simpa using hseg), hstop, List.append_nil]

/-- A record below a prefix lives under a child that its key spells or
continues. -/
theorem childOf_spells {parent : Text} {r : KeyRecord} (h : parentDot parent <+: r.key) :
    r.key = childOf parent r ∨ Continues (childOf parent r) r.key := by
  obtain ⟨rest, hrest⟩ := h
  have hdrop : r.key.drop (parentDot parent).length = rest := by
    rw [← hrest, List.drop_left]
  unfold Continues childOf
  rw [hdrop]
  rcases takeWhile_split rest with hend | hdot
  · left
    rw [← hend, hrest]
  · right
    rw [← hrest, List.append_assoc]
    exact (List.prefix_append_right_inj _).mpr hdot

/-- What spells or continues a child of the parent lives under it. -/
theorem childOf_eq {parent : Text} {r s : KeyRecord}
    (h : s.key = childOf parent r ∨ Continues (childOf parent r) s.key) :
    parentDot parent <+: s.key ∧ childOf parent s = childOf parent r := by
  -- the child is the parent and a segment without a dot
  obtain ⟨segment, hseg, hchild⟩ : ∃ segment : Text, (∀ c ∈ segment, c ≠ dot) ∧
      childOf parent r = parentDot parent ++ segment :=
    ⟨_, fun c hc => by simpa using List.mem_takeWhile_imp hc, rfl⟩
  obtain ⟨tail, htail, hkey⟩ : ∃ tail : Text, (tail = [] ∨ [dot] <+: tail) ∧
      s.key = parentDot parent ++ (segment ++ tail) := by
    rcases h with h | ⟨more, hmore⟩
    · exact ⟨[], .inl rfl, by rw [h, hchild, List.append_nil]⟩
    · refine ⟨dot :: more, .inr ⟨more, rfl⟩, ?_⟩
      rw [← hmore, hchild]
      simp
  refine ⟨⟨_, hkey.symm⟩, ?_⟩
  rw [hchild, childOf, hkey, List.drop_left, takeWhile_append hseg htail]

/-- The records whose keys a row spells or is continued by. -/
def spelled (records : List KeyRecord) (c : Text) : List KeyRecord :=
  records.filter fun r => r.key = c ∨ Continues c r.key

/-- **The members of a row.** -/
theorem members_eq {records : List KeyRecord} {parent child : Text} {members : List KeyRecord}
    (h : (child, members) ∈ grouped records parent) : members = spelled records child := by
  obtain ⟨⟨r, _, rfl⟩, rfl⟩ := mem_grouped.mp h
  unfold below spelled
  rw [List.filter_filter]
  apply List.filter_congr
  intro s _
  have hbelow : parent = [] ∨ parentDot parent <+: s.key ↔ parentDot parent <+: s.key := by
    unfold parentDot
    by_cases h : parent = [] <;> simp [h]
  rw [← Bool.decide_and, decide_eq_decide, hbelow]
  constructor
  · intro ⟨hchild, hs⟩
    rw [← hchild]
    exact childOf_spells hs
  · intro hs
    have h := childOf_eq hs
    exact ⟨h.2, h.1⟩

/-! ## §2. Leaves, and the rows between. -/

/-- No key starts with a dot, and none continues another after a dot. -/
structure Separate (records : List KeyRecord) : Prop where
  noLeadingDot : ∀ r ∈ records, ¬ Continues [] r.key
  noContinued : ∀ r ∈ records, ∀ s ∈ records, ¬ Continues r.key s.key

theorem isLeaf_iff {child : Text} {members : List KeyRecord} :
    (prefixEntry child members).isLeaf = true ↔ ∃ r, members = [r] ∧ r.key = child := by
  unfold prefixEntry
  match members with
  | [] => simp
  | [r] => simp
  | r :: s :: rest => simp

/-- A row whose key is stored under no other is a leaf. -/
theorem isLeaf_of_stored {records : List KeyRecord} (hn : (records.map KeyRecord.key).Nodup)
    {parent child : Text} {members : List KeyRecord}
    (h : (child, members) ∈ grouped records parent) {r : KeyRecord} (hr : r ∈ records)
    (hkey : r.key = child) (halone : ∀ s ∈ records, ¬ Continues child s.key) :
    (prefixEntry child members).isLeaf = true := by
  refine isLeaf_iff.mpr ⟨r, ?_, hkey⟩
  have hmem : ∀ s, s ∈ members ↔ s = r := by
    intro s
    rw [members_eq h, spelled, List.mem_filter, decide_eq_true_eq]
    constructor
    · intro ⟨hs, hspells⟩
      rcases hspells with hspells | hspells
      · exact List.inj_on_of_nodup_map hn hs hr (hspells.trans hkey.symm)
      · exact absurd hspells (halone s hs)
    · intro hs
      subst hs
      exact ⟨hr, .inl hkey⟩
  have hnodup : members.Nodup := by
    rw [members_eq h]
    exact (List.Nodup.of_map _ hn).filter _
  exact (List.perm_singleton.mp ((List.perm_ext_iff_of_nodup hnodup
    (List.nodup_singleton r)).mpr fun s => by rw [hmem, List.mem_singleton]))

/-- **A row that is no leaf** has a prefix, and its members are the records below
it. -/
theorem members_of_inner {records : List KeyRecord} (hn : (records.map KeyRecord.key).Nodup)
    (hsep : Separate records) {parent child : Text} {members : List KeyRecord}
    (h : (child, members) ∈ grouped records parent)
    (hinner : (prefixEntry child members).isLeaf = false) :
    child ≠ [] ∧ members = below records child := by
  have hunstored : ∀ r ∈ records, r.key ≠ child := by
    intro r hr hkey
    have hleaf := isLeaf_of_stored hn h hr hkey fun s hs hc =>
      hsep.noContinued r hr s hs (by rw [hkey]; exact hc)
    rw [hleaf] at hinner
    cases hinner
  have hne : child ≠ [] := by
    intro hnil
    subst hnil
    -- the row of the empty prefix holds the empty key only
    obtain ⟨⟨r, hr, hchild⟩, _⟩ := mem_grouped.mp h
    have hr := mem_below.mp hr
    rcases childOf_spells hr.2 with hkey | hkey
    · exact hunstored r hr.1 (hkey.trans hchild)
    · exact hsep.noLeadingDot r hr.1 (hchild ▸ hkey)
  refine ⟨hne, ?_⟩
  rw [members_eq h, spelled, below]
  apply List.filter_congr
  intro r hr
  rw [decide_eq_decide, parentDot, if_neg hne]
  exact or_congr (iff_of_false (hunstored r hr) hne) Iff.rfl

/-! ## §3. Every row adds up. -/

/-- A row counts what the rows below it count together. -/
structure AddsUp (row : KeyPrefix) (rows : List KeyPrefix) : Prop where
  keys : row.keys = (rows.map KeyPrefix.keys).sum
  objects : row.objects = (rows.map KeyPrefix.objects).sum
  tensors : row.tensors = (rows.map KeyPrefix.tensors).sum
  dtensors : row.dtensors = (rows.map KeyPrefix.dtensors).sum
  partialCount : row.partialCount = (rows.map KeyPrefix.partialCount).sum
  bytes : row.bytes.value = (rows.map fun c => c.bytes.value).sum

theorem value_bytesOf (members : List KeyRecord) :
    (bytesOf members).value = (members.map KeyRecord.bytes).sum := by
  unfold bytesOf
  rw [Number.value_sum, List.map_map]
  rfl

/-- The rows below a prefix count the records below it. -/
theorem addsUp_below (records : List KeyRecord) (parent name : Text) :
    AddsUp (prefixEntry name (below records parent)) (children records parent) := by
  have hperm := members_perm records parent
  have hcount : ∀ (count : KeyPrefix → ℕ) (p : KeyRecord → Bool),
      (∀ child members, count (prefixEntry child members) = members.countP p) →
        (below records parent).countP p = ((children records parent).map count).sum := by
    intro count p h
    rw [← hperm.countP_eq, List.countP_flatten, List.map_map, children_eq, List.map_map]
    congr 1
    exact List.map_congr_left fun group _ => (h group.1 group.2).symm
  refine ⟨?_, hcount _ _ fun _ _ => rfl, hcount _ _ fun _ _ => rfl, hcount _ _ fun _ _ => rfl,
    hcount _ _ fun _ _ => rfl, ?_⟩
  · rw [← hcount KeyPrefix.keys (fun _ => true) fun _ members =>
      (congrFun List.countP_true members).symm, List.countP_true]
    rfl
  · rw [children_eq, List.map_map]
    show (bytesOf (below records parent)).value = _
    rw [value_bytesOf, ← (hperm.map KeyRecord.bytes).sum_eq, List.map_flatten, List.sum_flatten,
      List.map_map, List.map_map]
    congr 1
    apply List.map_congr_left
    intro group _
    exact (value_bytesOf group.2).symm

/-! ## §4. Drilling down. -/

/-- Open a leaf, and expand another row. -/
def openRow (expand : Text → Option (List Text)) (row : KeyPrefix) : Option (List Text) :=
  if row.isLeaf then some [row.keyPrefix] else expand row.keyPrefix

/-- Open some rows, in order. -/
def visit (expand : Text → Option (List Text)) : List KeyPrefix → Option (List Text)
  | [] => some []
  | row :: rest => (openRow expand row).bind fun here =>
      (visit expand rest).map fun others => here ++ others

/-- The keys opened below a prefix, in order; `none` where the drill-down has not
ended after so many levels. -/
def drill (records : List KeyRecord) : ℕ → Text → Option (List Text)
  | 0, _ => none
  | levels + 1, parent => visit (drill records levels) (children records parent)

theorem visit_cons {expand : Text → Option (List Text)} {row : KeyPrefix}
    {rest : List KeyPrefix} {opened : List Text} :
    visit expand (row :: rest) = some opened ↔ ∃ here others, openRow expand row = some here ∧
      visit expand rest = some others ∧ here ++ others = opened := by
  simp [visit, Option.bind_eq_some_iff]

/-- Every row of a visit that ends was opened. -/
theorem openRow_of_visit {expand : Text → Option (List Text)} {rows : List KeyPrefix} :
    ∀ {opened : List Text}, visit expand rows = some opened →
      ∀ row ∈ rows, ∃ part, openRow expand row = some part ∧ part ⊆ opened := by
  induction rows with
  | nil => intro opened _ row hrow; cases hrow
  | cons first rest ih =>
      intro opened h row hrow
      obtain ⟨here, others, hhere, hothers, rfl⟩ := visit_cons.mp h
      rcases List.mem_cons.mp hrow with rfl | hrow
      · exact ⟨here, hhere, List.subset_append_left _ _⟩
      · obtain ⟨part, hpart, hsub⟩ := ih hothers row hrow
        exact ⟨part, hpart, fun k hk => List.mem_append_right _ (hsub hk)⟩

/-- What a visit opened was opened at a row. -/
theorem mem_visit {expand : Text → Option (List Text)} {rows : List KeyPrefix} {k : Text} :
    ∀ {opened : List Text}, visit expand rows = some opened → k ∈ opened →
      ∃ row ∈ rows, ∃ part, openRow expand row = some part ∧ k ∈ part := by
  induction rows with
  | nil => intro opened h hk; cases h; cases hk
  | cons row rest ih =>
      intro opened h hk
      obtain ⟨here, others, hhere, hothers, rfl⟩ := visit_cons.mp h
      rcases List.mem_append.mp hk with hk | hk
      · exact ⟨row, List.mem_cons_self, here, hhere, hk⟩
      · obtain ⟨r, hr, part, hpart⟩ := ih hothers hk
        exact ⟨r, List.mem_cons_of_mem _ hr, part, hpart⟩

/-- Where every row opens its members, a visit opens those of all. -/
theorem visit_perm {expand : Text → Option (List Text)} {groups : List (Text × List KeyRecord)}
    (h : ∀ group ∈ groups, ∀ part, openRow expand (prefixEntry group.1 group.2) = some part →
      part.Perm (group.2.map KeyRecord.key)) :
    ∀ {opened : List Text},
      visit expand (groups.map fun group => prefixEntry group.1 group.2) = some opened →
      opened.Perm ((groups.map Prod.snd).flatten.map KeyRecord.key) := by
  induction groups with
  | nil => intro opened hv; cases hv; exact .nil
  | cons group groups ih =>
      intro opened hv
      obtain ⟨here, others, hhere, hothers, rfl⟩ := visit_cons.mp hv
      rw [List.map_cons, List.flatten_cons, List.map_append]
      exact (h group List.mem_cons_self here hhere).append
        (ih (fun g hg => h g (List.mem_cons_of_mem _ hg)) hothers)

/-- A visit ends when every expansion does. -/
theorem visit_isSome {expand : Text → Option (List Text)} {rows : List KeyPrefix}
    (h : ∀ row ∈ rows, row.isLeaf = false → (expand row.keyPrefix).isSome = true) :
    (visit expand rows).isSome = true := by
  induction rows with
  | nil => rfl
  | cons row rest ih =>
      have hothers := ih fun r hr => h r (List.mem_cons_of_mem _ hr)
      have hhere : (openRow expand row).isSome = true := by
        unfold openRow
        cases hleaf : row.isLeaf with
        | true => rfl
        | false => exact h row List.mem_cons_self hleaf
      obtain ⟨here, hhere⟩ := Option.isSome_iff_exists.mp hhere
      obtain ⟨others, hothers⟩ := Option.isSome_iff_exists.mp hothers
      exact Option.isSome_iff_exists.mpr ⟨_, visit_cons.mpr ⟨here, others, hhere, hothers, rfl⟩⟩

section Separate

variable {records : List KeyRecord} (hn : (records.map KeyRecord.key).Nodup)
  (hsep : Separate records)

include hn hsep

/-- **Every key is opened once**, wherever the drill-down ends. -/
theorem drill_perm (levels : ℕ) : ∀ {parent : Text} {opened : List Text},
    drill records levels parent = some opened →
      opened.Perm ((below records parent).map KeyRecord.key) := by
  induction levels with
  | zero => intro parent opened h; cases h
  | succ levels ih =>
      intro parent opened h
      refine (visit_perm ?_ (show visit _ _ = some opened from h)).trans
        ((members_perm records parent).map KeyRecord.key)
      intro group hgroup part hpart
      unfold openRow at hpart
      cases hleaf : (prefixEntry group.1 group.2).isLeaf with
      | true =>
          obtain ⟨r, hmembers, hkey⟩ := isLeaf_iff.mp hleaf
          rw [if_pos hleaf] at hpart
          cases hpart
          rw [hmembers, List.map_singleton, hkey]
          exact List.Perm.refl _
      | false =>
          rw [if_neg (by simp [hleaf])] at hpart
          rw [(members_of_inner hn hsep hgroup hleaf).2]
          exact ih hpart

/-- **The drill-down ends**, after more levels than the longest key has code
points. -/
theorem drill_isSome (levels : ℕ) : ∀ {parent : Text}, 0 < levels →
    (∀ r ∈ below records parent, r.key.length + 1 ≤ parent.length + levels) →
      (drill records levels parent).isSome = true := by
  induction levels with
  | zero => intro parent h; omega
  | succ levels ih =>
      intro parent _ hbound
      apply visit_isSome
      intro row hrow hinner
      obtain ⟨⟨child, members⟩, hgroup, rfl⟩ := List.mem_map.mp hrow
      obtain ⟨hne, hmembers⟩ := members_of_inner hn hsep hgroup hinner
      obtain ⟨⟨r, hr, hchild⟩, hfilter⟩ := mem_grouped.mp hgroup
      -- the child is longer than its parent, and its keys are longer than it
      have hlonger : parent.length + 1 ≤ child.length := by
        have hpos := List.length_pos_of_ne_nil hne
        rw [← hchild] at hpos ⊢
        unfold childOf parentDot at *
        by_cases hp : parent = []
        · subst hp
          exact hpos
        · rw [if_neg hp]
          simp only [List.length_append, List.length_singleton]
          omega
      have hdeep : ∀ s ∈ below records child,
          child.length + 1 ≤ s.key.length ∧ s.key.length + 1 ≤ parent.length + (levels + 1) := by
        intro s hs
        refine ⟨?_, ?_⟩
        · have hlen := ((mem_below_of_ne hne).mp hs).2.length_le
          rwa [List.length_append] at hlen
        · rw [← hmembers, hfilter] at hs
          exact hbound s (List.mem_of_mem_filter hs)
      have hsome : r ∈ below records child := by
        rw [← hmembers, hfilter]
        exact List.mem_filter.mpr ⟨hr, by simpa using hchild⟩
      apply ih
      · have h := hdeep r hsome
        omega
      · intro s hs
        have h := hdeep s hs
        show s.key.length + 1 ≤ child.length + levels
        omega

end Separate

/-! ## §5. Exactly the separate keys. -/

/-- The prefixes a drill-down expands. -/
inductive Reached (records : List KeyRecord) : Text → Prop
  | root : Reached records []
  | inner {parent : Text} {row : KeyPrefix} : Reached records parent →
      row ∈ children records parent → row.isLeaf = false → Reached records row.keyPrefix

/-- **What drilling down promises**: it ends, it opens every key exactly once, the
summary counts what its rows count, and so does every row it expands. -/
structure DrillsDown (records : List KeyRecord) : Prop where
  ends : ∃ levels, (drill records levels []).isSome = true
  once : ∀ levels opened, drill records levels [] = some opened →
    opened.Perm (records.map KeyRecord.key)
  summary : ∀ capturedAt storeName strategyName volumes groups,
    let s := buildSummaryDict capturedAt storeName strategyName records volumes groups
    s.totals.keys = (s.keyPrefixes.map KeyPrefix.keys).sum ∧
      s.totals.partialDtensors = (s.keyPrefixes.map KeyPrefix.partialCount).sum ∧
      s.totals.bytes.value = (s.keyPrefixes.map fun c => c.bytes.value).sum
  rows : ∀ parent, Reached records parent → ∀ row ∈ children records parent,
    row.isLeaf = false → AddsUp row (children records row.keyPrefix)

theorem below_nil (records : List KeyRecord) : below records [] = records := by
  simp [below]

/-- What was opened was opened at a leaf that spells it. -/
theorem leaf_of_drill {records : List KeyRecord} {k : Text} (levels : ℕ) :
    ∀ {parent : Text} {opened : List Text}, drill records levels parent = some opened →
      k ∈ opened → ∃ r, spelled records k = [r] := by
  induction levels with
  | zero => intro parent opened h; cases h
  | succ levels ih =>
      intro parent opened h hk
      obtain ⟨row, hrow, part, hpart, hk⟩ := mem_visit (show visit _ _ = some opened from h) hk
      obtain ⟨⟨child, members⟩, hgroup, rfl⟩ := List.mem_map.mp hrow
      unfold openRow at hpart
      cases hleaf : (prefixEntry child members).isLeaf with
      | true =>
          rw [if_pos hleaf] at hpart
          cases hpart
          cases List.mem_singleton.mp hk
          obtain ⟨r, hmembers, _⟩ := isLeaf_iff.mp hleaf
          exact ⟨r, (members_eq hgroup).symm.trans hmembers⟩
      | false =>
          rw [if_neg (by simp [hleaf])] at hpart
          exact ih hpart hk

/-- A key with a leading dot brings the drill-down back to the top, forever. -/
theorem drill_leadingDot {records : List KeyRecord} {r : KeyRecord} (hr : r ∈ records)
    (h : Continues [] r.key) (levels : ℕ) : drill records levels [] = none := by
  obtain ⟨rest, hrest⟩ := h
  have hchild : childOf [] r = [] := by
    unfold childOf parentDot
    rw [← hrest]
    simp
  have hgroup : ([], (below records []).filter (childOf [] · = [])) ∈ grouped records [] :=
    mem_grouped.mpr ⟨⟨r, by rwa [below_nil], hchild⟩, rfl⟩
  have hinner : (prefixEntry [] ((below records []).filter (childOf [] · = []))).isLeaf
      = false := by
    rw [Bool.eq_false_iff]
    intro hleaf
    obtain ⟨s, hmembers, hkey⟩ := isLeaf_iff.mp hleaf
    have hmem : r ∈ (below records []).filter (childOf [] · = []) :=
      List.mem_filter.mpr ⟨by rwa [below_nil], by simpa using hchild⟩
    rw [hmembers, List.mem_singleton] at hmem
    rw [hmem, hkey] at hrest
    cases hrest
  induction levels with
  | zero => rfl
  | succ levels ih =>
      cases hopened : drill records (levels + 1) [] with
      | none => rfl
      | some opened =>
          obtain ⟨part, hpart, _⟩ := openRow_of_visit (show visit _ _ = some opened from hopened)
            _ (List.mem_map.mpr ⟨_, hgroup, rfl⟩)
          unfold openRow at hpart
          rw [if_neg (by simp [hinner])] at hpart
          exact absurd (hpart.symm.trans ih) (by simp)

/-- **Exactly the separate keys**: drilling down from the empty prefix ends, opens
every stored key once and adds up at every row, if and only if no stored key
starts with a dot and none continues another after a dot. -/
theorem drill_down_iff {records : List KeyRecord} (hn : (records.map KeyRecord.key).Nodup) :
    DrillsDown records ↔ Separate records := by
  constructor
  · intro h
    obtain ⟨levels, hends⟩ := h.ends
    obtain ⟨opened, hopened⟩ := Option.isSome_iff_exists.mp hends
    refine ⟨?_, ?_⟩
    · intro r hr hdot
      rw [drill_leadingDot hr hdot] at hopened
      cases hopened
    · intro r hr s hs hcont
      have hin : r.key ∈ opened :=
        (h.once levels opened hopened).mem_iff.mpr (List.mem_map_of_mem hr)
      obtain ⟨x, hspelled⟩ := leaf_of_drill levels hopened hin
      have hr' : r ∈ spelled records r.key := List.mem_filter.mpr ⟨hr, by simp⟩
      have hs' : s ∈ spelled records r.key := List.mem_filter.mpr ⟨hs, by simp [hcont]⟩
      rw [hspelled, List.mem_singleton] at hr' hs'
      rw [hr', hs'] at hcont
      have hlen := hcont.length_le
      rw [List.length_append, List.length_singleton] at hlen
      omega
  · intro hsep
    have hroot := addsUp_below records [] []
    rw [below_nil] at hroot
    refine ⟨?_, ?_, ?_, ?_⟩
    · refine ⟨(records.map fun r => r.key.length).sum + 1, drill_isSome hn hsep _ (by omega) ?_⟩
      intro r hr
      rw [below_nil] at hr
      have hle := List.single_le_sum (fun _ _ => Nat.zero_le _) _
        (List.mem_map_of_mem (f := fun r : KeyRecord => r.key.length) hr)
      show r.key.length + 1 ≤ 0 + _
      omega
    · intro levels opened hopened
      have hperm := drill_perm hn hsep levels hopened
      rwa [below_nil] at hperm
    · intro _ _ _ _ _
      exact ⟨hroot.keys, hroot.partialCount, hroot.bytes⟩
    · intro parent _ row hrow hinner
      obtain ⟨⟨child, members⟩, hgroup, rfl⟩ := List.mem_map.mp hrow
      obtain ⟨_, hmembers⟩ := members_of_inner hn hsep hgroup hinner
      show AddsUp (prefixEntry child members) _
      rw [hmembers]
      exact addsUp_below records child child

theorem siblings_drill_down : DrillsDown [objectAt "a.b", objectAt "a.c", objectAt "d"] :=
  (drill_down_iff (by decide)).mpr ⟨by decide, by decide⟩

/-- A key under another: the shorter one is opened nowhere. -/
theorem continued_key_lost : ¬ DrillsDown [objectAt "a", objectAt "a.b"] := by
  intro h
  obtain ⟨levels, hends⟩ := h.ends
  obtain ⟨opened, hopened⟩ := Option.isSome_iff_exists.mp hends
  have hin : text "a" ∈ opened := (h.once levels opened hopened).mem_iff.mpr (by decide)
  obtain ⟨r, hspelled⟩ := leaf_of_drill levels hopened hin
  have hlen : (spelled [objectAt "a", objectAt "a.b"] (text "a")).length = 2 := by decide
  rw [hspelled] at hlen
  cases hlen

end Toso.StoreReader
