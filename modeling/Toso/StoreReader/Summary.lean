/-
  Toso.StoreReader.Summary — the tables of the health page, and what they say of
  each other.

  The totals, the rows by prefix and the buckets are made of the records, each
  counted once.  The rows by host are made of the volumes, and a volume counts
  every record on it: a record on two volumes is counted twice there, and one on
  volumes the strategy does not name is not counted at all.

  Main results:
    * `sum_placed` — what the named volumes hold together is each record times its
      copies on them.
    * `summary_reconciles` — how the tables add up, for every store, and when the
      rows by host count as many keys as the totals.
-/
import Toso.StoreReader.Trie

namespace Toso.StoreReader

open Lib

/-! ## §1. The copies of a record. -/

/-- On how many of the named volumes a record is. -/
def copies (hosts : Dict Text Text) (r : KeyRecord) : ℕ :=
  r.volumeIds.countP fun volumeId => hosts.keys.contains volumeId

/-- **What the named volumes hold together.** -/
theorem sum_placed {M : Type*} [AddCommMonoid M] (hosts : Dict Text Text)
    (records : List KeyRecord) (w : KeyRecord → M) :
    (hosts.keys.map fun volumeId =>
        (((perVolume records).getD volumeId []).map fun placed => w placed.2).sum).sum
      = (records.map fun r => copies hosts r • w r).sum := by
  have hnodup : hosts.keys.Nodup := hosts.nodup
  unfold perVolume
  rw [sum_getD_groupBy Prod.fst (fun placed : Text × KeyRecord => w placed.2) _ hnodup]
  induction records with
  | nil => rfl
  | cons r records ih =>
      rw [List.flatMap_cons, List.filter_append, List.map_append, List.sum_append, ih,
        List.map_cons, List.sum_cons]
      congr 1
      -- the placements of one record
      rw [List.filter_map, List.map_map]
      show (List.map (fun _ => w r) (List.filter _ r.volumeIds)).sum = _
      rw [List.map_const', List.sum_replicate, ← List.countP_eq_length_filter]
      congr 1
      exact List.countP_congr fun volumeId _ => by simp

section Volumes

variable (strategy : Strategy) (records : List KeyRecord)

theorem sum_numKeys_volumes : ((buildVolumes strategy records).map Volume.numKeys).sum
    = (records.map (copies strategy.volumeIdToHostname)).sum := by
  have hplaced := sum_placed strategy.volumeIdToHostname records fun _ => 1
  have hrow : ∀ placed : List (Text × KeyRecord),
      (placed.map fun _ => 1).sum = (placed.map Prod.snd).length := by
    intro placed
    rw [List.map_const', List.sum_replicate, List.length_map, nsmul_eq_mul, mul_one, Nat.cast_id]
  simp only [hrow, nsmul_eq_mul, mul_one, Nat.cast_id] at hplaced
  unfold buildVolumes
  rw [List.map_map, ← hplaced]
  show _ = (List.map _ (List.map Prod.fst _)).sum
  rw [List.map_map]
  rfl

theorem sum_bytes_volumes : ((buildVolumes strategy records).map fun v => v.bytes.value).sum
    = (records.map fun r => copies strategy.volumeIdToHostname r * r.bytes).sum := by
  have hplaced := sum_placed strategy.volumeIdToHostname records KeyRecord.bytes
  simp only [nsmul_eq_mul] at hplaced
  unfold buildVolumes
  rw [List.map_map, ← hplaced]
  show _ = (List.map _ (List.map Prod.fst _)).sum
  rw [List.map_map]
  congr 1
  apply List.map_congr_left
  intro entry _
  show (bytesOf (List.map Prod.snd _)).value = _
  rw [value_bytesOf, List.map_map]
  rfl

/-! ## §2. The rows by host. -/

/-- The groups as the summary lists them. -/
def listed (volumes : List Volume) : List (Text × List Volume) :=
  (volumeGroups volumes).entries.insertionSort fun a b => a.1 ≤ b.1

theorem listed_perm (volumes : List Volume) :
    (listed volumes).Perm (volumeGroups volumes).entries := List.perm_insertionSort _ _

/-- What the rows by host count together is what the volumes do. -/
theorem sum_rows {M : Type*} [AddCommMonoid M] (volumes : List Volume) (count : VolumeGroup → M)
    (w : Volume → M) (h : ∀ group members, count (volumeGroup group members) = (members.map w).sum) :
    (((listed volumes).map fun g => volumeGroup g.1 g.2).map count).sum = (volumes.map w).sum := by
  rw [List.map_map, ← sum_groupBy _ w volumes (listed_perm volumes)]
  congr 1
  exact List.map_congr_left fun g _ => h g.1 g.2

/-- The rows by host are those of the hosts. -/
theorem mem_listed {group : Text} :
    group ∈ (listed (buildVolumes strategy records)).map Prod.fst ↔
      ∃ hostname ∈ strategy.volumeIdToHostname.values, text "host:" ++ hostname = group := by
  rw [((listed_perm _).map Prod.fst).mem_iff]
  show group ∈ (volumeGroups _).keys ↔ _
  rw [← Dict.mem_def, volumeGroups, mem_groupBy, List.mem_map]
  constructor
  · intro ⟨v, hv, hgroup⟩
    obtain ⟨entry, hentry, rfl⟩ := List.mem_map.mp hv
    exact ⟨entry.2, List.mem_map_of_mem hentry, hgroup⟩
  · intro ⟨hostname, hhost, hgroup⟩
    obtain ⟨entry, hentry, rfl⟩ := List.mem_map.mp hhost
    exact ⟨_, List.mem_map_of_mem hentry, hgroup⟩

/-- Each host has one row, and the rows are in order. -/
theorem listed_sorted (volumes : List Volume) :
    ((listed volumes).map Prod.fst).Pairwise (· < ·) := by
  have hle : ((listed volumes).map Prod.fst).Pairwise (· ≤ ·) := by
    rw [List.pairwise_map]
    have htotal : Std.Total fun a b : Text × List Volume => a.1 ≤ b.1 :=
      ⟨fun a b => le_total a.1 b.1⟩
    have htrans : IsTrans (Text × List Volume) fun a b => a.1 ≤ b.1 := ⟨fun _ _ _ => le_trans⟩
    exact List.pairwise_insertionSort _ _
  have hne : ((listed volumes).map Prod.fst).Pairwise (· ≠ ·) :=
    ((listed_perm volumes).map Prod.fst).nodup_iff.mpr (volumeGroups volumes).nodup
  exact (hle.and hne).imp fun h => lt_of_le_of_ne h.1 h.2

end Volumes

/-! ## §3. The summary. -/

/-- How the tables of a summary add up, over the records and the hosts of the volumes. -/
structure Reconciles (hosts : Dict Text Text) (records : List KeyRecord) (s : Summary) : Prop where
  /-- One row for each host, in order. -/
  sorted : (s.volumeGroups.map VolumeGroup.group).Pairwise (· < ·)
  hostRows : ∀ group, group ∈ s.volumeGroups.map VolumeGroup.group ↔
    ∃ hostname ∈ hosts.values, text "host:" ++ hostname = group
  volumes : (s.volumeGroups.map VolumeGroup.volumes).sum = s.totals.volumes
  /-- The rows by host count a record once for each of its copies. -/
  placements : (s.volumeGroups.map VolumeGroup.keys).sum = (records.map (copies hosts)).sum
  placedBytes : (s.volumeGroups.map fun g => g.bytes.value).sum
    = (records.map fun r => copies hosts r * r.bytes).sum
  /-- The rows by prefix count it once. -/
  prefixes : (s.keyPrefixes.map KeyPrefix.keys).sum = s.totals.keys ∧
    (s.keyPrefixes.map KeyPrefix.partialCount).sum = s.totals.partialDtensors ∧
    (s.keyPrefixes.map fun row => row.bytes.value).sum = s.totals.bytes.value
  kinds : ∀ row ∈ s.keyPrefixes, row.objects + row.tensors + row.dtensors = row.keys ∧
    row.partialCount ≤ row.dtensors
  /-- So do the buckets, and none is empty. -/
  buckets : (s.shardCommitPct.map Prod.snd).sum = s.totals.keys ∧
    ∀ bucket ∈ s.shardCommitPct, 0 < bucket.2
  /-- Where every record is on a named volume, the two counts agree when none is on two. -/
  agree : (∀ r ∈ records, 0 < copies hosts r) →
    ((s.volumeGroups.map VolumeGroup.keys).sum = s.totals.keys ↔ ∀ r ∈ records, copies hosts r = 1)

/-- The kinds of what lives under a prefix. -/
theorem kinds_prefixEntry (child : Text) (members : List KeyRecord) :
    (prefixEntry child members).objects + (prefixEntry child members).tensors
        + (prefixEntry child members).dtensors = (prefixEntry child members).keys ∧
      (prefixEntry child members).partialCount ≤ (prefixEntry child members).dtensors := by
  unfold prefixEntry
  constructor
  · induction members with
    | nil => rfl
    | cons r members ih =>
        simp only [List.countP_cons, List.length_cons] at ih ⊢
        cases r.objectType <;> simp <;> omega
  · apply List.countP_mono_left
    intro r _ hr
    unfold KeyRecord.isPartial at hr
    rw [Bool.and_eq_true] at hr
    exact hr.1

/-- Counts that are positive add up to their number when each is one. -/
theorem sum_eq_length_iff {counts : List ℕ} (h : ∀ n ∈ counts, 0 < n) :
    counts.sum = counts.length ↔ ∀ n ∈ counts, n = 1 := by
  induction counts with
  | nil => simp
  | cons n counts ih =>
      rw [List.forall_mem_cons] at h
      have hle : counts.length ≤ counts.sum := List.length_le_sum_of_one_le counts h.2
      rw [List.sum_cons, List.length_cons, List.forall_mem_cons, ← ih h.2]
      have hpos := h.1
      omega

/-- The buckets hold every record, and none is empty. -/
theorem buckets_add_up (now storeName strategyName : Text) (records : List KeyRecord)
    (volumes : List Volume) (groups : Dict Text (List Volume)) :
    ((buildSummaryDict now storeName strategyName records volumes groups).shardCommitPct.map
        Prod.snd).sum = records.length ∧
      ∀ bucket ∈ (buildSummaryDict now storeName strategyName records volumes groups).shardCommitPct,
        0 < bucket.2 := by
  have hle : records.countP KeyRecord.isPartial ≤ records.length := List.countP_le_length
  unfold buildSummaryDict
  generalize records.countP KeyRecord.isPartial = broken at hle ⊢
  dsimp only
  split <;> split <;> simp <;> omega

/-- **The tables of the health page**, for every store. -/
theorem summary_reconciles (controller : Controller) (strategy : Strategy)
    (now storeName strategyName : Text) :
    Reconciles strategy.volumeIdToHostname (gatherState controller strategy).records
      (buildSummaryDict now storeName strategyName (gatherState controller strategy).records
        (gatherState controller strategy).volumes (gatherState controller strategy).groups) := by
  show Reconciles _ (gatherState controller strategy).records
    (buildSummaryDict _ _ _ (gatherState controller strategy).records
      (buildVolumes strategy (gatherState controller strategy).records)
      (volumeGroups (buildVolumes strategy (gatherState controller strategy).records)))
  generalize (gatherState controller strategy).records = records
  have hplaced : (((listed (buildVolumes strategy records)).map fun g =>
      volumeGroup g.1 g.2).map VolumeGroup.keys).sum
        = (records.map (copies strategy.volumeIdToHostname)).sum := by
    rw [← sum_numKeys_volumes]
    exact sum_rows _ _ _ fun _ _ => rfl
  have hroot := addsUp_below records [] []
  rw [below_nil] at hroot
  have hnames : ((listed (buildVolumes strategy records)).map fun g =>
      volumeGroup g.1 g.2).map VolumeGroup.group
        = (listed (buildVolumes strategy records)).map Prod.fst := by
    rw [List.map_map]
    rfl
  refine
    { sorted := ?_
      hostRows := fun group => ?_
      volumes := ?_
      placements := hplaced
      placedBytes := ?_
      prefixes := ⟨hroot.keys.symm, hroot.partialCount.symm, hroot.bytes.symm⟩
      kinds := fun row hrow => ?_
      buckets := buckets_add_up _ _ _ _ _ _
      agree := fun hnamed => ?_ }
  · exact hnames ▸ listed_sorted _
  · exact hnames ▸ mem_listed strategy records
  · refine (sum_rows _ _ (fun _ => 1) fun _ members => ?_).trans ?_
    · simp [volumeGroup]
    · simp [buildSummaryDict]
  · rw [← sum_bytes_volumes]
    refine sum_rows _ _ _ fun _ members => ?_
    show (Number.sum (members.map Volume.bytes)).value = _
    rw [Number.value_sum, List.map_map]
    rfl
  · obtain ⟨group, _, rfl⟩ := List.mem_map.mp hrow
    exact kinds_prefixEntry group.1 group.2
  · refine hplaced ▸ ?_
    show _ = records.length ↔ _
    rw [← List.length_map (copies strategy.volumeIdToHostname),
      sum_eq_length_iff (by simpa using hnamed)]
    simp

end Toso.StoreReader
