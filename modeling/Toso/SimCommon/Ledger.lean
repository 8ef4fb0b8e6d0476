/-
  Toso.SimCommon.Ledger — the transfers and outcome rows of one run.

  Every transport reports its transfers to one ledger.  Only what a get delivers
  is counted; what one of the origins served is counted a second time, as fabric.
  The aggregations are over whatever rows a capability adds.

  Main results:
    * `recorded_bytes`, `recorded_edges` — the counters and edges after any
      transfers, whatever their order.
    * `percentile_ranks` — how many rows are at or below a percentile, and how many
      at or above it.
-/
import Toso.SimCommon.Report
import Mathlib.Data.Rat.Floor
import Mathlib.Algebra.BigOperators.Group.List.Basic
import Mathlib.Order.Monotone.Basic
import Mathlib.Tactic.Positivity
import Mathlib.Tactic.Linarith

namespace Toso.SimCommon.Report

/-! ## §1. The ledger. -/

/-- Which operation a transfer belongs to. -/
inductive TransferKind
  | put
  | get
  deriving DecidableEq

/-- What `on_transfer` is told: the arguments of `record_transfer`. -/
structure Transfer where
  kind : TransferKind
  srcId : String
  dstId : String
  nbytes : ℕ
  cost : ℚ
  deriving DecidableEq

/-- The transfers that count. -/
def Transfer.counts (t : Transfer) : Bool := t.kind = .get

/-- The transfers that count as fabric. -/
def Transfer.crosses (origins : List String) (t : Transfer) : Bool :=
  t.kind = .get ∧ t.srcId ∈ origins

/-- `Outcome`: one work item, released and finished. -/
structure Outcome where
  id : String
  released : ℚ
  done : ℚ
  deriving DecidableEq

/-- `Ledger`: the edges, the byte counters and the rows of one run. -/
structure Ledger (ω : Type*) where
  rows : List ω
  edges : List (Edge String)
  transferBytes : ℕ
  originBytes : ℕ
  wallclock : ℚ
  itemsTotal : ℕ
  origins : List String

namespace Ledger

variable {ω : Type*}

/-- A ledger nothing was reported to. -/
def new (origins : List String) : Ledger ω := ⟨[], [], 0, 0, 0, 0, origins⟩

/-- `add`. -/
def add (row : ω) (l : Ledger ω) : Ledger ω := { l with rows := l.rows ++ [row] }

/-- `record_transfer`: a put is the writer's own data, and is not counted. -/
def recordTransfer (t : Transfer) (l : Ledger ω) : Ledger ω :=
  match t.kind with
  | .put => l
  | .get => { l with
      transferBytes := l.transferBytes + t.nbytes
      originBytes := if t.srcId ∈ l.origins then l.originBytes + t.nbytes else l.originBytes
      edges := if 0 < t.nbytes then l.edges ++ [(t.srcId, t.dstId, t.dstId)] else l.edges }

/-! ## §2. What is recorded. -/

/-- The bytes of some transfers. -/
def bytes (ts : List Transfer) : ℕ := (ts.map Transfer.nbytes).sum

theorem bytes_cons (t : Transfer) (ts : List Transfer) : bytes (t :: ts) = t.nbytes + bytes ts := by
  rw [bytes, bytes, List.map_cons, List.sum_cons]

theorem recordTransfer_origins (t : Transfer) (l : Ledger ω) :
    (l.recordTransfer t).origins = l.origins := by
  unfold recordTransfer
  cases t.kind <;> rfl

/-- **The counters after any transfers**: what the gets delivered, and what of it the
origins served. -/
theorem recorded_bytes (ts : List Transfer) : ∀ l : Ledger ω,
    (ts.foldl (fun l t => l.recordTransfer t) l).transferBytes
        = l.transferBytes + bytes (ts.filter Transfer.counts) ∧
      (ts.foldl (fun l t => l.recordTransfer t) l).originBytes
        = l.originBytes + bytes (ts.filter (Transfer.crosses l.origins)) := by
  induction ts with
  | nil => exact fun l => ⟨rfl, rfl⟩
  | cons t ts ih =>
      intro l
      obtain ⟨htransfer, horigin⟩ := ih (l.recordTransfer t)
      rw [List.foldl_cons, htransfer, horigin, recordTransfer_origins]
      cases hkind : t.kind with
      | put =>
          have hcounts : t.counts = false := by simp [Transfer.counts, hkind]
          have hcrosses : t.crosses l.origins = false := by simp [Transfer.crosses, hkind]
          have hsame : l.recordTransfer t = l := by rw [recordTransfer, hkind]
          rw [hsame, List.filter_cons_of_neg (by simp [hcounts]),
            List.filter_cons_of_neg (by simp [hcrosses])]
          exact ⟨rfl, rfl⟩
      | get =>
          have hcounts : t.counts = true := by simp [Transfer.counts, hkind]
          have hrec : (l.recordTransfer t).transferBytes = l.transferBytes + t.nbytes := by
            rw [recordTransfer, hkind]
          have horig : (l.recordTransfer t).originBytes
              = if t.srcId ∈ l.origins then l.originBytes + t.nbytes else l.originBytes := by
            rw [recordTransfer, hkind]
          rw [hrec, horig, List.filter_cons_of_pos hcounts, bytes_cons]
          refine ⟨by omega, ?_⟩
          by_cases hmem : t.srcId ∈ l.origins
          · rw [if_pos hmem, List.filter_cons_of_pos (by simp [Transfer.crosses, hkind, hmem]),
              bytes_cons]
            omega
          · rw [if_neg hmem, List.filter_cons_of_neg (by simp [Transfer.crosses, hmem])]

/-- **The edges after any transfers**: the gets that moved something, in order. -/
theorem recorded_edges (ts : List Transfer) : ∀ l : Ledger ω,
    (ts.foldl (fun l t => l.recordTransfer t) l).edges
      = l.edges ++ (ts.filter fun t => t.counts && decide (0 < t.nbytes)).map
          fun t => (t.srcId, t.dstId, t.dstId) := by
  induction ts with
  | nil =>
      intro l
      rw [List.foldl_nil, List.filter_nil, List.map_nil, List.append_nil]
  | cons t ts ih =>
      intro l
      rw [List.foldl_cons, ih]
      cases hkind : t.kind with
      | put =>
          have hcounts : t.counts = false := by simp [Transfer.counts, hkind]
          have hsame : l.recordTransfer t = l := by rw [recordTransfer, hkind]
          rw [hsame, List.filter_cons_of_neg (by simp [hcounts])]
      | get =>
          have hcounts : t.counts = true := by simp [Transfer.counts, hkind]
          have hrec : (l.recordTransfer t).edges = if 0 < t.nbytes
              then l.edges ++ [(t.srcId, t.dstId, t.dstId)] else l.edges := by
            rw [recordTransfer, hkind]
          rw [hrec]
          by_cases hpos : 0 < t.nbytes
          · rw [if_pos hpos, List.filter_cons_of_pos (by simp [hcounts, hpos]), List.map_cons,
              List.append_assoc, List.singleton_append]
          · rw [if_neg hpos, List.filter_cons_of_neg (by simp [hpos])]

/-! ## §3. Aggregations. -/

/-- `select`. -/
def select (p : ω → Bool) (l : Ledger ω) : List ω := l.rows.filter p

/-- `total`. -/
def total (attr : ω → ℚ) (p : ω → Bool) (l : Ledger ω) : ℚ := ((l.select p).map attr).sum

/-- `mean`, `0.0` when there are no rows. -/
def mean (attr : ω → ℚ) (p : ω → Bool) (l : Ledger ω) : ℚ :=
  if l.select p = [] then 0 else ((l.select p).map attr).sum / (l.select p).length

/-- `int` of a number, towards zero. -/
def truncate (q : ℚ) : ℤ := q.num.tdiv q.den

/-- Subscription: a negative index counts from the end. -/
def index (xs : List ℚ) (i : ℤ) : Option ℚ :=
  if 0 ≤ i then xs[i.toNat]? else if 0 ≤ i + xs.length then xs[(i + xs.length).toNat]? else none

/-- `_percentile`. -/
def percentileOf (values : List ℚ) (pct : ℚ) : Option ℚ :=
  let ordered := values.insertionSort (· ≤ ·)
  if ordered = [] then some 0
  else index ordered (min (ordered.length - 1) (truncate (pct / 100 * ordered.length)))

/-- `percentile`. -/
def percentile (attr : ω → ℚ) (pct : ℚ) (p : ω → Bool) (l : Ledger ω) : Option ℚ :=
  percentileOf ((l.select p).map attr) pct

/-- `count`. -/
def count (p : ω → Bool) (l : Ledger ω) : ℕ := l.rows.countP p

/-- `fraction`. -/
def fraction (p among : ω → Bool) (empty : ℚ) (l : Ledger ω) : ℚ :=
  if l.select among = [] then empty else (l.select among).countP p / (l.select among).length

/-! ## §4. What a percentile is. -/

theorem truncate_eq_floor {q : ℚ} (h : 0 ≤ q) : truncate q = ⌊q⌋ := by
  unfold truncate
  rw [Rat.floor_def', Int.tdiv_eq_ediv_of_nonneg (Rat.num_nonneg.mpr h)]

/-- In a sorted list no more than the ones before it are below an element. -/
theorem countP_lt_le {xs : List ℚ} (h : xs.Pairwise (· ≤ ·)) {i : ℕ} {v : ℚ}
    (hv : xs[i]? = some v) : xs.countP (fun x => decide (x < v)) ≤ i := by
  have hsplit := List.take_append_drop i xs
  rw [← hsplit, List.countP_append]
  have htake : (xs.take i).countP (fun x => decide (x < v)) ≤ i :=
    List.countP_le_length.trans (List.length_take_le i xs)
  have hdrop : (xs.drop i).countP (fun x => decide (x < v)) = 0 := by
    rw [List.countP_eq_zero]
    intro x hx
    obtain ⟨k, hk⟩ := List.mem_iff_getElem?.mp hx
    rw [List.getElem?_drop] at hk
    rw [decide_eq_true_eq, not_lt]
    obtain ⟨hi, rfl⟩ := List.getElem?_eq_some_iff.mp hv
    obtain ⟨hik, rfl⟩ := List.getElem?_eq_some_iff.mp hk
    exact h.rel_get_of_le (a := ⟨i, hi⟩) (b := ⟨i + k, hik⟩) (Nat.le_add_right i k)
  omega

/-- In a sorted list an element and the ones before it are at or below it. -/
theorem lt_countP_le {xs : List ℚ} (h : xs.Pairwise (· ≤ ·)) {i : ℕ} {v : ℚ}
    (hv : xs[i]? = some v) : i + 1 ≤ xs.countP (fun x => decide (x ≤ v)) := by
  obtain ⟨hi, rfl⟩ := List.getElem?_eq_some_iff.mp hv
  have hall : (xs.take (i + 1)).countP (fun x => decide (x ≤ xs[i])) = i + 1 := by
    rw [List.countP_eq_length.mpr, List.length_take_of_le hi]
    intro x hx
    obtain ⟨k, hk⟩ := List.mem_iff_getElem?.mp hx
    obtain ⟨hlt, rfl⟩ := List.getElem?_eq_some_iff.mp hk
    rw [List.length_take_of_le hi] at hlt
    rw [decide_eq_true_eq, List.getElem_take]
    exact h.rel_get_of_le (a := ⟨k, by omega⟩) (b := ⟨i, hi⟩) (Nat.le_of_lt_succ hlt)
  calc i + 1 = (xs.take (i + 1)).countP (fun x => decide (x ≤ xs[i])) := hall.symm
    _ ≤ xs.countP (fun x => decide (x ≤ xs[i])) := (List.take_sublist _ _).countP_le

/-- **A percentile is one**: an observed value, with no more than that share of the
rows below it, and at least that share at or below it. -/
theorem percentile_ranks {values : List ℚ} (hne : values ≠ []) {pct : ℚ} (hlow : 0 ≤ pct)
    (hhigh : pct ≤ 100) : ∃ v, percentileOf values pct = some v ∧ v ∈ values ∧
      (values.countP (fun x => decide (x < v)) : ℚ) ≤ pct / 100 * values.length ∧
      pct / 100 * values.length ≤ values.countP (fun x => decide (x ≤ v)) := by
  have hperm := List.perm_insertionSort (· ≤ ·) values
  have hsorted := List.pairwise_insertionSort (· ≤ ·) values
  unfold percentileOf
  simp only
  generalize values.insertionSort (· ≤ ·) = ordered at hperm hsorted ⊢
  have hlen : ordered.length = values.length := hperm.length_eq
  have hpos : 0 < ordered.length := by
    rw [hlen]
    exact List.length_pos_iff.mpr hne
  have hnonneg : 0 ≤ pct / 100 * ordered.length := by positivity
  have hfloor : 0 ≤ ⌊pct / 100 * (ordered.length : ℚ)⌋ := Int.floor_nonneg.mpr hnonneg
  rw [if_neg (List.length_pos_iff.mp hpos), truncate_eq_floor hnonneg]
  -- the index is a place in the list
  obtain ⟨i, hi⟩ : ∃ i : ℕ, min ((ordered.length : ℤ) - 1) ⌊pct / 100 * (ordered.length : ℚ)⌋ = i :=
    ⟨_, (Int.toNat_of_nonneg (le_min (by omega) hfloor)).symm⟩
  have hlt : i < ordered.length := by omega
  have hget : ordered[i]? = some ordered[i] := List.getElem?_eq_getElem hlt
  refine ⟨ordered[i], ?_, hperm.mem_iff.mp (List.getElem_mem hlt), ?_, ?_⟩
  · rw [hi]
    unfold index
    rw [if_pos (Int.natCast_nonneg i), Int.toNat_natCast, hget]
  · have hbelow := countP_lt_le hsorted hget
    have hfl : (i : ℤ) ≤ ⌊pct / 100 * (ordered.length : ℚ)⌋ := by omega
    rw [← hperm.countP_eq, ← hlen]
    calc ((ordered.countP fun x => decide (x < ordered[i]) : ℕ) : ℚ) ≤ (i : ℚ) := by
          exact_mod_cast hbelow
      _ ≤ pct / 100 * ordered.length := by exact_mod_cast Int.le_floor.mp hfl
  · have habove := lt_countP_le hsorted hget
    rw [← hperm.countP_eq, ← hlen]
    have hnext : pct / 100 * ordered.length ≤ ((i + 1 : ℕ) : ℚ) := by
      rcases le_or_gt ((ordered.length : ℤ) - 1) ⌊pct / 100 * (ordered.length : ℚ)⌋ with hle | hgt
      · -- the last element: a share of all is no more than all
        have hi' : i + 1 = ordered.length := by omega
        rw [hi']
        have hshare : pct / 100 ≤ 1 := by linarith
        exact mul_le_of_le_one_left (by positivity) hshare
      · have hi' : ⌊pct / 100 * (ordered.length : ℚ)⌋ = i := by omega
        have hflt := Int.lt_floor_add_one (pct / 100 * (ordered.length : ℚ))
        rw [hi'] at hflt
        push_cast at hflt ⊢
        exact hflt.le
    exact hnext.trans (by exact_mod_cast habove)

end Ledger

end Toso.SimCommon.Report
