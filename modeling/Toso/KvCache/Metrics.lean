/-
  Toso.KvCache.Metrics — the rows two hosts and a client write between them.

  The prefill host, or the host that refused, opens a request's row; the decode
  host and the client amend it, by the request's id.  A report on a request nobody
  opened raises.

  Main results:
    * `row?_add`, `row?_amend` — a report changes the row of its own request.
    * `amended_of_row` — a report on an opened request never raises.
    * `Distinct.nodup` — one row for each id, while no id is opened twice.
    * `adds_up` — what the aggregations come to, where each row's tokens add up.
-/
import Toso.KvCache.Prefill
import Toso.SimCommon.Ledger
import Toso.Lib.Dict

namespace Toso.KvCache

open Lib SimCommon

variable {ν ι κ : Type*}

/-! ## §1. The rows. -/

/-- `RequestResult`, the three halves of it together. -/
structure RequestResult (ν ι : Type*) where
  id : ν
  accepted : Bool
  ttft : ℚ
  promptTokens : ℕ
  cachedTokens : ℕ
  uncachedTokens : ℕ
  transferBytes : ℕ
  prefill : Option ι
  reuseSource : Option ι
  /-- The worst gap between two tokens of its decode. -/
  tbt : ℚ
  published : Bool
  predictedQueueWait : ℚ
  queueWait : ℚ
  decode : Option ι
  handoffBytes : ℕ
  handoffMissed : Bool
  /-- The blocks it left on its decode host. -/
  decodeBlocks : ℕ
  decodeUnpublished : Bool
  latency : ℚ
  /-- The tokens the client counted. -/
  outputTokens : ℕ

namespace RequestResult

/-- The row of a refused request: the defaults. -/
def rejected (request : Request ν κ) : RequestResult ν ι where
  id := request.id
  accepted := false
  ttft := 0
  promptTokens := request.promptTokens
  cachedTokens := 0
  uncachedTokens := 0
  transferBytes := 0
  prefill := none
  reuseSource := none
  tbt := 0
  published := true
  predictedQueueWait := 0
  queueWait := 0
  decode := none
  handoffBytes := 0
  handoffMissed := false
  decodeBlocks := 0
  decodeUnpublished := false
  latency := 0
  outputTokens := 0

/-- The prefill host's half, written over. -/
def fill (half : Row ν ι) (r : RequestResult ν ι) : RequestResult ν ι :=
  { r with
    ttft := half.ttft
    promptTokens := half.promptTokens
    cachedTokens := half.cachedTokens
    uncachedTokens := half.uncachedTokens
    transferBytes := half.transferBytes
    prefill := some half.prefill
    reuseSource := half.reuseSource
    predictedQueueWait := half.predictedQueueWait
    published := half.published }

/-- `accepted = True`. -/
def accept (r : RequestResult ν ι) : RequestResult ν ι := { r with accepted := true }

/-- The wait it measured, written over. -/
def wait (q : ℚ) (r : RequestResult ν ι) : RequestResult ν ι := { r with queueWait := q }

/-- The row of a request its host serves. -/
def served (request : Request ν κ) (response : Response ι κ) : RequestResult ν ι :=
  ((rejected request).fill (makeAccepted request response)).accept

end RequestResult

/-! ## §2. The collector. -/

/-- The `KeyError` of `_open`. -/
structure Unopened (ν : Type*) where
  requestId : ν
  deriving DecidableEq

/-- Its text; `repr` is what `!r` makes of an id. -/
def Unopened.text (repr : ν → String) (e : Unopened ν) : String :=
  "no outcome row open for " ++ repr e.requestId ++ ": a decode host is " ++
    "reporting on a request no prefill host recorded"

/-- `Metrics`: the ledger, and the index of its rows. -/
structure Metrics (ν ι : Type*) [DecidableEq ν] where
  ledger : Report.Ledger (RequestResult ν ι)
  byId : Dict ν ℕ
  /-- The index is over the rows. -/
  indexed : ∀ id i, byId.get? id = some i → ∃ row, ledger.rows[i]? = some row ∧ row.id = id

namespace Metrics

variable [DecidableEq ν] (m : Metrics ν ι)

/-- Nothing was reported yet. -/
def new (origins : List String) : Metrics ν ι where
  ledger := .new origins
  byId := Dict.empty
  indexed _ _ h := by cases h

/-- `add`. -/
def add (row : RequestResult ν ι) : Metrics ν ι where
  ledger := m.ledger.add row
  byId := m.byId.set row.id m.ledger.rows.length
  indexed id i h := by
    show ∃ r, (m.ledger.rows ++ [row])[i]? = some r ∧ r.id = id
    rcases Dict.get?_set_cases h with ⟨rfl, rfl⟩ | ⟨_, hold⟩
    · exact ⟨row, by simp, rfl⟩
    · obtain ⟨r, hr, hid⟩ := m.indexed id i hold
      have hlt : i < m.ledger.rows.length := (List.getElem?_eq_some_iff.mp hr).1
      exact ⟨r, by rw [List.getElem?_append_left hlt]; exact hr, hid⟩

/-- The row an id was opened with, as it is now. -/
def row? (id : ν) : Option (RequestResult ν ι) :=
  (m.byId.get? id).bind fun i => m.ledger.rows[i]?

/-- `_open`, and what is written through it; `f` leaves the id alone. -/
def amend (id : ν) (f : RequestResult ν ι → RequestResult ν ι) (hf : ∀ r, (f r).id = r.id) :
    Except (Unopened ν) (Metrics ν ι) :=
  match m.byId.get? id with
  | none => .error ⟨id⟩
  | some i => .ok
      { m with
        ledger := { m.ledger with rows := m.ledger.rows.modify i f }
        indexed := by
          intro x j hx
          obtain ⟨row, hrow, rfl⟩ := m.indexed x j hx
          show ∃ r, (m.ledger.rows.modify i f)[j]? = some r ∧ r.id = row.id
          rw [List.getElem?_modify, hrow]
          by_cases hij : i = j
          · exact ⟨f row, by simp [hij], hf row⟩
          · exact ⟨row, by simp [hij], rfl⟩ }

/-- `handed_off`. -/
def handedOff (id : ν) (decode : ι) (nbytes : ℕ) (missed : Bool) :
    Except (Unopened ν) (Metrics ν ι) :=
  m.amend id (fun r => { r with
    decode := some decode, handoffBytes := nbytes, handoffMissed := missed }) fun _ => rfl

/-- `decode_resident`: what is kept accumulates, what is refused is flagged. -/
def decodeResident (id : ν) (blocks : ℕ) (published : Bool) :
    Except (Unopened ν) (Metrics ν ι) :=
  m.amend id (fun r => if published then { r with decodeBlocks := r.decodeBlocks + blocks }
    else { r with decodeUnpublished := true }) fun r => by
      cases published with
      | true => rfl
      | false => rfl

/-- `decoded`. -/
def decoded (id : ν) (tbt : ℚ) : Except (Unopened ν) (Metrics ν ι) :=
  m.amend id (fun r => { r with tbt := tbt }) fun _ => rfl

/-- `completed`. -/
def completed (id : ν) (latency : ℚ) (outputTokens : ℕ) : Except (Unopened ν) (Metrics ν ι) :=
  m.amend id (fun r => { r with latency := latency, outputTokens := outputTokens }) fun _ => rfl

/-- What the prefill host writes into the row it holds. -/
def filled (id : ν) (half : Row ν ι) : Except (Unopened ν) (Metrics ν ι) :=
  m.amend id (RequestResult.fill half) fun _ => rfl

/-- The same, with the wait it measured. -/
def waited (id : ν) (half : Row ν ι) (queueWait : ℚ) : Except (Unopened ν) (Metrics ν ι) :=
  m.amend id (fun r => (r.fill half).wait queueWait) fun _ => rfl

/-! ## §3. What a report changes. -/

variable {m}

theorem row?_id {id : ν} {row : RequestResult ν ι} (h : m.row? id = some row) : row.id = id := by
  obtain ⟨i, hi, hrow⟩ := Option.bind_eq_some_iff.mp h
  obtain ⟨r, hr, hid⟩ := m.indexed id i hi
  rw [hr] at hrow
  cases hrow
  exact hid

theorem isSome_row? (id : ν) : (m.row? id).isSome = (m.byId.get? id).isSome := by
  unfold row?
  cases hi : m.byId.get? id with
  | none => rfl
  | some i =>
      obtain ⟨row, hrow, _⟩ := m.indexed id i hi
      rw [Option.bind_some, hrow]
      rfl

/-- **A new row** is its own id's, and the other ids keep theirs. -/
theorem row?_add (row : RequestResult ν ι) (id : ν) :
    (m.add row).row? id = if row.id = id then some row else m.row? id := by
  show ((m.byId.set row.id m.ledger.rows.length).get? id).bind
    (fun i => (m.ledger.rows ++ [row])[i]?) = _
  rw [Dict.get?_set]
  by_cases hid : row.id = id
  · rw [if_pos hid, if_pos hid]
    simp
  · rw [if_neg hid, if_neg hid]
    unfold row?
    cases hi : m.byId.get? id with
    | none => rfl
    | some i =>
        obtain ⟨r, hr, _⟩ := m.indexed id i hi
        have hlt : i < m.ledger.rows.length := (List.getElem?_eq_some_iff.mp hr).1
        rw [Option.bind_some, Option.bind_some, List.getElem?_append_left hlt]

/-- **A report** is written into the row of its own request, where there is one. -/
theorem row?_amend {id : ν} {f : RequestResult ν ι → RequestResult ν ι}
    {hf : ∀ r, (f r).id = r.id} {m' : Metrics ν ι} (h : m.amend id f hf = .ok m') (x : ν) :
    m'.row? x = if id = x then (m.row? x).map f else m.row? x := by
  unfold amend at h
  cases hi : m.byId.get? id with
  | none =>
      rw [hi] at h
      cases h
  | some i =>
      rw [hi] at h
      obtain rfl := Except.ok.inj h
      show (m.byId.get? x).bind (fun j => (m.ledger.rows.modify i f)[j]?) = _
      unfold row?
      cases hj : m.byId.get? x with
      | none => simp
      | some j =>
          rw [Option.bind_some, Option.bind_some, List.getElem?_modify]
          by_cases hx : id = x
          · rw [if_pos hx]
            subst hx
            obtain rfl := Option.some.inj (hi.symm.trans hj)
            simp
          · -- two ids are never indexed at one place
            have hij : i ≠ j := by
              rintro rfl
              obtain ⟨r, hr, hrid⟩ := m.indexed id i hi
              obtain ⟨r', hr', hrid'⟩ := m.indexed x i hj
              rw [hr] at hr'
              cases hr'
              exact hx (hrid.symm.trans hrid')
            rw [if_neg hx]
            simp [hij]

/-- A report on an opened request does not raise. -/
theorem amend_ok {id : ν} {row : RequestResult ν ι} (h : m.row? id = some row)
    (f : RequestResult ν ι → RequestResult ν ι) (hf : ∀ r, (f r).id = r.id) :
    ∃ m', m.amend id f hf = .ok m' := by
  have hsome := isSome_row? (m := m) id
  rw [h] at hsome
  obtain ⟨i, hi⟩ := Option.isSome_iff_exists.mp hsome.symm
  unfold amend
  rw [hi]
  exact ⟨_, rfl⟩

theorem ids_amend {id : ν} {f : RequestResult ν ι → RequestResult ν ι}
    {hf : ∀ r, (f r).id = r.id} {m' : Metrics ν ι} (h : m.amend id f hf = .ok m') :
    m'.ledger.rows.map RequestResult.id = m.ledger.rows.map RequestResult.id ∧
      m'.byId = m.byId := by
  unfold amend at h
  cases hi : m.byId.get? id with
  | none =>
      rw [hi] at h
      cases h
  | some i =>
      rw [hi] at h
      obtain rfl := Except.ok.inj h
      refine ⟨?_, rfl⟩
      show (m.ledger.rows.modify i f).map RequestResult.id = _
      apply List.ext_getElem?
      intro j
      rw [List.getElem?_map, List.getElem?_modify, List.getElem?_map]
      cases m.ledger.rows[j]? with
      | none => rfl
      | some r =>
          by_cases hij : i = j
          · simp [hij, hf]
          · simp [hij]

/-! ## §4. One row for each id. -/

/-- Every row is the one its id was opened with. -/
def Distinct (m : Metrics ν ι) : Prop :=
  ∀ i row, m.ledger.rows[i]? = some row → m.byId.get? row.id = some i

theorem distinct_new (origins : List String) : (new origins : Metrics ν ι).Distinct := by
  intro i row hrow
  cases (List.getElem?_nil).symm.trans hrow

theorem Distinct.add (h : m.Distinct) {row : RequestResult ν ι} (hnew : m.row? row.id = none) :
    (m.add row).Distinct := by
  intro i r hr
  show (m.byId.set row.id m.ledger.rows.length).get? r.id = some i
  change (m.ledger.rows ++ [row])[i]? = some r at hr
  rcases Nat.lt_or_ge i m.ledger.rows.length with hlt | hge
  · rw [List.getElem?_append_left hlt] at hr
    have hi := h i r hr
    have hne : row.id ≠ r.id := by
      intro heq
      have hsome := isSome_row? (m := m) row.id
      rw [hnew, heq, hi] at hsome
      cases hsome
    rw [Dict.get?_set_ne _ _ hne, hi]
  · rw [List.getElem?_append_right hge] at hr
    obtain ⟨hz, rfl⟩ := List.getElem?_eq_some_iff.mp hr
    have hi : i = m.ledger.rows.length := by
      rw [List.length_singleton] at hz
      omega
    rw [List.getElem_singleton, Dict.get?_set_self, hi]

theorem Distinct.amend (h : m.Distinct) {id : ν} {f : RequestResult ν ι → RequestResult ν ι}
    {hf : ∀ r, (f r).id = r.id} {m' : Metrics ν ι} (hm : m.amend id f hf = .ok m') :
    m'.Distinct := by
  obtain ⟨hids, hindex⟩ := ids_amend hm
  intro i row hrow
  have hid : (m.ledger.rows.map RequestResult.id)[i]? = some row.id := by
    rw [← hids, List.getElem?_map, hrow]
    rfl
  rw [List.getElem?_map] at hid
  obtain ⟨r, hr, hrid⟩ := Option.map_eq_some_iff.mp hid
  rw [hindex, ← hrid]
  exact h i r hr

/-- What the reports on one request, one after the other, make of its row: `f`. -/
structure Amended (m : Metrics ν ι) (id : ν) (f : RequestResult ν ι → RequestResult ν ι)
    (m' : Metrics ν ι) : Prop where
  row : ∀ x, m'.row? x = if id = x then (m.row? x).map f else m.row? x
  distinct : m.Distinct → m'.Distinct

/-- Nothing is reported. -/
theorem Amended.refl (m : Metrics ν ι) (id : ν) : m.Amended id (fun r => r) m where
  row x := by
    rw [Option.map_id']
    exact (ite_self _).symm
  distinct hd := hd

/-- **A report on an opened request** is written. -/
theorem amended_of_row {id : ν} {row : RequestResult ν ι} (h : m.row? id = some row)
    (f : RequestResult ν ι → RequestResult ν ι) (hf : ∀ r, (f r).id = r.id) :
    ∃ m', m.amend id f hf = .ok m' ∧ m.Amended id f m' := by
  obtain ⟨m', hm⟩ := amend_ok h f hf
  exact ⟨m', hm, row?_amend hm, fun hd => hd.amend hm⟩

theorem Amended.trans {m' m'' : Metrics ν ι} {id : ν} {f g : RequestResult ν ι → RequestResult ν ι}
    (h : m.Amended id f m') (h' : m'.Amended id g m'') : m.Amended id (fun r => g (f r)) m'' where
  row x := by
    rw [h'.row, h.row]
    by_cases hx : id = x
    · rw [if_pos hx, if_pos hx, if_pos hx, Option.map_map]
      rfl
    · rw [if_neg hx, if_neg hx, if_neg hx]
  distinct hd := h'.distinct (h.distinct hd)

theorem Distinct.mem_iff (h : m.Distinct) (row : RequestResult ν ι) :
    row ∈ m.ledger.rows ↔ m.row? row.id = some row := by
  rw [List.mem_iff_getElem?]
  constructor
  · rintro ⟨i, hi⟩
    rw [row?, h i row hi, Option.bind_some, hi]
  · intro hrow
    obtain ⟨i, _, hi⟩ := Option.bind_eq_some_iff.mp hrow
    exact ⟨i, hi⟩

/-- **No id has two rows.** -/
theorem Distinct.nodup (h : m.Distinct) : (m.ledger.rows.map RequestResult.id).Nodup := by
  rw [List.nodup_iff_injective_getElem]
  intro i j hij
  obtain ⟨i, hi⟩ := i
  obtain ⟨j, hj⟩ := j
  rw [List.length_map] at hi hj
  simp only [List.getElem_map] at hij
  have hone := h i _ (List.getElem?_eq_getElem hi)
  have htwo := h j _ (List.getElem?_eq_getElem hj)
  rw [hij, htwo] at hone
  exact Fin.ext (Option.some.inj hone).symm

/-! ## §5. Aggregations. -/

/-- `accepted`. -/
def accepted (m : Metrics ν ι) : List (RequestResult ν ι) :=
  m.ledger.select RequestResult.accepted

/-- `rejections`. -/
def rejections (m : Metrics ν ι) : ℕ := m.ledger.count fun r => !r.accepted

/-- `compute_tokens`. -/
def computeTokens (m : Metrics ν ι) : ℚ :=
  m.ledger.total (fun r => r.uncachedTokens) RequestResult.accepted

/-- `saved_tokens`. -/
def savedTokens (m : Metrics ν ι) : ℚ :=
  m.ledger.total (fun r => r.cachedTokens) RequestResult.accepted

/-- `hit_rate`. -/
def hitRate (m : Metrics ν ι) : ℚ :=
  let tot := m.ledger.total (fun r => r.promptTokens) RequestResult.accepted
  let cached := m.ledger.total (fun r => r.cachedTokens) RequestResult.accepted
  if tot ≠ 0 then cached / tot else 0

/-- `handoff_bytes`. -/
def handoffBytes (m : Metrics ν ι) : ℚ :=
  m.ledger.total (fun r => r.handoffBytes) RequestResult.accepted

/-- `handoff_misses`. -/
def handoffMisses (m : Metrics ν ι) : ℕ := m.ledger.count RequestResult.handoffMissed

/-- `decode_blocks`. -/
def decodeBlocks (m : Metrics ν ι) : ℚ :=
  m.ledger.total (fun r => r.decodeBlocks) RequestResult.accepted

/-- A column no larger than another, row by row, is no larger in total. -/
theorem total_le {a b : RequestResult ν ι → ℚ} {p : RequestResult ν ι → Bool}
    (h : ∀ r ∈ m.ledger.rows, p r = true → a r ≤ b r) : m.ledger.total a p ≤ m.ledger.total b p := by
  unfold Report.Ledger.total Report.Ledger.select
  apply List.sum_le_sum
  intro r hr
  obtain ⟨hmem, hp⟩ := List.mem_filter.mp hr
  exact h r hmem hp

/-- **What the aggregations come to**, where the tokens of each accepted row add up to its
prompt's: every row is accepted or rejected, every prompt token is computed or saved, and
the hit rate is a share. -/
theorem adds_up (h : ∀ r ∈ m.ledger.rows, r.accepted = true →
      r.cachedTokens + r.uncachedTokens = r.promptTokens) :
    m.accepted.length + m.rejections = m.ledger.rows.length ∧
      m.savedTokens + m.computeTokens
        = m.ledger.total (fun r => r.promptTokens) RequestResult.accepted ∧
      0 ≤ m.hitRate ∧ m.hitRate ≤ 1 := by
  have hcached : 0 ≤ m.ledger.total (fun r => (r.cachedTokens : ℚ)) RequestResult.accepted := by
    apply List.sum_nonneg
    intro q hq
    obtain ⟨r, _, rfl⟩ := List.mem_map.mp hq
    exact Nat.cast_nonneg _
  have hle : m.ledger.total (fun r => (r.cachedTokens : ℚ)) RequestResult.accepted
      ≤ m.ledger.total (fun r => (r.promptTokens : ℚ)) RequestResult.accepted := by
    apply total_le
    intro r hr hacc
    have hsum := h r hr hacc
    exact_mod_cast (by omega : r.cachedTokens ≤ r.promptTokens)
  refine ⟨?_, ?_, ?_, ?_⟩
  · show (m.ledger.rows.filter RequestResult.accepted).length
      + m.ledger.rows.countP (fun r => !r.accepted) = _
    rw [← List.countP_eq_length_filter,
      List.length_eq_countP_add_countP (fun r : RequestResult ν ι => r.accepted)]
    simp
  · unfold savedTokens computeTokens Report.Ledger.total Report.Ledger.select
    rw [← List.sum_map_add]
    congr 1
    apply List.map_congr_left
    intro r hr
    obtain ⟨hmem, hacc⟩ := List.mem_filter.mp hr
    exact_mod_cast h r hmem hacc
  · unfold hitRate
    simp only
    split
    · exact div_nonneg hcached (hcached.trans hle)
    · exact le_refl 0
  · unfold hitRate
    simp only
    split
    · exact div_le_one_of_le₀ hle (hcached.trans hle)
    · exact zero_le_one

end Metrics

end Toso.KvCache
