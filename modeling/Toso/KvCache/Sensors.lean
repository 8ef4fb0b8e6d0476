/-
  Toso.KvCache.Sensors — the facts a routing decision reads, and what moves them.

  Four sensors, each a fold over the actions dispatched to it.  `ι` is the type
  of the run's instances, so a mapping keyed by every instance from the start is
  a function on it.

  Main results:
    * `peer_eq`, `answered_pending` — the memo a fetch is answered from is the
      first that matches, and the one its answer spends.
    * `pending_prefillFinished` — a report drops nothing a later read offers.
-/
import Toso.KvCache.Answer
import Mathlib.Data.List.Basic
import Mathlib.Logic.Function.Basic

namespace Toso.KvCache

variable {ι κ : Type*}

/-! ## §1. The actions. -/

/-- What is dispatched: by the scheduler (`committed`, `fetchAnswered`) and by the
hosts. -/
inductive Action (ι κ : Type*)
  /-- Prefill really finished on `inst` at this clock. -/
  | prefillFinished (inst : ι) (now : ℚ)
  /-- `requester` was told which peers serve its fetch of `keys`. -/
  | fetchAnswered (requester : ι) (keys : List κ)
  /-- An accepted decision. -/
  | committed (response : Response ι κ) (outputTokens : ℤ)
  /-- A decode step occupied a coupled instance's compute. -/
  | computeBusy (inst : ι) (busyUntil : ℚ)
  /-- The live decode batch, one estimated finish time per request. -/
  | decodeState (inst : ι) (finishes : List ℚ)
  deriving DecidableEq

/-! ## §2. Prefills promised and not yet finished. -/

/-- `Reservation`: a committed prefill, and the decode it will join. -/
structure Reservation (ι : Type*) where
  prefillDone : ℚ
  decodeId : ι
  outputTokens : ℤ
  deriving DecidableEq

/-- `ReservationSensor`. -/
structure ReservationSensor (ι : Type*) where
  held : List (Reservation ι)

/-- The reservation an accepted decision stands for. -/
def Response.reservation (r : Response ι κ) (outputTokens : ℤ) : Reservation ι :=
  ⟨r.plan.doneTime, r.decode, outputTokens⟩

namespace ReservationSensor

/-- `_committed` and `_prefill_finished`. -/
def fold (s : ReservationSensor ι) : Action ι κ → ReservationSensor ι
  | .committed response outputTokens => ⟨s.held ++ [response.reservation outputTokens]⟩
  | .prefillFinished _ now => ⟨s.held.filter fun r => now ≤ r.prefillDone⟩
  | _ => s

/-- `pending`: the reservations whose prefill has not completed as of `now`. -/
def pending (s : ReservationSensor ι) (now : ℚ) : List (Reservation ι) :=
  s.held.filter fun r => now ≤ r.prefillDone

/-- **A report drops nothing a later read offers.** -/
theorem pending_prefillFinished (s : ReservationSensor ι) (inst : ι) {seen now : ℚ}
    (h : seen ≤ now) :
    (s.fold (.prefillFinished inst seen : Action ι κ)).pending now = s.pending now := by
  unfold fold pending
  rw [List.filter_filter]
  apply List.filter_congr
  intro r _
  simp only [Bool.and_eq_left_iff_imp, decide_eq_true_eq]
  intro hr
  exact h.trans hr

end ReservationSensor

/-! ## §3. Pulls priced against a chosen peer. -/

/-- One routed pull: who will fetch, exactly which keys, and from whom. -/
structure Memo (ι κ : Type*) where
  inst : ι
  planned : List κ
  peer : ι
  deriving DecidableEq

/-- `set(keys) == set(planned)`. -/
def SameKeys (keys planned : List κ) : Prop :=
  (∀ k ∈ keys, k ∈ planned) ∧ ∀ k ∈ planned, k ∈ keys

instance [DecidableEq κ] (keys planned : List κ) : Decidable (SameKeys keys planned) :=
  inferInstanceAs (Decidable (_ ∧ _))

/-- The memo an accepted decision leaves, if its plan priced a pull. -/
def Response.memo (r : Response ι κ) : Option (Memo ι κ) :=
  match r.plan.reuseSource with
  | some source => if r.plan.pullKeys = [] then none
      else some ⟨r.prefill, r.plan.pullKeys, source⟩
  | none => none

/-- What a memo records: the plan's own host, keys and source. -/
theorem Response.memo_eq_some {r : Response ι κ} {m : Memo ι κ} (h : r.memo = some m) :
    m.inst = r.prefill ∧ m.planned = r.plan.pullKeys ∧ r.plan.reuseSource = some m.peer ∧
      r.plan.pullKeys ≠ [] := by
  unfold Response.memo at h
  cases hs : r.plan.reuseSource with
  | none =>
      rw [hs] at h
      cases h
  | some source =>
      simp only [hs] at h
      by_cases hk : r.plan.pullKeys = []
      · rw [if_pos hk] at h
        cases h
      · rw [if_neg hk, Option.some.injEq] at h
        subst h
        exact ⟨rfl, rfl, rfl, hk⟩

/-- `RoutedPullSensor`. -/
structure RoutedPullSensor (ι κ : Type*) where
  pending : List (Memo ι κ)

/-- The test `_match` makes of one memo. -/
def Memo.Matches (requester : ι) (keys : List κ) (m : Memo ι κ) : Prop :=
  m.inst = requester ∧ SameKeys keys m.planned

section

variable [DecidableEq ι] [DecidableEq κ]

instance (requester : ι) (keys : List κ) : DecidablePred (Memo.Matches requester keys) :=
  fun m => inferInstanceAs (Decidable (m.inst = requester ∧ SameKeys keys m.planned))

namespace RoutedPullSensor

/-- `_match`: where `requester`'s pull of exactly `keys` sits, oldest first. -/
def matchAt (s : RoutedPullSensor ι κ) (requester : ι) (keys : List κ) : Option ℕ :=
  s.pending.findIdx? fun m => decide (m.Matches requester keys)

/-- `peer`: who `requester`'s pull of `keys` was priced against. -/
def peer (s : RoutedPullSensor ι κ) (requester : ι) (keys : List κ) : Option ι :=
  match s.matchAt requester keys with
  | none => none
  | some found => s.pending[found]?.map Memo.peer

/-- `_committed` and `_answered`. -/
def fold (s : RoutedPullSensor ι κ) : Action ι κ → RoutedPullSensor ι κ
  | .committed response _ => ⟨s.pending ++ response.memo.toList⟩
  | .fetchAnswered requester keys =>
      match s.matchAt requester keys with
      | none => s
      | some found => ⟨s.pending.eraseIdx found⟩
  | _ => s

/-- The peer an answer reads is the first matching memo's. -/
theorem peer_eq (s : RoutedPullSensor ι κ) (requester : ι) (keys : List κ) :
    s.peer requester keys =
      (s.pending.find? fun m => decide (m.Matches requester keys)).map Memo.peer := by
  unfold peer matchAt
  rw [List.find?_eq_bind_findIdx?_getElem?]
  cases s.pending.findIdx? fun m => decide (m.Matches requester keys) <;> rfl

/-- The memo an answer spends is the one it was read from. -/
theorem answered_pending (s : RoutedPullSensor ι κ) (requester : ι) (keys : List κ) :
    (s.fold (.fetchAnswered requester keys)).pending =
      s.pending.eraseP fun m => decide (m.Matches requester keys) := by
  rw [List.eraseP_eq_eraseIdx]
  cases h : s.pending.findIdx? (fun m => decide (m.Matches requester keys)) <;>
    simp only [fold, matchAt, h]

end RoutedPullSensor

/-! ## §4. The cluster as control sees it. -/

/-- `ClusterSensor`: the predicted prefill queues and observed decode batches. -/
structure ClusterSensor (ι : Type*) where
  busyUntil : ι → ℚ
  decodeFinishes : ι → List ℚ

namespace ClusterSensor

/-- Nothing promised and nothing reported. -/
def new : ClusterSensor ι := ⟨fun _ => 0, fun _ => []⟩

/-- `_compute_busy`, `_decode_state`, `_prefill_finished` and `_committed`. -/
def fold (s : ClusterSensor ι) : Action ι κ → ClusterSensor ι
  | .computeBusy inst busyUntil =>
      { s with busyUntil := Function.update s.busyUntil inst busyUntil }
  | .decodeState inst finishes =>
      { s with decodeFinishes := Function.update s.decodeFinishes inst finishes }
  | .prefillFinished inst now =>
      -- raises the tail, never lowers it
      if s.busyUntil inst < now then
        { s with busyUntil := Function.update s.busyUntil inst now }
      else s
  | .committed response _ =>
      { s with
        busyUntil := Function.update s.busyUntil response.prefill response.plan.doneTime }
  | .fetchAnswered _ _ => s

omit [DecidableEq κ] in
/-- Only a batch report moves what is observed. -/
theorem fold_decodeFinishes (s : ClusterSensor ι) {action : Action ι κ}
    (h : ∀ inst finishes, action ≠ .decodeState inst finishes) :
    (s.fold action).decodeFinishes = s.decodeFinishes := by
  cases action with
  | decodeState inst finishes => exact absurd rfl (h inst finishes)
  | prefillFinished inst now =>
      by_cases hlt : s.busyUntil inst < now
      · simp only [fold, if_pos hlt]
      · simp only [fold, if_neg hlt]
  | _ => rfl

/-- `occupancy`. -/
def occupancy (s : ClusterSensor ι) (inst : ι) : ℕ := (s.decodeFinishes inst).length

/-- `predict_occupancy`: how many are estimated to still be decoding. -/
def predictOccupancy (s : ClusterSensor ι) (inst : ι) (atT : ℚ) : ℕ :=
  (s.decodeFinishes inst).countP fun f => atT < f

end ClusterSensor

/-! ## §5. How much was sent at each source. -/

/-- `SourceLoad`: per volume, the decisions that named it. -/
structure SourceLoad (ι : Type*) where
  named : ι → ℕ

/-- `_committed`. -/
def SourceLoad.fold (s : SourceLoad ι) : Action ι κ → SourceLoad ι
  | .committed response _ =>
      match response.plan.reuseSource with
      | some source => ⟨Function.update s.named source (s.named source + 1)⟩
      | none => s
  | _ => s

end

end Toso.KvCache
