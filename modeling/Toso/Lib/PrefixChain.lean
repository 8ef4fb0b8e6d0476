/-
  Toso.Lib.PrefixChain — keys that contain everything before them.

  A chain continues a key by segments, each key joining the one before it to its own
  segment.  Where joining can be undone and every join is one deeper, a key tells the
  segments that lead to it: two chains from one root share what their segments share,
  and nothing else.

  Main results:
    * `chain_append` — continuing a chain is appending to its segments.
    * `chain_position` — a key stands at one position only.
    * `eq_of_foldl_join` — the last key tells all the segments.
    * `shares_chain` — two chains share the segments they have in common.
-/
import Mathlib.Data.List.Induction
import Mathlib.Order.Basic

namespace Lib

variable {κ σ : Type*}

/-! ## §1. Chains. -/

/-- The chain that continues `acc` by `segments`. -/
def chain (join : κ → σ → κ) : κ → List σ → List κ
  | _, [] => []
  | acc, segment :: rest => join acc segment :: chain join (join acc segment) rest

variable {join : κ → σ → κ}

@[simp] theorem length_chain (acc : κ) (segments : List σ) :
    (chain join acc segments).length = segments.length := by
  induction segments generalizing acc with
  | nil => rfl
  | cons segment rest ih =>
      show (chain join (join acc segment) rest).length + 1 = rest.length + 1
      rw [ih]

/-- **Continuing a chain** is appending to its segments. -/
theorem chain_append (acc : κ) (segments more : List σ) :
    chain join acc (segments ++ more) =
      chain join acc segments ++ chain join (segments.foldl join acc) more := by
  induction segments generalizing acc with
  | nil => rfl
  | cons segment rest ih =>
      show join acc segment :: chain join (join acc segment) (rest ++ more) = _
      rw [ih]
      rfl

theorem take_chain (acc : κ) (segments : List σ) (n : ℕ) :
    (chain join acc segments).take n = chain join acc (segments.take n) := by
  induction segments generalizing acc n with
  | nil => simp [chain]
  | cons segment rest ih =>
      cases n with
      | zero => rfl
      | succ n =>
          show join acc segment :: (chain join (join acc segment) rest).take n = _
          rw [ih]
          rfl

/-- The last key of a chain joins all its segments. -/
theorem getLast?_chain (acc : κ) {segments : List σ} (h : segments ≠ []) :
    (chain join acc segments).getLast? = some (segments.foldl join acc) := by
  induction segments generalizing acc with
  | nil => exact absurd rfl h
  | cons segment rest ih =>
      by_cases hrest : rest = []
      · rw [hrest]
        rfl
      · have hne : chain join (join acc segment) rest ≠ [] := by
          rw [← List.length_pos_iff, length_chain]
          exact List.length_pos_iff.mpr hrest
        show (join acc segment :: chain join (join acc segment) rest).getLast? = _
        rw [List.getLast?_cons_of_ne_nil hne, ih _ hrest]
        rfl

/-- The key at a position joins the segments up to it. -/
theorem getElem?_chain {acc k : κ} {segments : List σ} {i : ℕ}
    (h : (chain join acc segments)[i]? = some k) :
    i < segments.length ∧ k = (segments.take (i + 1)).foldl join acc := by
  induction segments generalizing acc i with
  | nil => cases h
  | cons segment rest ih =>
      cases i with
      | zero => exact ⟨Nat.succ_pos _, (Option.some.inj h).symm⟩
      | succ i =>
          obtain ⟨hlt, hk⟩ := ih h
          exact ⟨Nat.succ_lt_succ hlt, hk⟩

/-! ## §2. What two chains share. -/

/-- Two lists that share their first `n`, and nothing else. -/
structure Shares (n : ℕ) (l l' : List κ) : Prop where
  within : n ≤ l.length
  within' : n ≤ l'.length
  agree : l.take n = l'.take n
  only : ∀ k ∈ l, k ∈ l' → k ∈ l.take n

theorem Shares.symm {n : ℕ} {l l' : List κ} (h : Shares n l l') : Shares n l' l where
  within := h.within'
  within' := h.within
  agree := h.agree.symm
  only k hk hk' := by
    rw [← h.agree]
    exact h.only k hk' hk

section Separated

variable {depth : κ → ℕ} (hinj : ∀ a b s t, join a s = join b t → a = b ∧ s = t)
  (hdepth : ∀ a s, depth (join a s) = depth a + 1)

theorem depth_foldl (hdepth : ∀ a s, depth (join a s) = depth a + 1) (acc : κ)
    (segments : List σ) : depth (segments.foldl join acc) = depth acc + segments.length := by
  induction segments generalizing acc with
  | nil => rfl
  | cons segment rest ih =>
      rw [List.foldl_cons, ih, hdepth, List.length_cons]
      omega

/-- **A key stands at one position only**, whatever chain it is in. -/
theorem chain_position (hdepth : ∀ a s, depth (join a s) = depth a + 1) {acc k : κ}
    {segments segments' : List σ} {i j : ℕ} (hi : (chain join acc segments)[i]? = some k)
    (hj : (chain join acc segments')[j]? = some k) : i = j := by
  obtain ⟨hlt, hk⟩ := getElem?_chain hi
  obtain ⟨hlt', hk'⟩ := getElem?_chain hj
  have hdi := depth_foldl hdepth acc (segments.take (i + 1))
  have hdj := depth_foldl hdepth acc (segments'.take (j + 1))
  rw [← hk, List.length_take] at hdi
  rw [← hk', List.length_take] at hdj
  omega

/-- **Segments of one number that join to one key are the same**, where joining can be
undone along the two lists. -/
theorem eq_of_foldl_join {acc : κ} {segments segments' : List σ}
    (hlen : segments.length = segments'.length)
    (hundo : ∀ i s t, segments[i]? = some s → segments'[i]? = some t →
      join ((segments.take i).foldl join acc) s = join ((segments'.take i).foldl join acc) t →
        (segments.take i).foldl join acc = (segments'.take i).foldl join acc ∧ s = t)
    (h : segments.foldl join acc = segments'.foldl join acc) : segments = segments' := by
  induction segments using List.reverseRecOn generalizing segments' with
  | nil => exact (List.eq_nil_of_length_eq_zero hlen.symm).symm
  | append_singleton rest segment ih =>
      cases segments' using List.reverseRecOn with
      | nil => simp at hlen
      | append_singleton rest' segment' =>
          rw [List.length_append, List.length_append] at hlen
          have hlen' : rest.length = rest'.length := Nat.add_right_cancel hlen
          -- the last segments come apart, and then the ones before them
          have htake : (rest ++ [segment]).take rest.length = rest := List.take_left
          have htake' : (rest' ++ [segment']).take rest.length = rest' := by
            rw [hlen']
            exact List.take_left
          have hlast := hundo rest.length segment segment' List.getElem?_concat_length
            (by rw [hlen', List.getElem?_concat_length])
          rw [htake, htake'] at hlast
          rw [List.foldl_append, List.foldl_append] at h
          obtain ⟨hacc, hseg⟩ := hlast h
          rw [ih hlen' ?_ hacc, hseg]
          intro i s t hs ht
          have hi : i < rest.length := (List.getElem?_eq_some_iff.mp hs).1
          have hbefore := hundo i s t (by rw [List.getElem?_append_left hi, hs])
            (by rw [List.getElem?_append_left (hlen' ▸ hi), ht])
          rwa [List.take_append_of_le_length (by omega),
            List.take_append_of_le_length (by omega)] at hbefore

/-- Segments of one number that join to one key are the same. -/
theorem foldl_join_inj (hinj : ∀ a b s t, join a s = join b t → a = b ∧ s = t) (acc : κ)
    {segments segments' : List σ} (hlen : segments.length = segments'.length)
    (h : segments.foldl join acc = segments'.foldl join acc) : segments = segments' :=
  eq_of_foldl_join hlen (fun _ s t _ _ => hinj _ _ s t) h

include hinj hdepth in
/-- **Two chains share what their segments share**: the first `n`, where they agree so far
and part there, or one of them ends. -/
theorem shares_chain (acc : κ) {segments segments' : List σ} {n : ℕ} (hn : n ≤ segments.length)
    (hn' : n ≤ segments'.length) (hagree : segments.take n = segments'.take n)
    (hpart : ∀ s s', segments[n]? = some s → segments'[n]? = some s' → s ≠ s') :
    Shares n (chain join acc segments) (chain join acc segments') where
  within := by rwa [length_chain]
  within' := by rwa [length_chain]
  agree := by rw [take_chain, take_chain, hagree]
  only k hk hk' := by
    obtain ⟨i, hi⟩ := List.mem_iff_getElem?.mp hk
    obtain ⟨j, hj⟩ := List.mem_iff_getElem?.mp hk'
    obtain rfl := chain_position hdepth hi hj
    obtain ⟨hlt, hki⟩ := getElem?_chain hi
    obtain ⟨hlt', hkj⟩ := getElem?_chain hj
    -- the segments up to the key are the same, so they had not parted yet
    have hsame : segments.take (i + 1) = segments'.take (i + 1) := by
      refine foldl_join_inj hinj acc ?_ (hki.symm.trans hkj)
      rw [List.length_take, List.length_take]
      omega
    have hin : i < n := by
      by_contra hge
      have hget : ∀ l : List σ, (l.take (i + 1))[n]? = l[n]? := fun l => by
        rw [List.getElem?_take_of_lt (by omega)]
      have hlen : n < segments.length := by omega
      have hs : segments[n]? = some segments[n] := List.getElem?_eq_getElem hlen
      have hs' : segments'[n]? = some segments[n] := by
        rw [← hget segments', ← hsame, hget segments, hs]
      exact hpart _ _ hs hs' rfl
    refine List.mem_iff_getElem?.mpr ⟨i, ?_⟩
    rw [List.getElem?_take_of_lt hin, hi]

end Separated

end Lib
