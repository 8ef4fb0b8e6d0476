/-
  Toso.Store.LossyMap — a volume against the map it stands for.

  To its callers a volume is a map from keys to what was last written under them,
  of which it may have lost something.  What the map says depends on the calls alone;
  what is lost, on the capacity.  A put that evicts is parked at its notification while
  other calls run, and may be refused when it resumes.

  Main results:
    * `below_next` — one step of the volume against one of the map.
    * `volume_lossy` — over every run, what the volume holds is what was last written,
      and an unbounded volume holds all of it.
-/
import Toso.Lib.Lossy
import Toso.Store.Residency

namespace Toso.Store

open Lib

variable {κ β ρ τ : Type*} [DecidableEq κ]

/-! ## §1. The map. -/

/-- What a call writes; a read, a touch and the second half of a put write nothing. -/
def writes (store : InMemoryStore κ β τ) (m : κ → Option (Stored β)) :
    Event κ τ → κ → Option (Stored β)
  | .put p => fun k => if k ∈ p.keys then (store.land Dict.empty p.requests).get? k else m k
  | .delete key => fun k => if k = key then none else m k
  | .deleteBatch keys => fun k => if k ∈ keys then none else m k
  | .reset => fun _ => none
  | .get _ | .touch _ | .resume _ => m

/-- What was last written under each key. -/
def lastWritten (store : InMemoryStore κ β τ) (es : List (Event κ τ)) : κ → Option (Stored β) :=
  es.foldl (writes store) fun _ => none

/-- A put writes whole values: what it leaves under its keys does not depend on what was
there. -/
def InMemoryStore.Whole (store : InMemoryStore κ β τ) : Prop :=
  ∀ kv rs k, k ∈ rs.map Request.key →
    (store.land kv rs).get? k = (store.land Dict.empty rs).get? k

/-- The store that keeps the last payload under each key writes whole values. -/
theorem overwriting_whole : (overwriting κ β).Whole := by
  have hall : ∀ (rs : List (Request κ (Stored β))) (kv kv' : Dict κ (Stored β)) (k : κ),
      k ∈ rs.map Request.key →
        ((overwriting κ β).land kv rs).get? k = ((overwriting κ β).land kv' rs).get? k := by
    intro rs
    induction rs with
    | nil => exact fun kv kv' k hk => by cases hk
    | cons r rs ih =>
        intro kv kv' k hk
        by_cases hlater : k ∈ rs.map Request.key
        · exact ih (kv.set r.key r.payload) (kv'.set r.key r.payload) k hlater
        · -- the first request is the last one to write under its key
          obtain rfl : k = r.key := (List.mem_cons.mp hk).resolve_right hlater
          have hframe := fun kv : Dict κ (Stored β) =>
            (overwriting κ β).land_frame (kv.set r.key r.payload) rs r.key hlater
          exact ((hframe kv).trans (kv.get?_set_self r.key r.payload)).trans
            ((hframe kv').trans (kv'.get?_set_self r.key r.payload)).symm
  exact fun kv rs k hk => hall rs kv Dict.empty k hk

/-! ## §2. One step. -/

variable {cfg : VolumeConfig κ ρ} {store : InMemoryStore κ β τ}

/-- What a put leaves before it evicts anything. -/
theorem below_landed (hwhole : store.Whole) {v : VolumeService κ β ρ} {m : κ → Option (Stored β)}
    (h : Below v.kv.get? m) (p : Put κ τ) :
    Below (v.landed store p).kv.get? (writes store m (.put p)) := by
  refine h.write (P := (· ∈ p.keys)) (fun k hk => ?_) (fun k hk => ?_) fun k hk => if_neg hk
  · show (store.land v.kv p.requests).get? k = if k ∈ p.keys then _ else _
    rw [if_pos hk]
    exact hwhole _ _ k ((p.mem_keys k).mp hk)
  · exact store.land_frame _ _ k fun hin => hk ((p.mem_keys k).mpr hin)

/-- A deletion of a batch of keys. -/
theorem lost_deleteBatch (v : VolumeService κ β ρ) (ks : List κ) :
    Below (v.deleteBatch cfg ks).kv.get? v.kv.get? := by
  intro k x hx
  rw [v.get?_kv_deleteBatch cfg k ks] at hx
  split at hx
  · cases hx
  · exact hx

/-- The second half of a put: it records what it landed, or rolls back. -/
theorem lost_finishPut (v : VolumeService κ β ρ) (f : VolumeService.Frame κ) :
    Below (v.finishPut cfg f).1.kv.get? v.kv.get? := by
  intro k x hx
  unfold VolumeService.finishPut at hx
  split at hx
  · rw [v.get?_rollBack k f.keys] at hx
    split at hx
    · cases hx
    · exact hx
  · exact hx

/-- **One step** of the volume against one of the map. -/
theorem below_next (hwhole : store.Whole) {s t : Run κ β ρ} {e : Event κ τ}
    {m : κ → Option (Stored β)} (h : Below s.vol.kv.get? m) (hs : next cfg store s e = some t) :
    Below t.vol.kv.get? (writes store m e) := by
  cases e with
  | put p =>
      have hlanded := below_landed hwhole h p
      have hsettled : Below (s.vol.settledVolume cfg store p).kv.get? (writes store m (.put p)) :=
        hlanded.lose (lost_deleteBatch _ _)
      simp only [next] at hs
      rcases s.vol.beginPut_cases cfg store p with ⟨_, hb⟩ | ⟨_, hb⟩
      · rw [hb] at hs
        cases hs
        exact hsettled.lose (lost_finishPut _ _)
      · rw [hb] at hs
        cases hs
        exact hsettled
  | get keys =>
      cases hs
      exact h
  | touch keys =>
      cases hs
      exact h
  | delete key =>
      cases hs
      refine h.drop (P := (· = key)) (fun k hk => ?_) (fun k hk => ?_) fun k hk => if_neg hk
      · subst hk
        exact s.vol.kv.get?_erase_self k
      · exact s.vol.kv.get?_erase_ne (Ne.symm hk)
  | deleteBatch keys =>
      cases hs
      refine h.drop (P := (· ∈ keys)) (fun k hk => ?_) (fun k hk => ?_) fun k hk => if_neg hk
      · exact (s.vol.get?_kv_deleteBatch cfg k keys).trans (if_pos hk)
      · exact (s.vol.get?_kv_deleteBatch cfg k keys).trans (if_neg hk)
  | reset =>
      cases hs
      exact fun k v hv => by cases hv
  | resume i =>
      obtain ⟨f, _, rfl⟩ := Option.map_eq_some_iff.mp hs
      exact h.lose (lost_finishPut s.vol f)

/-- One step of an unbounded volume is one of the map. -/
theorem next_unbounded (hwhole : store.Whole) (hcap : cfg.capacityBytes = none) {s t : Run κ β ρ}
    {e : Event κ τ} (hs : next cfg store s e = some t) (hparked : s.parked = [])
    {m : κ → Option (Stored β)} (h : ∀ k, s.vol.kv.get? k = m k) :
    t.parked = [] ∧ ∀ k, t.vol.kv.get? k = writes store m e k := by
  have hroom : ∀ n, ¬ cfg.Exceeds n := by
    rintro n ⟨c, hc, _⟩
    rw [hcap] at hc
    cases hc
  cases e with
  | put p =>
      have hnone : s.vol.putVictims cfg store p = [] := if_neg (hroom _)
      simp only [next] at hs
      rcases s.vol.beginPut_cases cfg store p with ⟨_, hb⟩ | ⟨hsome, _⟩
      · rw [hb] at hs
        cases hs
        refine ⟨hparked, fun k => ?_⟩
        unfold VolumeService.finishPut
        rw [if_neg (hroom _)]
        show (s.vol.settledVolume cfg store p).kv.get? k = if k ∈ p.keys then _ else m k
        rw [s.vol.get?_kv_settled cfg store p k, hnone, if_neg List.not_mem_nil]
        by_cases hk : k ∈ p.keys
        · rw [if_pos hk, if_pos hk]
          exact hwhole _ _ k ((p.mem_keys k).mp hk)
        · rw [if_neg hk, if_neg hk, h k]
      · exact absurd hnone hsome
  | get keys =>
      cases hs
      exact ⟨hparked, h⟩
  | touch keys =>
      cases hs
      exact ⟨hparked, h⟩
  | delete key =>
      cases hs
      refine ⟨hparked, fun k => ?_⟩
      show (s.vol.kv.erase key).get? k = if k = key then none else m k
      rw [Dict.get?_erase, h k]
      by_cases hk : k = key
      · rw [if_pos hk, if_pos hk.symm]
      · rw [if_neg hk, if_neg (Ne.symm hk)]
  | deleteBatch keys =>
      cases hs
      refine ⟨hparked, fun k => ?_⟩
      show (s.vol.deleteBatch cfg keys).kv.get? k = if k ∈ keys then none else m k
      rw [s.vol.get?_kv_deleteBatch cfg k keys, h k]
  | reset =>
      cases hs
      exact ⟨hparked, fun k => rfl⟩
  | resume i =>
      obtain ⟨f, hf, _⟩ := Option.map_eq_some_iff.mp hs
      rw [hparked] at hf
      cases hf

/-! ## §3. Every run. -/

theorem lastWritten_snoc (es : List (Event κ τ)) (e : Event κ τ) :
    lastWritten store (es ++ [e]) = writes store (lastWritten store es) e := by
  unfold lastWritten
  rw [List.foldl_append]
  rfl

/-- **A volume loses, and never makes up.**  After any calls, in any interleaving of
their halves, a volume that holds something under a key holds what was last written
there, if it was not deleted since; and an unbounded volume holds all of it. -/
theorem volume_lossy (hwhole : store.Whole) {es : List (Event κ τ)} {s : Run κ β ρ}
    (h : (machine cfg store).Trace ⟨cfg.fresh, []⟩ es s) :
    (∀ k v, s.vol.kv.get? k = some v → lastWritten store es k = some v) ∧
    (cfg.capacityBytes = none → ∀ k, s.vol.kv.get? k = lastWritten store es k) := by
  constructor
  · refine h.invariant (P := fun es s => Below s.vol.kv.get? (lastWritten store es)) ?_ ?_
    · exact fun k v hv => by cases hv
    · intro es t e u ih hs
      rw [lastWritten_snoc]
      exact below_next hwhole ih hs
  · intro hcap
    refine (h.invariant (P := fun es s => s.parked = [] ∧
      ∀ k, s.vol.kv.get? k = lastWritten store es k) ⟨rfl, fun k => rfl⟩ ?_).2
    intro es t e u ih hs
    rw [lastWritten_snoc]
    exact next_unbounded hwhole hcap hs ih.1 ih.2

/-- The put of key 0 is evicted by a put that is still parked. -/
theorem volume_lossy_overtaken : ∃ s : Run ℕ Unit (LeastRecentlyUsed ℕ),
    s.vol.kv.get? 0 = none ∧ s.vol.kv.get? 1 = some (.obj (.descriptor [6] 1)) ∧
    (∀ k v, s.vol.kv.get? k = some v →
      lastWritten (overwriting ℕ Unit) overtaken k = some v) ∧
    lastWritten (overwriting ℕ Unit) overtaken 0 = some (.obj (.descriptor [6] 1)) := by
  have hrun : (Machine.replay (next tenBytes (overwriting ℕ Unit)) ⟨tenBytes.fresh, []⟩
      overtaken).map (fun t => (t.vol.kv.get? 0, t.vol.kv.get? 1))
      = some (none, some (.obj (.descriptor [6] 1))) := by decide +kernel
  obtain ⟨t, ht, hval⟩ := Option.map_eq_some_iff.mp hrun
  have htrace : (machine tenBytes (overwriting ℕ Unit)).Trace ⟨tenBytes.fresh, []⟩ overtaken t :=
    Machine.Trace.of_replay (fun _ _ _ hst => hst) overtaken .nil ht
  exact ⟨t, congrArg Prod.fst hval, congrArg Prod.snd hval,
    (volume_lossy overwriting_whole htrace).1, by decide +kernel⟩

end Toso.Store
