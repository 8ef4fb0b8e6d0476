/-
  Toso.DedupSim.Directory — the store directory, and the publications in flight.

  The directory belongs to the store, so it is a parameter: a state type `δ`
  and the four calls that dedup makes of it.  `Controller.Documented` is what a
  decision relies on: declared ids are fresh, a retired publication leaves, what
  is served is live or pending, and a cover is cut out of the ranking it is
  given.

  `DirectorySensor` keeps the volume of every publication in flight.  Followed
  beside a documented directory it holds exactly the pending ones.

  Main results:
    * `Tracks.declared`, `Tracks.retired` — the sensor follows the directory
      through a declaration and a publication.
-/
import Toso.DedupSim.Fanout
import Mathlib.Data.List.Dedup

namespace Toso.DedupSim

open Lib

/-! ## §1. The store directory. -/

/-- The directory calls of a dedup decision, over the directory's own state.
`pending` and `last` are what can be said of that state: the declared and not
yet retired publications, and a bound on the ids given out. -/
structure Controller (δ ρ ν : Type*) where
  /-- `notify_put_batch(requests, requester, pending=True)`. -/
  notifyPutBatch : List ρ → ν → δ → ℕ × δ
  /-- `notify_delete_batch(pub=pub)`. -/
  notifyDeleteBatch : ℕ → δ → δ
  servingUnion : List ρ → δ → List (Publication ν)
  greedyCover : List ρ → List (Publication ν) → δ → List (Publication ν)
  pending : δ → Publication ν → Prop
  last : δ → ℕ

variable {δ ρ ν : Type*}

/-- **What the store documents of its directory.** -/
structure Controller.Documented (C : Controller δ ρ ν) : Prop where
  fresh : ∀ rs v d, C.last d < (C.notifyPutBatch rs v d).1
  last_put : ∀ rs v d, C.last (C.notifyPutBatch rs v d).2 = (C.notifyPutBatch rs v d).1
  pending_put : ∀ rs v d q, C.pending (C.notifyPutBatch rs v d).2 q
    ↔ C.pending d q ∨ q = ⟨(C.notifyPutBatch rs v d).1, v⟩
  last_delete : ∀ n d, C.last (C.notifyDeleteBatch n d) = C.last d
  pending_delete : ∀ n d q, C.pending (C.notifyDeleteBatch n d) q
    ↔ C.pending d q ∧ q.pub ≠ n
  serving : ∀ rs d q, q ∈ C.servingUnion rs d → q.pub = 0 ∨ C.pending d q
  serving_nodup : ∀ rs d, (C.servingUnion rs d).Nodup
  cover : ∀ rs ranked d, (C.greedyCover rs ranked d).Sublist ranked

/-- A write of another client: it declares and retires no publication. -/
def Controller.Writes (C : Controller δ ρ ν) (d d' : δ) : Prop :=
  C.last d ≤ C.last d' ∧ ∀ q, C.pending d' q ↔ C.pending d q

/-! ## §2. The sensor over it. -/

/-- Pending publications visible to dedup decisions, by id. -/
structure DirectorySensor (δ ν : Type*) where
  directory : δ
  inFlight : Dict ℕ (Publication ν)

namespace DirectorySensor

variable [DecidableEq ν] (C : Controller δ ρ ν)

/-- `declare`. -/
def declare (requester : ν) (requests : List ρ) (s : DirectorySensor δ ν) :
    Publication ν × DirectorySensor δ ν :=
  let (pub, directory) := C.notifyPutBatch requests requester s.directory
  (⟨pub, requester⟩, { s with directory := directory })

/-- `_asked`. -/
def asked (p : Publication ν) (s : DirectorySensor δ ν) : DirectorySensor δ ν :=
  { s with inFlight := s.inFlight.set p.pub p }

/-- `_published`. -/
def published (p : Publication ν) (s : DirectorySensor δ ν) : DirectorySensor δ ν where
  directory := C.notifyDeleteBatch p.pub s.directory
  inFlight := s.inFlight.erase p.pub

/-- `is_in_flight`. -/
def isInFlight (s : DirectorySensor δ ν) (p : Publication ν) : Bool :=
  s.inFlight.get? p.pub = some p

/-- `serving_union`. -/
def servingUnion (requests : List ρ) (s : DirectorySensor δ ν) : List (Publication ν) :=
  C.servingUnion requests s.directory

/-- `greedy_cover`. -/
def greedyCover (requests : List ρ) (ranked : List (Publication ν))
    (s : DirectorySensor δ ν) : List (Publication ν) :=
  C.greedyCover requests ranked s.directory

/-- **The sensor follows the directory**: what is in flight is what is pending,
under ids the directory has given out. -/
structure Tracks (s : DirectorySensor δ ν) : Prop where
  pending : ∀ p, C.pending s.directory p ↔ s.isInFlight p = true
  given : ∀ n p, s.inFlight.get? n = some p → p.pub = n ∧ 0 < n ∧ n ≤ C.last s.directory

variable {C}

theorem isInFlight_iff {s : DirectorySensor δ ν} {p : Publication ν} :
    s.isInFlight p = true ↔ s.inFlight.get? p.pub = some p := by
  simp [isInFlight]

/-- A declaration is fresh, and tracked once it is asked. -/
theorem Tracks.declared {s : DirectorySensor δ ν} (h : s.Tracks C) (hC : C.Documented)
    (requester : ν) (requests : List ρ) :
    (s.declare C requester requests).1.volume = requester ∧
      C.last s.directory < (s.declare C requester requests).1.pub ∧
      (asked (s.declare C requester requests).1 (s.declare C requester requests).2).Tracks C ∧
      ∀ p, (asked (s.declare C requester requests).1
          (s.declare C requester requests).2).isInFlight p = true
        ↔ s.isInFlight p = true ∨ p = (s.declare C requester requests).1 := by
  have hfresh := hC.fresh requests requester s.directory
  have hlast := hC.last_put requests requester s.directory
  have hpend := hC.pending_put requests requester s.directory
  unfold declare asked
  -- name the answer of the directory
  generalize C.notifyPutBatch requests requester s.directory = answer at hfresh hlast hpend ⊢
  obtain ⟨n, d⟩ := answer
  simp only at hfresh hlast hpend ⊢
  have hnew : s.inFlight.get? n = none := by
    cases hget : s.inFlight.get? n with
    | none => rfl
    | some p =>
        have hgiven := (h.given n p hget).2.2
        omega
  have hflight : ∀ p : Publication ν,
      ({ directory := d, inFlight := s.inFlight.set n ⟨n, requester⟩ }
          : DirectorySensor δ ν).isInFlight p = true
        ↔ s.isInFlight p = true ∨ p = ⟨n, requester⟩ := by
    intro p
    rw [isInFlight_iff, isInFlight_iff]
    simp only [Dict.get?_set]
    by_cases hn : n = p.pub
    · rw [if_pos hn, ← hn, hnew]
      constructor
      · intro hp
        cases hp
        exact .inr rfl
      · intro hp
        rcases hp with hp | rfl
        · cases hp
        · rfl
    · rw [if_neg hn]
      constructor
      · intro hp
        exact .inl hp
      · intro hp
        rcases hp with hp | rfl
        · exact hp
        · exact absurd rfl hn
  refine ⟨trivial, hfresh, ⟨?_, ?_⟩, hflight⟩
  · intro p
    rw [hflight, ← h.pending]
    exact hpend p
  · intro m p hp
    simp only [Dict.get?_set] at hp
    by_cases hnm : n = m
    · rw [if_pos hnm, Option.some.injEq] at hp
      subst hp
      refine ⟨hnm, ?_, ?_⟩
      · omega
      · show m ≤ C.last d
        omega
    · rw [if_neg hnm] at hp
      obtain ⟨hpub, hpos, hle⟩ := h.given m p hp
      refine ⟨hpub, hpos, ?_⟩
      show m ≤ C.last d
      omega

/-- A publication leaves the directory and the sensor together. -/
theorem Tracks.retired {s : DirectorySensor δ ν} (h : s.Tracks C) (hC : C.Documented)
    (p : Publication ν) :
    (published C p s).Tracks C ∧
      ∀ q, (published C p s).isInFlight q = true ↔ s.isInFlight q = true ∧ q.pub ≠ p.pub := by
  have hflight : ∀ q, (published C p s).isInFlight q = true
      ↔ s.isInFlight q = true ∧ q.pub ≠ p.pub := by
    intro q
    rw [isInFlight_iff, isInFlight_iff]
    simp only [published, Dict.get?_erase]
    by_cases hq : p.pub = q.pub
    · simp [hq]
    · simp [hq, Ne.symm hq]
  refine ⟨⟨?_, ?_⟩, hflight⟩
  · intro q
    rw [hflight, ← h.pending]
    exact hC.pending_delete p.pub s.directory q
  · intro n q hq
    simp only [published, Dict.get?_erase] at hq
    by_cases hn : p.pub = n
    · rw [if_pos hn] at hq
      cases hq
    · rw [if_neg hn] at hq
      obtain ⟨hpub, hpos, hle⟩ := h.given n q hq
      have hlast := hC.last_delete p.pub s.directory
      refine ⟨hpub, hpos, ?_⟩
      show n ≤ C.last (C.notifyDeleteBatch p.pub s.directory)
      omega

/-- A write of another client moves nothing the sensor follows. -/
theorem Tracks.written {s : DirectorySensor δ ν} (h : s.Tracks C) {d : δ}
    (hd : C.Writes s.directory d) : ({ s with directory := d } : DirectorySensor δ ν).Tracks C := by
  obtain ⟨hle, hpend⟩ := hd
  refine ⟨fun p => (hpend p).trans (h.pending p), ?_⟩
  intro n p hp
  obtain ⟨hpub, hpos, hn⟩ := h.given n p hp
  exact ⟨hpub, hpos, le_trans hn hle⟩

end DirectorySensor

/-! ## §3. The directory of one key. -/

/-- A directory that holds one key, whole: its live volumes, and the declared
publications not yet retired. -/
structure KeyDirectory (ν : Type*) where
  live : List ν
  declared : List (Publication ν)
  last : ℕ

/-- The calls of a directory of one key: everything declared serves it, and its
first ranked source covers it. -/
def keyController (ν : Type*) [DecidableEq ν] : Controller (KeyDirectory ν) Unit ν where
  notifyPutBatch _ v d :=
    (d.last + 1, { d with declared := d.declared ++ [⟨d.last + 1, v⟩], last := d.last + 1 })
  notifyDeleteBatch n d := { d with declared := d.declared.filter (fun p => p.pub ≠ n) }
  servingUnion _ d := (d.live.map (Publication.mk 0) ++ d.declared).dedup
  greedyCover _ ranked _ := ranked.take 1
  pending d p := p ∈ d.declared
  last d := d.last

theorem keyController_documented (ν : Type*) [DecidableEq ν] :
    (keyController ν).Documented where
  fresh _ _ d := Nat.lt_succ_self d.last
  last_put _ _ _ := rfl
  pending_put _ v d q := by
    show q ∈ d.declared ++ [_] ↔ _
    rw [List.mem_append, List.mem_singleton]
    rfl
  last_delete _ _ := rfl
  pending_delete n d q := by
    show q ∈ d.declared.filter _ ↔ _
    rw [List.mem_filter, decide_eq_true_iff]
    rfl
  serving _ d q hq := by
    rw [keyController, List.mem_dedup, List.mem_append, List.mem_map] at hq
    rcases hq with ⟨v, _, rfl⟩ | hq
    · exact .inl rfl
    · exact .inr hq
  serving_nodup _ _ := List.nodup_dedup _
  cover _ ranked _ := List.take_sublist 1 ranked

end Toso.DedupSim
