/-
  Toso.Store.Agreement — the directory against the volumes.

  A client writes its own volume through the transport, part by part where it
  writes a batch, waits out what the transport charges, and only then registers
  the keys.  A volume that evicts drops its victims first and reports them next.
  A delete drops on the volume and deregisters with the directory.  All of these
  are steps of their own, and any of them may come between two others.

  The directory is a parameter, known by what its calls do to the holders of a
  key.  A volume is `VolumeService`, whose put stops where it reports.

  Main results:
    * `stale_entry` — a batch that evicts its own first key, and is registered
      for it.
    * `Sound.next` — a step that is `Apart` leaves the directory right about
      everything that is not on the way.
    * `directory_agrees` — with no call in flight it is right about everything.
-/
import Toso.Store.Residency
import Toso.Lib.Mirror

namespace Toso.Store

open Lib

variable {ι κ β ρ τ δ : Type*}

/-! ## §1. The directory, and the calls in flight. -/

/-- The directory: who holds a key, and what the two notifications do to that. -/
structure Directory (ι κ δ : Type*) where
  holders : δ → κ → List ι
  fresh : δ
  notifyPutBatch : List κ → ι → δ → δ
  notifyDeleteBatch : ι → List κ → δ → δ
  holders_fresh : ∀ k, holders fresh k = []
  mem_put : ∀ ks v d w k,
    w ∈ holders (notifyPutBatch ks v d) k ↔ w ∈ holders d k ∨ (w = v ∧ k ∈ ks)
  mem_delete : ∀ v ks d w k,
    w ∈ holders (notifyDeleteBatch v ks d) k ↔ w ∈ holders d k ∧ ¬ (w = v ∧ k ∈ ks)

/-- One transport put of a client's call. -/
inductive Part (κ τ : Type*)
  | unsent (p : Put κ τ)
  /-- Its volume dropped the victims, and the directory has not heard. -/
  | evicted (f : VolumeService.Frame κ) (victims : List κ)
  /-- The directory has heard, and the put goes on. -/
  | told (f : VolumeService.Frame κ)
  | landed (keys : List κ)
  /-- It raised `StorageCapacityExceeded`. -/
  | refused

namespace Part

def unsent? : Part κ τ → Option (Put κ τ)
  | .unsent p => some p
  | _ => none

def told? : Part κ τ → Option (VolumeService.Frame κ)
  | .told f => some f
  | _ => none

/-- The keys a landed part put on its volume. -/
def keys : Part κ τ → List κ
  | .landed keys => keys
  | _ => []

/-- The keys its volume dropped for it, unreported. -/
def victims : Part κ τ → List κ
  | .evicted _ victims => victims
  | _ => []

/-- What a parked part goes on with. -/
def frame? : Part κ τ → Option (VolumeService.Frame κ)
  | .evicted f _ => some f
  | .told f => some f
  | _ => none

def isLanded : Part κ τ → Bool
  | .landed _ => true
  | _ => false

def isRefused : Part κ τ → Bool
  | .refused => true
  | _ => false

end Part

/-- A call of `put` or `put_batch`: the client's own volume, and its parts. -/
structure PutCall (ι κ τ : Type*) where
  volume : ι
  parts : List (Part κ τ)

namespace PutCall

/-- Every key its parts landed. -/
def keys (call : PutCall ι κ τ) : List κ := call.parts.flatMap Part.keys

/-- A part of it raised: it will not register. -/
def failed (call : PutCall ι κ τ) : Bool := call.parts.any Part.isRefused

def setPart (call : PutCall ι κ τ) (i : ℕ) (part : Part κ τ) : PutCall ι κ τ :=
  { call with parts := call.parts.set i part }

/-- It has landed `k` on `v`, and will register it. -/
def Lands (call : PutCall ι κ τ) (v : ι) (k : κ) : Prop :=
  call.volume = v ∧ call.failed = false ∧ k ∈ call.keys

/-- `v` dropped `k` for it, and will report that. -/
def Drops (call : PutCall ι κ τ) (v : ι) (k : κ) : Prop :=
  call.volume = v ∧ ∃ part ∈ call.parts, k ∈ part.victims

end PutCall

/-- A delete of keys on one volume that lists them, its two halves in either order. -/
structure Removal (ι κ : Type*) where
  volume : ι
  keys : List κ
  dropped : Bool
  deregistered : Bool
  deriving DecidableEq

/-- It dropped `k` from `v`, and will deregister it. -/
def Removal.Drops (r : Removal ι κ) (v : ι) (k : κ) : Prop :=
  r.volume = v ∧ r.dropped = true ∧ r.deregistered = false ∧ k ∈ r.keys

/-- It deregistered `k` for `v`, and will drop it. -/
def Removal.Hides (r : Removal ι κ) (v : ι) (k : κ) : Prop :=
  r.volume = v ∧ r.deregistered = true ∧ r.dropped = false ∧ k ∈ r.keys

/-- The volumes, the directory, and the calls in flight. -/
structure Mesh (ι κ β ρ τ δ : Type*) where
  vols : ι → VolumeService κ β ρ
  directory : δ
  puts : List (PutCall ι κ τ)
  removals : List (Removal ι κ)

/-- What happens next. -/
inductive MeshEvent (ι κ τ : Type*)
  /-- A client calls `put`, or `put_batch` with a part for each transport put. -/
  | put (volume : ι) (parts : List (Put κ τ))
  /-- Part `i` of call `c` reaches its volume. -/
  | land (c i : ℕ)
  /-- The directory hears of its victims. -/
  | report (c i : ℕ)
  /-- The put goes on. -/
  | settle (c i : ℕ)
  /-- The charges are waited out, and the keys are registered. -/
  | register (c : ℕ)
  /-- A call that failed returns to its caller. -/
  | raise (c : ℕ)
  | delete (volume : ι) (keys : List κ)
  | drop (r : ℕ)
  | deregister (r : ℕ)
  | get (volume : ι) (keys : List κ)
  | touch (volume : ι) (keys : List κ)

/-! ## §2. One step. -/

namespace Mesh

section Step

variable [DecidableEq ι] [DecidableEq κ]

def setVolume (s : Mesh ι κ β ρ τ δ) (v : ι) (w : VolumeService κ β ρ) : Mesh ι κ β ρ τ δ :=
  { s with vols := Function.update s.vols v w }

/-- Part `i` of call `c` replaced. -/
def setPart (s : Mesh ι κ β ρ τ δ) (c i : ℕ) (call : PutCall ι κ τ) (part : Part κ τ) :
    Mesh ι κ β ρ τ δ :=
  { s with puts := s.puts.set c (call.setPart i part) }

/-- What a put that ran to its end leaves of its part. -/
def ended (keys : List κ) : Option StorageCapacityExceeded → Part κ τ
  | none => .landed keys
  | some _ => .refused

/-- Nobody called anything. -/
def start (cfg : ι → VolumeConfig κ ρ) (dir : Directory ι κ δ) : Mesh ι κ β ρ τ δ :=
  ⟨fun v => (cfg v).fresh, dir.fresh, [], []⟩

variable (cfg : ι → VolumeConfig κ ρ) (store : InMemoryStore κ β τ) (dir : Directory ι κ δ)

/-- One half of a removal is done. -/
def removed (s : Mesh ι κ β ρ τ δ) (r : ℕ) (removal : Removal ι κ) : Mesh ι κ β ρ τ δ :=
  { s with removals :=
      if removal.dropped && removal.deregistered then s.removals.eraseIdx r
      else s.removals.set r removal }

/-- One step, where it is enabled. -/
def next (s : Mesh ι κ β ρ τ δ) : MeshEvent ι κ τ → Option (Mesh ι κ β ρ τ δ)
  | .put volume parts => some { s with puts := s.puts ++ [⟨volume, parts.map .unsent⟩] }
  | .land c i =>
      s.puts[c]?.bind fun call =>
        match call.parts[i]? with
        | some (.unsent p) =>
            match (s.vols call.volume).beginPut (cfg call.volume) store p with
            | .done w exc =>
                some ((s.setVolume call.volume w).setPart c i call (ended p.keys exc))
            | .notifying w f victims =>
                some ((s.setVolume call.volume w).setPart c i call (.evicted f victims))
        | _ => none
  | .report c i =>
      s.puts[c]?.bind fun call =>
        match call.parts[i]? with
        | some (.evicted f victims) =>
            some ({ s with directory :=
              dir.notifyDeleteBatch call.volume victims s.directory }.setPart c i call (.told f))
        | _ => none
  | .settle c i =>
      s.puts[c]?.bind fun call =>
        match call.parts[i]? with
        | some (.told f) =>
            let r := (s.vols call.volume).finishPut (cfg call.volume) f
            some ((s.setVolume call.volume r.1).setPart c i call (ended f.keys r.2))
        | _ => none
  | .register c =>
      s.puts[c]?.bind fun call =>
        if call.parts.all Part.isLanded then
          some { s with
            directory := dir.notifyPutBatch call.keys call.volume s.directory
            puts := s.puts.eraseIdx c }
        else none
  | .raise c =>
      s.puts[c]?.bind fun call =>
        -- what it has not sent it does not send
        if call.failed ∧ ∀ part ∈ call.parts, part.frame?.isNone then
          some { s with puts := s.puts.eraseIdx c }
        else none
  | .delete volume keys => some { s with removals := s.removals ++ [⟨volume, keys, false, false⟩] }
  | .drop r =>
      s.removals[r]?.bind fun removal =>
        if removal.dropped then none
        else some ((s.setVolume removal.volume
          ((s.vols removal.volume).deleteBatch (cfg removal.volume) removal.keys)).removed r
            { removal with dropped := true })
  | .deregister r =>
      s.removals[r]?.bind fun removal =>
        if removal.deregistered then none
        else some ({ s with directory :=
          dir.notifyDeleteBatch removal.volume removal.keys s.directory }.removed r
            { removal with deregistered := true })
  | .get volume keys =>
      some (s.setVolume volume ((s.vols volume).get (cfg volume) keys))
  | .touch volume keys =>
      some (s.setVolume volume ((s.vols volume).touch (cfg volume) keys))

/-- The machine of a run. -/
def machine : Machine (Mesh ι κ β ρ τ δ) (MeshEvent ι κ τ) :=
  .ofPartial (fun s => s = start cfg dir) (next cfg store dir)

/-- No call is in flight. -/
def Quiet (s : Mesh ι κ β ρ τ δ) : Prop := s.puts = [] ∧ s.removals = []

/-- **The directory and the volumes agree.** -/
def Agrees (s : Mesh ι κ β ρ τ δ) : Prop :=
  ∀ v k, v ∈ dir.holders s.directory k ↔ k ∈ (s.vols v).residentByKey

/-! ## §3. What is on the way. -/

/-- A put in flight has landed `k` on `v` and will register it. -/
def Landing (s : Mesh ι κ β ρ τ δ) (v : ι) (k : κ) : Prop :=
  ∃ call ∈ s.puts, call.Lands v k

/-- `k` was dropped from `v`, and whoever dropped it will deregister it. -/
def Dropped (s : Mesh ι κ β ρ τ δ) (v : ι) (k : κ) : Prop :=
  (∃ call ∈ s.puts, call.Drops v k) ∨ ∃ r ∈ s.removals, r.Drops v k

/-- `k` was deregistered for `v`, and whoever did will drop it. -/
def Hidden (s : Mesh ι κ β ρ τ δ) (v : ι) (k : κ) : Prop :=
  ∃ r ∈ s.removals, r.Hides v k

/-- The end of a put, refused or not, is in nobody's way: a key it lands is not on its
way out, and is listed where the call will not register it; a refusal leaves behind
only keys that are listed. -/
def Ends (s : Mesh ι κ β ρ τ δ) (call : PutCall ι κ τ) (f : VolumeService.Frame κ) : Prop :=
  ((cfg call.volume).Exceeds f.projected → call.failed = false →
    ∀ k ∈ call.keys, call.volume ∈ dir.holders s.directory k) ∧
  (¬ (cfg call.volume).Exceeds f.projected →
    ∀ k ∈ f.keys, ¬ s.Dropped call.volume k ∧ ¬ s.Hidden call.volume k ∧
      (call.failed = true → call.volume ∈ dir.holders s.directory k))

/-- **The steps that keep to themselves.**  A key is dropped or deregistered only when no
put in flight has landed it there, and a put ends in nobody's way. -/
def Apart (s : Mesh ι κ β ρ τ δ) : MeshEvent ι κ τ → Prop
  | .land c i => ∀ call ∈ s.puts[c]?, ∀ part ∈ call.parts[i]?, ∀ p ∈ part.unsent?,
      (∀ k ∈ (s.vols call.volume).putVictims (cfg call.volume) store p,
        ¬ s.Landing call.volume k) ∧
      ((s.vols call.volume).putVictims (cfg call.volume) store p = [] →
        s.Ends cfg dir call ((s.vols call.volume).settledFrame (cfg call.volume) store p))
  | .settle c i => ∀ call ∈ s.puts[c]?, ∀ part ∈ call.parts[i]?, ∀ f ∈ part.told?,
      s.Ends cfg dir call f
  | .drop r => ∀ removal ∈ s.removals[r]?, removal.deregistered = false →
      ∀ k ∈ removal.keys, ¬ s.Landing removal.volume k
  | .deregister r => ∀ removal ∈ s.removals[r]?, removal.dropped = false →
      ∀ k ∈ removal.keys, ¬ s.Landing removal.volume k
  | _ => True

/-- What the volumes hold, what the directory lists, and what is on the way. -/
def books (s : Mesh ι κ β ρ τ δ) : Mirror (ι × κ) where
  held := {a | a.2 ∈ (s.vols a.1).residentByKey}
  recorded := {a | a.1 ∈ dir.holders s.directory a.2}
  adding := {a | s.Landing a.1 a.2}
  removing := {a | s.Dropped a.1 a.2}
  struck := {a | s.Hidden a.1 a.2}

/-- **The invariant**: the directory is right about what is not on the way, and a parked
put will record the keys it names. -/
structure Sound (s : Mesh ι κ β ρ τ δ) : Prop where
  books : (s.books dir).Sound
  named : ∀ call ∈ s.puts, ∀ part ∈ call.parts, ∀ f ∈ part.frame?,
    ∀ k, k ∈ f.newByKey ↔ k ∈ f.keys

omit [DecidableEq ι] [DecidableEq κ] in
theorem sound_start : (start cfg dir : Mesh ι κ β ρ τ δ).Sound dir where
  books := by
    constructor
    case settled =>
      intro a _ _ _
      show a.2 ∈ (Dict.empty : Dict κ ℕ) ↔ a.1 ∈ dir.holders dir.fresh a.2
      rw [dir.holders_fresh]
      exact ⟨fun h => absurd h (Dict.not_mem_empty _), fun h => absurd h List.not_mem_nil⟩
    case adding =>
      intro a ⟨_, hcall, _⟩
      cases hcall
    case removing =>
      intro a ha
      rcases ha with ⟨_, hcall, _⟩ | ⟨_, hr, _⟩
      · cases hcall
      · cases hr
    case struck =>
      intro a ⟨_, hr, _⟩
      cases hr
    case apart =>
      intro a ⟨_, hcall, _⟩
      cases hcall
  named := fun _ hcall => absurd hcall List.not_mem_nil

end Step

end Mesh

/-! ## §4. One entry of a list replaced. -/

section Replaced

variable {α : Type*}

/-- A list is its entry at `i`, and the others. -/
theorem mem_of_entry {l : List α} {i : ℕ} {a : α} (h : l[i]? = some a) (x : α) :
    x ∈ l ↔ x = a ∨ x ∈ l.eraseIdx i := by
  obtain ⟨hi, hget⟩ := List.getElem?_eq_some_iff.mp h
  rw [← List.mem_cons, ← hget]
  exact (List.getElem_cons_eraseIdx_perm hi).mem_iff.symm

/-- The others are the same with the entry replaced. -/
theorem mem_set_entry {l : List α} {i : ℕ} {a : α} (h : l[i]? = some a) (b x : α) :
    x ∈ l.set i b ↔ x = b ∨ x ∈ l.eraseIdx i := by
  obtain ⟨hi, _⟩ := List.getElem?_eq_some_iff.mp h
  have hb : (l.set i b)[i]? = some b := List.getElem?_set_self hi
  rw [mem_of_entry hb, List.eraseIdx_set_eq]

/-- What holds of some entry. -/
theorem exists_of_entry {l : List α} {i : ℕ} {a : α} (h : l[i]? = some a) (P : α → Prop) :
    (∃ x ∈ l, P x) ↔ P a ∨ ∃ x ∈ l.eraseIdx i, P x := by
  simp only [mem_of_entry h, or_and_right, exists_or, exists_eq_left]

theorem exists_set_entry {l : List α} {i : ℕ} {a : α} (h : l[i]? = some a) (b : α)
    (P : α → Prop) : (∃ x ∈ l.set i b, P x) ↔ P b ∨ ∃ x ∈ l.eraseIdx i, P x := by
  simp only [mem_set_entry h, or_and_right, exists_or, exists_eq_left]

end Replaced

namespace PutCall

variable {call : PutCall ι κ τ} {i : ℕ} {old part : Part κ τ}

/-- A part replaced that had landed nothing. -/
theorem mem_keys_setPart (h : call.parts[i]? = some old) (hold : old.keys = []) (k : κ) :
    k ∈ (call.setPart i part).keys ↔ k ∈ part.keys ∨ k ∈ call.keys := by
  unfold keys setPart
  simp only [List.mem_flatMap]
  rw [exists_set_entry h, exists_of_entry h fun p => k ∈ p.keys, hold]
  simp only [List.not_mem_nil, false_or]

theorem failed_setPart (h : call.parts[i]? = some old) (hold : old.isRefused = false) :
    (call.setPart i part).failed = true ↔ part.isRefused = true ∨ call.failed = true := by
  unfold failed setPart
  simp only [List.any_eq_true]
  rw [exists_set_entry h, exists_of_entry h fun p => p.isRefused = true, hold]
  simp only [Bool.false_eq_true, false_or]

end PutCall

/-! ## §5. The steps of a put. -/

namespace Mesh

section Steps

variable [DecidableEq ι] [DecidableEq κ] {cfg : ι → VolumeConfig κ ρ}
  {store : InMemoryStore κ β τ} {dir : Directory ι κ δ} {s t : Mesh ι κ β ρ τ δ}
  {call : PutCall ι κ τ} {c i : ℕ} {old : Part κ τ} {f : VolumeService.Frame κ}

omit [DecidableEq ι] [DecidableEq κ] in
/-- What the other calls land, and what this one does. -/
theorem landing_split (hc : s.puts[c]? = some call) (v : ι) (k : κ) : ∃ R : Prop,
    (s.Landing v k ↔ call.Lands v k ∨ R) ∧
    ∀ part, ((s.setPart c i call part).Landing v k ↔ (call.setPart i part).Lands v k ∨ R) := by
  refine ⟨∃ x ∈ s.puts.eraseIdx c, x.Lands v k, exists_of_entry hc _, fun part => ?_⟩
  exact exists_set_entry hc _ _

omit [DecidableEq ι] [DecidableEq κ] in
/-- What the others dropped, and what this part did. -/
theorem dropped_split (hc : s.puts[c]? = some call) (hi : call.parts[i]? = some old) (v : ι)
    (k : κ) : ∃ R : Prop,
    (s.Dropped v k ↔ (call.volume = v ∧ k ∈ old.victims) ∨ R) ∧
    ∀ part, ((s.setPart c i call part).Dropped v k ↔
      (call.volume = v ∧ k ∈ part.victims) ∨ R) := by
  refine ⟨(call.volume = v ∧ ∃ part ∈ call.parts.eraseIdx i, k ∈ part.victims) ∨
    (∃ x ∈ s.puts.eraseIdx c, x.Drops v k) ∨ ∃ r ∈ s.removals, r.Drops v k, ?_, fun part => ?_⟩
  · unfold Dropped
    rw [exists_of_entry hc fun x => x.Drops v k, PutCall.Drops,
      exists_of_entry hi fun p => k ∈ p.victims, and_or_left, or_assoc, or_assoc]
  · show (∃ x ∈ s.puts.set c (call.setPart i part), x.Drops v k) ∨ _ ↔ _
    rw [exists_set_entry hc _ fun x => x.Drops v k, PutCall.Drops]
    show ((call.volume = v ∧ ∃ p ∈ call.parts.set i part, k ∈ p.victims) ∨ _) ∨ _ ↔ _
    rw [exists_set_entry hi _ fun p => k ∈ p.victims, and_or_left, or_assoc, or_assoc]
    exact Iff.rfl

omit [DecidableEq κ] in
/-- One volume replaced, at a key. -/
theorem mem_setVolume [DecidableEq κ] (v x : ι) (w : VolumeService κ β ρ) (k : κ) :
    k ∈ ((s.setVolume v w).vols x).residentByKey ↔
      (x = v ∧ k ∈ w.residentByKey) ∨ (x ≠ v ∧ k ∈ (s.vols x).residentByKey) := by
  show k ∈ (Function.update s.vols v w x).residentByKey ↔ _
  by_cases hx : x = v
  · subst hx
    rw [Function.update_self]
    simp
  · rw [Function.update_of_ne hx]
    simp [hx]

omit [DecidableEq ι] [DecidableEq κ] in
/-- A part replaced keeps every parked put true to its names. -/
theorem named_setPart (h : s.Sound dir) (hc : s.puts[c]? = some call)
    (hi : call.parts[i]? = some old) {part : Part κ τ}
    (hpart : ∀ f ∈ part.frame?, ∀ k, k ∈ f.newByKey ↔ k ∈ f.keys) :
    ∀ x ∈ (s.setPart c i call part).puts, ∀ p ∈ x.parts, ∀ f ∈ p.frame?,
      ∀ k, k ∈ f.newByKey ↔ k ∈ f.keys := by
  intro x hx p hp
  rcases (mem_set_entry hc _ x).mp hx with rfl | hx
  · rcases (mem_set_entry hi _ p).mp hp with rfl | hp
    · exact hpart
    · exact h.named call ((mem_of_entry hc _).mpr (.inl rfl)) p (List.mem_of_mem_eraseIdx hp)
  · exact h.named x (List.mem_of_mem_eraseIdx hx) p hp

/-- A put that does not fit: it is refused, and its call registers nothing. -/
theorem Sound.refused (h : s.Sound dir) (hc : s.puts[c]? = some call)
    (hi : call.parts[i]? = some old) (hvictims : old.victims = [])
    (hrefused : old.isRefused = false) {w : VolumeService κ β ρ}
    (hw : w.residentByKey = (s.vols call.volume).residentByKey)
    (hlisted : call.failed = false → ∀ k ∈ call.keys,
      call.volume ∈ dir.holders s.directory k) :
    ((s.setVolume call.volume (w.rollBack f.keys)).setPart c i call .refused).Sound dir := by
  refine ⟨?_, named_setPart h hc hi nofun⟩
  have hfail : (call.setPart i .refused).failed = true :=
    (PutCall.failed_setPart hi hrefused).mpr (.inl rfl)
  refine h.books.enter (S := ∅) ?_ ?_ nofun ?_ ?_ ?_ rfl
  · ext ⟨v, k⟩
    show k ∈ ((s.setVolume call.volume _).vols v).residentByKey ↔ k ∈ (s.vols v).residentByKey
    rw [mem_setVolume, VolumeService.rollBack_residentByKey, hw]
    by_cases hv : v = call.volume
    · subst hv
      simp
    · simp [hv]
  · intro a
    simp only [Set.mem_empty_iff_false, or_false]
    exact Iff.rfl
  · -- what is still to land was to land before
    intro ⟨v, k⟩ ha
    obtain ⟨R, hs, ht⟩ := landing_split (i := i) hc v k
    refine hs.mpr (((ht .refused).mp ha).imp_left fun hl => ?_)
    have hno := hl.2.1
    rw [hfail] at hno
    cases hno
  · -- what the call would have registered is listed already
    intro ⟨v, k⟩ ha
    obtain ⟨R, hs, ht⟩ := landing_split (i := i) hc v k
    rcases hs.mp ha with ⟨rfl, hok, hk⟩ | hR
    · exact .inr (hlisted hok k hk)
    · exact .inl ((ht .refused).mpr (.inr hR))
  · ext ⟨v, k⟩
    obtain ⟨R, hs, ht⟩ := dropped_split hc hi v k
    rw [hvictims] at hs
    exact (ht .refused).trans hs.symm

/-- A put that fits: its keys are there, and its call registers them unless it failed. -/
theorem Sound.landed (h : s.Sound dir) (hc : s.puts[c]? = some call)
    (hi : call.parts[i]? = some old) (hkeys : old.keys = []) (hvictims : old.victims = [])
    (hrefused : old.isRefused = false) {w : VolumeService κ β ρ}
    (hw : w.residentByKey = (s.vols call.volume).residentByKey)
    (hnamed : ∀ k, k ∈ f.newByKey ↔ k ∈ f.keys)
    (hends : ∀ k ∈ f.keys, ¬ s.Dropped call.volume k ∧ ¬ s.Hidden call.volume k ∧
      (call.failed = true → call.volume ∈ dir.holders s.directory k)) :
    ((s.setVolume call.volume (w.record (cfg call.volume) f)).setPart c i call
      (.landed f.keys)).Sound dir := by
  refine ⟨?_, named_setPart h hc hi nofun⟩
  -- what it lands is to be registered, unless a part of the call failed
  have hsplit : ∀ v k, (s.setPart c i call (.landed f.keys)).Landing v k ↔
      s.Landing v k ∨ (call.volume = v ∧ call.failed = false ∧ k ∈ f.keys) := by
    intro v k
    obtain ⟨R, hs, ht⟩ := landing_split (i := i) hc v k
    have hfail : (call.setPart i (.landed f.keys)).failed = false ↔ call.failed = false := by
      rw [← Bool.not_eq_true, ← Bool.not_eq_true, PutCall.failed_setPart hi hrefused]
      simp [Part.isRefused]
    rw [hs, ht]
    unfold PutCall.Lands
    rw [hfail, PutCall.mem_keys_setPart hi hkeys]
    show (call.volume = v ∧ _ ∧ (k ∈ f.keys ∨ _)) ∨ R ↔ _
    tauto
  refine h.books.hold (S := {a | a.1 = call.volume ∧ a.2 ∈ f.keys}) ?_ rfl ?_ ?_ ?_ ?_ rfl ?_
  · intro ⟨v, k⟩
    show k ∈ ((s.setVolume call.volume _).vols v).residentByKey ↔
      k ∈ (s.vols v).residentByKey ∨ (v = call.volume ∧ k ∈ f.keys)
    rw [mem_setVolume, VolumeService.record_residentByKey, Dict.mem_update, hnamed, hw]
    by_cases hv : v = call.volume
    · subst hv
      simp [or_comm]
    · simp [hv]
  · intro ⟨v, k⟩ ha
    exact (hsplit v k).mpr (.inl ha)
  · intro ⟨v, k⟩ ha
    exact ((hsplit v k).mp ha).imp_right fun hl => ⟨hl.1.symm, hl.2.2⟩
  · -- a key it lands is registered by the call, or is listed if the call failed
    intro ⟨v, k⟩ ⟨hv, hk⟩
    cases hfail : call.failed with
    | false => exact .inl ((hsplit v k).mpr (.inr ⟨hv.symm, hfail, hk⟩))
    | true =>
        have hlisted := (hends k hk).2.2 hfail
        rw [← show v = call.volume from hv] at hlisted
        exact .inr hlisted
  · ext ⟨v, k⟩
    obtain ⟨R, hs, ht⟩ := dropped_split hc hi v k
    rw [hvictims] at hs
    exact (ht (.landed f.keys)).trans hs.symm
  · intro ⟨v, k⟩ ⟨hv, hk⟩
    obtain ⟨hdropped, hhidden, _⟩ := hends k hk
    rw [← show v = call.volume from hv] at hdropped hhidden
    exact ⟨hdropped, hhidden⟩

/-- **The end of a put.**  It is refused and leaves what is listed, or it lands its keys
and will register them. -/
theorem Sound.ended (h : s.Sound dir) (hc : s.puts[c]? = some call)
    (hi : call.parts[i]? = some old) (hkeys : old.keys = []) (hvictims : old.victims = [])
    (hrefused : old.isRefused = false) {w : VolumeService κ β ρ}
    (hw : w.residentByKey = (s.vols call.volume).residentByKey)
    (hnamed : ∀ k, k ∈ f.newByKey ↔ k ∈ f.keys) (hends : s.Ends cfg dir call f) :
    ((s.setVolume call.volume (w.finishPut (cfg call.volume) f).1).setPart c i call
      (ended f.keys (w.finishPut (cfg call.volume) f).2)).Sound dir := by
  unfold VolumeService.finishPut
  by_cases hex : (cfg call.volume).Exceeds f.projected
  · rw [if_pos hex]
    exact h.refused hc hi hvictims hrefused hw (hends.1 hex)
  · rw [if_neg hex]
    exact h.landed hc hi hkeys hvictims hrefused hw hnamed (hends.2 hex)

omit [DecidableEq ι] [DecidableEq κ] in
/-- A part that comes to nothing yet changes nothing a call will register. -/
theorem landing_setPart (hc : s.puts[c]? = some call) (hi : call.parts[i]? = some old)
    (hkeys : old.keys = []) (hrefused : old.isRefused = false) {part : Part κ τ}
    (hnone : part.keys = []) (hok : part.isRefused = false) (v : ι) (k : κ) :
    (s.setPart c i call part).Landing v k ↔ s.Landing v k := by
  obtain ⟨R, hs, ht⟩ := landing_split (i := i) hc v k
  have hfail : (call.setPart i part).failed = false ↔ call.failed = false := by
    rw [← Bool.not_eq_true, ← Bool.not_eq_true, PutCall.failed_setPart hi hrefused, hok]
    simp
  rw [hs, ht]
  unfold PutCall.Lands
  rw [hfail, PutCall.mem_keys_setPart hi hkeys, hnone]
  show (call.volume = v ∧ _ ∧ (k ∈ [] ∨ _)) ∨ R ↔ _
  simp only [List.not_mem_nil, false_or]

/-- **An eviction**: the volume drops what no put in flight has landed. -/
theorem Sound.evicted (h : s.Sound dir) (hc : s.puts[c]? = some call) {p : Put κ τ}
    (hi : call.parts[i]? = some (.unsent p)) {w : VolumeService κ β ρ} {victims : List κ}
    (hw : ∀ k, k ∈ w.residentByKey ↔ k ∉ victims ∧ k ∈ (s.vols call.volume).residentByKey)
    (hnamed : ∀ k, k ∈ f.newByKey ↔ k ∈ f.keys)
    (hapart : ∀ k ∈ victims, ¬ s.Landing call.volume k) :
    ((s.setVolume call.volume w).setPart c i call (.evicted f victims)).Sound dir := by
  have hnamed' : ∀ g ∈ (Part.evicted f victims : Part κ τ).frame?,
      ∀ k, k ∈ g.newByKey ↔ k ∈ g.keys := by
    intro g hg
    obtain rfl := Option.some.inj hg
    exact hnamed
  refine ⟨?_, named_setPart h hc hi hnamed'⟩
  have hsplit : ∀ v k, (s.setPart c i call (.evicted f victims)).Dropped v k ↔
      (call.volume = v ∧ k ∈ victims) ∨ s.Dropped v k := by
    intro v k
    obtain ⟨R, hs, ht⟩ := dropped_split hc hi v k
    rw [ht, hs]
    show (call.volume = v ∧ k ∈ victims) ∨ R ↔ _ ∨ (_ ∧ k ∈ []) ∨ R
    simp
  refine h.books.give (S := {a | a.1 = call.volume ∧ a.2 ∈ victims}) ?_ rfl ?_ ?_ ?_ ?_ ?_
    (fun _ ha => ha) (fun _ ha => .inl ha)
  · intro ⟨v, k⟩
    show k ∈ ((s.setVolume call.volume w).vols v).residentByKey ↔
      k ∈ (s.vols v).residentByKey ∧ ¬ (v = call.volume ∧ k ∈ victims)
    rw [mem_setVolume, hw]
    by_cases hv : v = call.volume
    · subst hv
      simp [and_comm]
    · simp [hv]
  · ext ⟨v, k⟩
    exact landing_setPart hc hi rfl rfl rfl rfl v k
  · intro ⟨v, k⟩ ⟨hv, hk⟩
    rw [show v = call.volume from hv]
    exact hapart k hk
  · intro ⟨v, k⟩ ha
    exact (hsplit v k).mpr (.inr ha)
  · intro ⟨v, k⟩ ha
    exact ((hsplit v k).mp ha).symm.imp_right fun hl => ⟨hl.1.symm, hl.2⟩
  · intro ⟨v, k⟩ ⟨hv, hk⟩
    exact .inl ((hsplit v k).mpr (.inl ⟨hv.symm, hk⟩))

omit [DecidableEq ι] [DecidableEq κ] in
/-- **A report**: the directory strikes what the volume dropped. -/
theorem Sound.reported (h : s.Sound dir) (hc : s.puts[c]? = some call) {victims : List κ}
    (hi : call.parts[i]? = some (.evicted f victims)) :
    ({ s with directory := dir.notifyDeleteBatch call.volume victims s.directory }.setPart c i
      call (.told f)).Sound dir := by
  have hnamed' : ∀ g ∈ (Part.told f : Part κ τ).frame?, ∀ k, k ∈ g.newByKey ↔ k ∈ g.keys :=
    h.named call ((mem_of_entry hc _).mpr (.inl rfl)) (.evicted f victims)
      ((mem_of_entry hi _).mpr (.inl rfl))
  refine ⟨?_, named_setPart h hc hi hnamed'⟩
  have hS : ∀ v k, v = call.volume → k ∈ victims → s.Dropped v k := by
    intro v k hv hk
    obtain ⟨R, hs, _⟩ := dropped_split hc hi v k
    exact hs.mpr (.inl ⟨hv.symm, hk⟩)
  refine h.books.strike (S := {a | a.1 = call.volume ∧ a.2 ∈ victims}) rfl ?_ ?_ ?_ ?_ ?_
    (fun _ ha => ha) (fun _ ha => .inl ha) ?_
  · intro ⟨v, k⟩
    exact dir.mem_delete call.volume victims s.directory v k
  · ext ⟨v, k⟩
    exact landing_setPart hc hi rfl rfl rfl rfl v k
  · intro ⟨v, k⟩ ⟨hv, hk⟩ ha
    exact (h.books.apart _ ha).1 (hS v k hv hk)
  · intro ⟨v, k⟩ ha
    obtain ⟨R, hs, ht⟩ := dropped_split hc hi v k
    rcases (ht (.told f)).mp ha with ⟨_, hk⟩ | hR
    · cases hk
    · exact hs.mpr (.inr hR)
  · intro ⟨v, k⟩ ha
    obtain ⟨R, hs, ht⟩ := dropped_split hc hi v k
    rcases hs.mp ha with ⟨hv, hk⟩ | hR
    · exact .inr ⟨hv.symm, hk⟩
    · exact .inl ((ht (.told f)).mpr (.inr hR))
  · intro ⟨v, k⟩ ⟨hv, hk⟩
    exact .inr (h.books.removing _ (hS v k hv hk))

/-! ## §6. The end of a call. -/

omit [DecidableEq ι] [DecidableEq κ] in
/-- A call that returns: what else is in flight. -/
theorem named_eraseIdx (h : s.Sound dir) :
    ∀ x ∈ s.puts.eraseIdx c, ∀ p ∈ x.parts, ∀ f ∈ p.frame?, ∀ k, k ∈ f.newByKey ↔ k ∈ f.keys :=
  fun x hx => h.named x (List.mem_of_mem_eraseIdx hx)

omit [DecidableEq ι] [DecidableEq κ] in
/-- With nothing of a call left to report, the others dropped what is dropped. -/
theorem dropped_eraseIdx (hc : s.puts[c]? = some call)
    (hnone : ∀ part ∈ call.parts, part.victims = []) (v : ι) (k : κ) :
    ({ s with puts := s.puts.eraseIdx c } : Mesh ι κ β ρ τ δ).Dropped v k ↔ s.Dropped v k := by
  have hcall : ¬ call.Drops v k := by
    rintro ⟨_, part, hpart, hk⟩
    rw [hnone part hpart] at hk
    cases hk
  unfold Dropped
  rw [exists_of_entry hc fun x => x.Drops v k, or_iff_right hcall]

omit [DecidableEq ι] [DecidableEq κ] in
/-- **A registration**: the directory lists what the call landed. -/
theorem Sound.registered (h : s.Sound dir) (hc : s.puts[c]? = some call)
    (hall : call.parts.all Part.isLanded = true) :
    ({ s with
      directory := dir.notifyPutBatch call.keys call.volume s.directory
      puts := s.puts.eraseIdx c } : Mesh ι κ β ρ τ δ).Sound dir := by
  rw [List.all_eq_true] at hall
  have hok : call.failed = false := by
    rw [← Bool.not_eq_true]
    intro hfail
    obtain ⟨part, hpart, hrefused⟩ := List.any_eq_true.mp hfail
    have hlanded := hall part hpart
    cases part with
    | refused => cases hlanded
    | landed => cases hrefused
    | unsent => cases hlanded
    | evicted => cases hlanded
    | told => cases hlanded
  have hnone : ∀ part ∈ call.parts, part.victims = [] := by
    intro part hpart
    have hlanded := hall part hpart
    cases part with
    | evicted => cases hlanded
    | _ => rfl
  refine ⟨?_, named_eraseIdx h⟩
  refine h.books.enter (S := {a | a.1 = call.volume ∧ a.2 ∈ call.keys}) rfl ?_ ?_ ?_ ?_ ?_ rfl
  · intro ⟨v, k⟩
    exact dir.mem_put call.keys call.volume s.directory v k
  · intro ⟨v, k⟩ ⟨hv, hk⟩
    exact (exists_of_entry hc fun x => x.Lands v k).mpr (.inl ⟨hv.symm, hok, hk⟩)
  · intro ⟨v, k⟩ ha
    exact (exists_of_entry hc fun x => x.Lands v k).mpr (.inr ha)
  · intro ⟨v, k⟩ ha
    rcases (exists_of_entry hc fun x => x.Lands v k).mp ha with ⟨hv, _, hk⟩ | ha
    · exact .inr ((dir.mem_put call.keys call.volume s.directory v k).mpr (.inr ⟨hv.symm, hk⟩))
    · exact .inl ha
  · ext ⟨v, k⟩
    exact dropped_eraseIdx hc hnone v k

omit [DecidableEq ι] [DecidableEq κ] in
/-- A call that failed registers nothing. -/
theorem Sound.raised (h : s.Sound dir) (hc : s.puts[c]? = some call)
    (hfail : call.failed = true) (hidle : ∀ part ∈ call.parts, part.frame?.isNone = true) :
    ({ s with puts := s.puts.eraseIdx c } : Mesh ι κ β ρ τ δ).Sound dir := by
  have hnone : ∀ part ∈ call.parts, part.victims = [] := by
    intro part hpart
    have hframe := hidle part hpart
    cases part with
    | evicted => cases hframe
    | _ => rfl
  refine ⟨h.books.same rfl rfl ?_ ?_ rfl, named_eraseIdx h⟩
  · ext ⟨v, k⟩
    have hcall : ¬ call.Lands v k := by
      intro hl
      rw [hl.2.1] at hfail
      cases hfail
    exact ((exists_of_entry hc fun x => x.Lands v k).trans (or_iff_right hcall)).symm
  · ext ⟨v, k⟩
    exact dropped_eraseIdx hc hnone v k

/-! ## §7. Removals. -/

omit [DecidableEq ι] [DecidableEq κ] in
/-- What the other calls dropped and deregistered, and what one removal did. -/
theorem removal_split {r : ℕ} {removal : Removal ι κ} (hr : s.removals[r]? = some removal) (v : ι)
    (k : κ) : ∃ R R' : Prop,
    (s.Dropped v k ↔ removal.Drops v k ∨ R) ∧ (s.Hidden v k ↔ removal.Hides v k ∨ R') ∧
    ∀ x, ((s.removed r x).Dropped v k ↔ x.Drops v k ∨ R) ∧
      ((s.removed r x).Hidden v k ↔ x.Hides v k ∨ R') := by
  refine ⟨(∃ call ∈ s.puts, call.Drops v k) ∨ ∃ x ∈ s.removals.eraseIdx r, x.Drops v k,
    ∃ x ∈ s.removals.eraseIdx r, x.Hides v k, ?_, exists_of_entry hr _, fun x => ?_⟩
  · unfold Dropped
    rw [exists_of_entry hr fun x => x.Drops v k]
    exact or_left_comm
  · unfold removed Dropped Hidden
    by_cases hboth : (x.dropped && x.deregistered) = true
    · -- both halves done: it is nobody's business any more
      rw [if_pos hboth]
      rw [Bool.and_eq_true] at hboth
      have hdrops : ¬ x.Drops v k := by
        intro hx
        rw [hx.2.2.1] at hboth
        cases hboth.2
      have hhides : ¬ x.Hides v k := by
        intro hx
        rw [hx.2.2.1] at hboth
        cases hboth.1
      exact ⟨(or_iff_right hdrops).symm, (or_iff_right hhides).symm⟩
    · rw [if_neg hboth]
      show ((∃ call ∈ s.puts, call.Drops v k) ∨ (∃ y ∈ s.removals.set r x, y.Drops v k) ↔ _) ∧
        ((∃ y ∈ s.removals.set r x, y.Hides v k) ↔ _)
      rw [exists_set_entry hr x fun y => y.Drops v k, exists_set_entry hr x fun y => y.Hides v k]
      exact ⟨or_left_comm, Iff.rfl⟩

/-- **A drop**, before or after its deregistration. -/
theorem Sound.dropped (h : s.Sound dir) {r : ℕ} {removal : Removal ι κ}
    (hr : s.removals[r]? = some removal) (hfirst : removal.dropped = false)
    (hapart : removal.deregistered = false → ∀ k ∈ removal.keys, ¬ s.Landing removal.volume k) :
    ((s.setVolume removal.volume ((s.vols removal.volume).deleteBatch (cfg removal.volume)
      removal.keys)).removed r { removal with dropped := true }).Sound dir := by
  refine ⟨?_, h.named⟩
  -- once deregistered, its keys are hidden from the directory until it drops them
  have hhides : ∀ v k, removal.deregistered = true → v = removal.volume → k ∈ removal.keys →
      s.Hidden v k := by
    intro v k hdone hv hk
    obtain ⟨R, R', _, hs, _⟩ := removal_split hr v k
    exact hs.mpr (.inl ⟨hv.symm, hdone, hfirst, hk⟩)
  refine h.books.give (S := {a | a.1 = removal.volume ∧ a.2 ∈ removal.keys}) ?_ rfl rfl
    ?_ ?_ ?_ ?_ ?_ ?_
  · intro ⟨v, k⟩
    show k ∈ ((s.setVolume removal.volume _).vols v).residentByKey ↔
      k ∈ (s.vols v).residentByKey ∧ ¬ (v = removal.volume ∧ k ∈ removal.keys)
    rw [mem_setVolume, VolumeService.mem_resident_deleteBatch]
    by_cases hv : v = removal.volume
    · subst hv
      simp [and_comm]
    · simp [hv]
  · intro ⟨v, k⟩ ⟨hv, hk⟩ ha
    cases hdone : removal.deregistered with
    | false =>
        have hland : s.Landing v k := ha
        rw [show v = removal.volume from hv] at hland
        exact hapart hdone k hk hland
    | true => exact (h.books.apart _ ha).2 (hhides v k hdone hv hk)
  · intro ⟨v, k⟩ ha
    obtain ⟨R, R', hs, _, ht⟩ := removal_split hr v k
    rcases hs.mp ha with hd | hR
    · have hno := hd.2.1
      rw [hfirst] at hno
      cases hno
    · exact (ht _).1.mpr (.inr hR)
  · intro ⟨v, k⟩ ha
    obtain ⟨R, R', hs, _, ht⟩ := removal_split hr v k
    rcases (ht _).1.mp ha with ⟨hv, _, _, hk⟩ | hR
    · exact .inr ⟨hv.symm, hk⟩
    · exact .inl (hs.mpr (.inr hR))
  · intro ⟨v, k⟩ ⟨hv, hk⟩
    obtain ⟨R, R', _, _, ht⟩ := removal_split hr v k
    cases hdone : removal.deregistered with
    -- dropped first: the directory still lists them, and the deregistration is due
    | false => exact .inl ((ht _).1.mpr (.inl ⟨hv.symm, rfl, rfl, hk⟩))
    | true => exact .inr (h.books.struck _ (hhides v k hdone hv hk))
  · intro ⟨v, k⟩ ha
    obtain ⟨R, R', _, hs, ht⟩ := removal_split hr v k
    rcases (ht _).2.mp ha with ⟨_, _, hno, _⟩ | hR
    · cases hno
    · exact hs.mpr (.inr hR)
  · intro ⟨v, k⟩ ha
    obtain ⟨R, R', _, hs, ht⟩ := removal_split hr v k
    rcases hs.mp ha with ⟨hv, _, _, hk⟩ | hR
    · exact .inr ⟨hv.symm, hk⟩
    · exact .inl ((ht _).2.mpr (.inr hR))

omit [DecidableEq ι] [DecidableEq κ] in
/-- **A deregistration**, before or after its drop. -/
theorem Sound.deregistered (h : s.Sound dir) {r : ℕ} {removal : Removal ι κ}
    (hr : s.removals[r]? = some removal) (hfirst : removal.deregistered = false)
    (hapart : removal.dropped = false → ∀ k ∈ removal.keys, ¬ s.Landing removal.volume k) :
    ({ s with directory :=
        dir.notifyDeleteBatch removal.volume removal.keys s.directory }.removed r
      { removal with deregistered := true }).Sound dir := by
  refine ⟨?_, h.named⟩
  have hdrops : ∀ v k, removal.dropped = true → v = removal.volume → k ∈ removal.keys →
      s.Dropped v k := by
    intro v k hdone hv hk
    obtain ⟨R, R', hs, _⟩ := removal_split hr v k
    exact hs.mpr (.inl ⟨hv.symm, hdone, hfirst, hk⟩)
  refine h.books.strike (S := {a | a.1 = removal.volume ∧ a.2 ∈ removal.keys}) rfl ?_ rfl
    ?_ ?_ ?_ ?_ ?_ ?_
  · intro ⟨v, k⟩
    exact dir.mem_delete removal.volume removal.keys s.directory v k
  · intro ⟨v, k⟩ ⟨hv, hk⟩ ha
    cases hdone : removal.dropped with
    | false =>
        have hland : s.Landing v k := ha
        rw [show v = removal.volume from hv] at hland
        exact hapart hdone k hk hland
    | true => exact (h.books.apart _ ha).1 (hdrops v k hdone hv hk)
  · intro ⟨v, k⟩ ha
    obtain ⟨R, R', hs, _, ht⟩ := removal_split hr v k
    rcases (ht _).1.mp ha with ⟨_, _, hno, _⟩ | hR
    · cases hno
    · exact hs.mpr (.inr hR)
  · intro ⟨v, k⟩ ha
    obtain ⟨R, R', hs, _, ht⟩ := removal_split hr v k
    rcases hs.mp ha with ⟨hv, _, _, hk⟩ | hR
    · exact .inr ⟨hv.symm, hk⟩
    · exact .inl ((ht _).1.mpr (.inr hR))
  · intro ⟨v, k⟩ ha
    obtain ⟨R, R', _, hs, ht⟩ := removal_split hr v k
    rcases hs.mp ha with hd | hR
    · have hno := hd.2.1
      rw [hfirst] at hno
      cases hno
    · exact (ht _).2.mpr (.inr hR)
  · intro ⟨v, k⟩ ha
    obtain ⟨R, R', _, hs, ht⟩ := removal_split hr v k
    rcases (ht _).2.mp ha with ⟨hv, _, _, hk⟩ | hR
    · exact .inr ⟨hv.symm, hk⟩
    · exact .inl (hs.mpr (.inr hR))
  · intro ⟨v, k⟩ ⟨hv, hk⟩
    obtain ⟨R, R', _, _, ht⟩ := removal_split hr v k
    cases hdone : removal.dropped with
    | false => exact .inl ((ht _).2.mpr (.inl ⟨hv.symm, rfl, rfl, hk⟩))
    | true => exact .inr (h.books.removing _ (hdrops v k hdone hv hk))

/-! ## §8. Runs. -/

/-- A volume used: what it holds stays. -/
theorem Sound.used (h : s.Sound dir) (v : ι) {w : VolumeService κ β ρ}
    (hw : w.residentByKey = (s.vols v).residentByKey) : (s.setVolume v w).Sound dir := by
  refine ⟨h.books.same ?_ rfl rfl rfl rfl, h.named⟩
  ext ⟨x, k⟩
  show k ∈ ((s.setVolume v w).vols x).residentByKey ↔ k ∈ (s.vols x).residentByKey
  rw [mem_setVolume, hw]
  by_cases hx : x = v
  · subst hx
    simp
  · simp [hx]

omit [DecidableEq ι] [DecidableEq κ] in
/-- A call that has sent nothing yet. -/
theorem Sound.called (h : s.Sound dir) (v : ι) (parts : List (Put κ τ)) :
    ({ s with puts := s.puts ++ [⟨v, parts.map .unsent⟩] } : Mesh ι κ β ρ τ δ).Sound dir := by
  have hunsent : ∀ part ∈ parts.map (Part.unsent (κ := κ)), part.keys = [] ∧ part.victims = [] ∧
      part.frame? = none := by
    intro part hpart
    obtain ⟨p, _, rfl⟩ := List.mem_map.mp hpart
    exact ⟨rfl, rfl, rfl⟩
  have hlands : ∀ x k, ¬ (⟨v, parts.map .unsent⟩ : PutCall ι κ τ).Lands x k := by
    rintro x k ⟨_, _, hk⟩
    obtain ⟨part, hpart, hk⟩ := List.mem_flatMap.mp hk
    rw [(hunsent part hpart).1] at hk
    cases hk
  have hdrops : ∀ x k, ¬ (⟨v, parts.map .unsent⟩ : PutCall ι κ τ).Drops x k := by
    rintro x k ⟨_, part, hpart, hk⟩
    rw [(hunsent part hpart).2.1] at hk
    cases hk
  refine ⟨h.books.same rfl rfl ?_ ?_ rfl, ?_⟩
  · ext ⟨x, k⟩
    show (∃ call ∈ s.puts ++ [_], call.Lands x k) ↔ ∃ call ∈ s.puts, call.Lands x k
    simp only [List.mem_append, List.mem_singleton, or_and_right, exists_or, exists_eq_left,
      hlands, or_false]
  · ext ⟨x, k⟩
    show (∃ call ∈ s.puts ++ [_], call.Drops x k) ∨ _ ↔ (∃ call ∈ s.puts, call.Drops x k) ∨ _
    simp only [List.mem_append, List.mem_singleton, or_and_right, exists_or, exists_eq_left,
      hdrops, or_false]
  · intro call hcall part hpart f hf
    rcases List.mem_append.mp hcall with hcall | hcall
    · exact h.named call hcall part hpart f hf
    · obtain rfl := List.mem_singleton.mp hcall
      rw [(hunsent part hpart).2.2] at hf
      cases hf

omit [DecidableEq ι] [DecidableEq κ] in
/-- A delete that has done nothing yet. -/
theorem Sound.requested (h : s.Sound dir) (v : ι) (keys : List κ) :
    ({ s with removals := s.removals ++ [⟨v, keys, false, false⟩] } :
      Mesh ι κ β ρ τ δ).Sound dir := by
  refine ⟨h.books.same rfl rfl rfl ?_ ?_, h.named⟩
  · ext ⟨x, k⟩
    show _ ∨ (∃ r ∈ s.removals ++ [_], r.Drops x k) ↔ _ ∨ ∃ r ∈ s.removals, r.Drops x k
    simp [or_and_right, exists_or, Removal.Drops]
  · ext ⟨x, k⟩
    show (∃ r ∈ s.removals ++ [_], r.Hides x k) ↔ ∃ r ∈ s.removals, r.Hides x k
    simp [or_and_right, exists_or, Removal.Hides]

/-- A part of a put that is sent finds it unsent. -/
theorem next_land {c i : ℕ} (hst : Mesh.next cfg store dir s (.land c i) = some t) :
    ∃ call p, s.puts[c]? = some call ∧ call.parts[i]? = some (.unsent p) ∧
      t = (match (s.vols call.volume).beginPut (cfg call.volume) store p with
        | .done w exc => (s.setVolume call.volume w).setPart c i call (ended p.keys exc)
        | .notifying w f victims =>
            (s.setVolume call.volume w).setPart c i call (.evicted f victims)) := by
  obtain ⟨call, hc, hst⟩ := Option.bind_eq_some_iff.mp hst
  split at hst
  · rename_i p hi
    refine ⟨call, p, hc, hi, ?_⟩
    cases hb : (s.vols call.volume).beginPut (cfg call.volume) store p with
    | done w exc =>
        rw [hb] at hst
        exact (Option.some.inj hst).symm
    | notifying w f victims =>
        rw [hb] at hst
        exact (Option.some.inj hst).symm
  · cases hst

/-- A part whose evictions are reported has evicted. -/
theorem next_report {c i : ℕ} (hst : Mesh.next cfg store dir s (.report c i) = some t) :
    ∃ call f victims, s.puts[c]? = some call ∧ call.parts[i]? = some (.evicted f victims) ∧
      t = { s with directory :=
        dir.notifyDeleteBatch call.volume victims s.directory }.setPart c i call (.told f) := by
  obtain ⟨call, hc, hst⟩ := Option.bind_eq_some_iff.mp hst
  split at hst
  · rename_i f victims hi
    exact ⟨call, f, victims, hc, hi, (Option.some.inj hst).symm⟩
  · cases hst

/-- A part that settles has reported. -/
theorem next_settle {c i : ℕ} (hst : Mesh.next cfg store dir s (.settle c i) = some t) :
    ∃ call f, s.puts[c]? = some call ∧ call.parts[i]? = some (.told f) ∧
      t = (s.setVolume call.volume
        ((s.vols call.volume).finishPut (cfg call.volume) f).1).setPart c i call
          (ended f.keys ((s.vols call.volume).finishPut (cfg call.volume) f).2) := by
  obtain ⟨call, hc, hst⟩ := Option.bind_eq_some_iff.mp hst
  split at hst
  · rename_i f hi
    exact ⟨call, f, hc, hi, (Option.some.inj hst).symm⟩
  · cases hst

/-- **One step**, apart from the others, leaves the directory right about everything that
is not on the way. -/
theorem Sound.next (h : s.Sound dir) {e : MeshEvent ι κ τ} (hapart : s.Apart cfg store dir e)
    (hst : Mesh.next cfg store dir s e = some t) : t.Sound dir := by
  cases e with
  | put v parts =>
      cases hst
      exact h.called v parts
  | land c i =>
      obtain ⟨call, p, hc, hi, rfl⟩ := next_land hst
      obtain ⟨hvictims, hends⟩ := hapart call hc _ hi p rfl
      have hnamed : ∀ k, k ∈ ((s.vols call.volume).settledFrame (cfg call.volume) store
          p).newByKey ↔ k ∈ p.keys := fun k => VolumeService.mem_newByKey
      -- it evicts first, or it settles at once
      rcases (s.vols call.volume).beginPut_cases (cfg call.volume) store p with
        ⟨hnone, hb⟩ | ⟨_, hb⟩
      · rw [hb]
        refine h.ended hc hi rfl rfl rfl ?_ hnamed (hends hnone)
        unfold VolumeService.settledVolume
        rw [hnone]
        rfl
      · rw [hb]
        refine h.evicted hc hi (fun k => ?_) hnamed hvictims
        exact VolumeService.mem_resident_deleteBatch (cfg call.volume) _ k _
  | report c i =>
      obtain ⟨call, f, victims, hc, hi, rfl⟩ := next_report hst
      exact h.reported hc hi
  | settle c i =>
      obtain ⟨call, f, hc, hi, rfl⟩ := next_settle hst
      refine h.ended hc hi rfl rfl rfl rfl ?_ (hapart call hc _ hi f rfl)
      exact h.named call ((mem_of_entry hc _).mpr (.inl rfl)) (.told f)
        ((mem_of_entry hi _).mpr (.inl rfl)) f rfl
  | register c =>
      obtain ⟨call, hc, hst⟩ := Option.bind_eq_some_iff.mp hst
      rw [Option.ite_none_right_eq_some] at hst
      obtain ⟨hall, hst⟩ := hst
      cases hst
      exact h.registered hc hall
  | raise c =>
      obtain ⟨call, hc, hst⟩ := Option.bind_eq_some_iff.mp hst
      rw [Option.ite_none_right_eq_some] at hst
      obtain ⟨⟨hfail, hidle⟩, hst⟩ := hst
      cases hst
      exact h.raised hc hfail hidle
  | delete v keys =>
      cases hst
      exact h.requested v keys
  | drop r =>
      obtain ⟨removal, hr, hst⟩ := Option.bind_eq_some_iff.mp hst
      rw [Option.ite_none_left_eq_some] at hst
      obtain ⟨hfirst, hst⟩ := hst
      cases hst
      exact h.dropped hr (Bool.not_eq_true _ ▸ hfirst) (hapart removal hr)
  | deregister r =>
      obtain ⟨removal, hr, hst⟩ := Option.bind_eq_some_iff.mp hst
      rw [Option.ite_none_left_eq_some] at hst
      obtain ⟨hfirst, hst⟩ := hst
      cases hst
      exact h.deregistered hr (Bool.not_eq_true _ ▸ hfirst) (hapart removal hr)
  | get v keys =>
      cases hst
      exact h.used v rfl
  | touch v keys =>
      cases hst
      exact h.used v rfl

/-- **The directory and the volumes agree** in every state of such a run with no call in
flight. -/
theorem directory_agrees
    (h : ((machine cfg store dir).guarded (Apart cfg store dir)).Reachable s)
    (hquiet : s.Quiet) : s.Agrees dir := by
  have hsound : s.Sound dir := by
    refine h.guarded_invariant ?_ ?_
    · intro s hs
      obtain rfl := hs
      exact sound_start cfg dir
    · intro s e t hs hapart hst
      exact hs.next hapart hst
  obtain ⟨hputs, hremovals⟩ := hquiet
  intro v k
  refine (hsound.books.agree ?_ ?_ ?_ (v, k)).symm
  · ext ⟨x, y⟩
    show (∃ call ∈ s.puts, call.Lands x y) ↔ False
    simp [hputs]
  · ext ⟨x, y⟩
    show (∃ call ∈ s.puts, call.Drops x y) ∨ (∃ r ∈ s.removals, r.Drops x y) ↔ False
    simp [hputs, hremovals]
  · ext ⟨x, y⟩
    show (∃ r ∈ s.removals, r.Hides x y) ↔ False
    simp [hremovals]

instance (s : Mesh ι κ β ρ τ δ) (v : ι) (k : κ) : Decidable (s.Landing v k) :=
  inferInstanceAs (Decidable (∃ call ∈ s.puts, call.volume = v ∧ call.failed = false ∧
    k ∈ call.keys))

instance (s : Mesh ι κ β ρ τ δ) (v : ι) (k : κ) : Decidable (s.Dropped v k) :=
  inferInstanceAs (Decidable ((∃ call ∈ s.puts, call.volume = v ∧
      ∃ part ∈ call.parts, k ∈ part.victims) ∨
    ∃ r ∈ s.removals, r.volume = v ∧ r.dropped = true ∧ r.deregistered = false ∧ k ∈ r.keys))

instance (s : Mesh ι κ β ρ τ δ) (v : ι) (k : κ) : Decidable (s.Hidden v k) :=
  inferInstanceAs (Decidable (∃ r ∈ s.removals, r.volume = v ∧ r.deregistered = true ∧
    r.dropped = false ∧ k ∈ r.keys))

instance (s : Mesh ι κ β ρ τ δ) (call : PutCall ι κ τ) (f : VolumeService.Frame κ) :
    Decidable (s.Ends cfg dir call f) :=
  inferInstanceAs (Decidable ((_ → _ → ∀ k ∈ call.keys, _) ∧ (_ → ∀ k ∈ f.keys, _)))

instance (s : Mesh ι κ β ρ τ δ) :
    (e : MeshEvent ι κ τ) → Decidable (s.Apart cfg store dir e)
  | .land c i => inferInstanceAs (Decidable (∀ call ∈ s.puts[c]?, ∀ part ∈ call.parts[i]?,
      ∀ p ∈ part.unsent?, (∀ k ∈ (s.vols call.volume).putVictims (cfg call.volume) store p, _) ∧
        (_ → _)))
  | .settle c i => inferInstanceAs (Decidable (∀ call ∈ s.puts[c]?, ∀ part ∈ call.parts[i]?,
      ∀ f ∈ part.told?, _))
  | .drop r => inferInstanceAs (Decidable (∀ removal ∈ s.removals[r]?, _ →
      ∀ k ∈ removal.keys, _))
  | .deregister r => inferInstanceAs (Decidable (∀ removal ∈ s.removals[r]?, _ →
      ∀ k ∈ removal.keys, _))
  | .put _ _ | .report _ _ | .register _ | .raise _ | .delete _ _ | .get _ _ | .touch _ _ =>
      .isTrue trivial

end Steps

/-! ## §9. Two runs of one volume. -/

/-- The directory as a list of who holds what. -/
def listing (ι κ : Type*) [DecidableEq ι] [DecidableEq κ] : Directory ι κ (List (ι × κ)) where
  holders d k := (d.filter fun entry => entry.2 = k).map Prod.fst
  fresh := []
  notifyPutBatch ks v d := d ++ ks.map fun k => (v, k)
  notifyDeleteBatch v ks d := d.filter fun entry => ¬ (entry.1 = v ∧ entry.2 ∈ ks)
  holders_fresh _ := rfl
  mem_put ks v d w k := by
    simp only [List.mem_map, List.mem_filter, List.mem_append, decide_eq_true_eq]
    constructor
    · rintro ⟨⟨x, y⟩, ⟨hd | ⟨z, hz, heq⟩, rfl⟩, rfl⟩
      · exact .inl ⟨(x, y), ⟨hd, rfl⟩, rfl⟩
      · cases heq
        exact .inr ⟨rfl, hz⟩
    · rintro (⟨⟨x, y⟩, ⟨hd, rfl⟩, rfl⟩ | ⟨rfl, hk⟩)
      · exact ⟨(x, y), ⟨.inl hd, rfl⟩, rfl⟩
      · exact ⟨(w, k), ⟨.inr ⟨k, hk, rfl⟩, rfl⟩, rfl⟩
  mem_delete v ks d w k := by
    simp only [List.mem_map, List.mem_filter, decide_eq_true_eq]
    constructor
    · rintro ⟨⟨x, y⟩, ⟨⟨hd, hne⟩, rfl⟩, rfl⟩
      exact ⟨⟨(x, y), ⟨hd, rfl⟩, rfl⟩, hne⟩
    · rintro ⟨⟨⟨x, y⟩, ⟨hd, rfl⟩, rfl⟩, hne⟩
      exact ⟨(x, y), ⟨⟨hd, hne⟩, rfl⟩, rfl⟩

/-- A batch of two keys of six bytes each, on a volume of ten. -/
def batchTooBig : List (MeshEvent ℕ ℕ (Stored Unit)) :=
  [.put 0 [putOne 0 6, putOne 1 6], .land 0 0, .land 0 1, .report 0 1, .settle 0 1, .register 0]

/-- **A stale entry**: the second key of the batch evicts the first, the directory hears of
that before it has ever listed it, and is then told of both. -/
theorem stale_entry :
    ¬ ∀ s : Mesh ℕ ℕ Unit (LeastRecentlyUsed ℕ) (Stored Unit) (List (ℕ × ℕ)),
      (machine (fun _ => tenBytes) (overwriting ℕ Unit) (listing ℕ ℕ)).Reachable s →
        s.Quiet → s.Agrees (listing ℕ ℕ) := by
  intro hall
  have hrun : (Machine.replay (next (fun _ => tenBytes) (overwriting ℕ Unit) (listing ℕ ℕ))
      (start (fun _ => tenBytes) (listing ℕ ℕ)) batchTooBig).any (fun s => decide
        (s.puts.length = 0 ∧ s.removals.length = 0 ∧
          0 ∈ (listing ℕ ℕ).holders s.directory 0 ∧ 0 ∉ (s.vols 0).residentByKey)) = true := by
    decide +kernel
  obtain ⟨s, hs, hend⟩ := (Option.any_eq_true _ _).mp hrun
  obtain ⟨hputs, hremovals, hlisted, hgone⟩ := of_decide_eq_true hend
  have hreach := Machine.Reachable.of_replay
    (M := machine (fun _ => tenBytes) (overwriting ℕ Unit) (listing ℕ ℕ))
    (fun _ _ _ hst => hst) batchTooBig (.init rfl) hs
  have hquiet : s.Quiet :=
    ⟨List.length_eq_zero_iff.mp hputs, List.length_eq_zero_iff.mp hremovals⟩
  exact hgone ((hall s hreach hquiet 0 0).mp hlisted)

/-- A put that evicts what was registered before, a delete, and a batch that fits. -/
def inTurn : List (MeshEvent ℕ ℕ (Stored Unit)) :=
  [.put 0 [putOne 0 6], .land 0 0, .register 0, .put 0 [putOne 1 6], .land 0 0, .get 0 [1],
    .report 0 0, .settle 0 0, .register 0, .delete 0 [1], .drop 0, .deregister 0,
    .put 0 [putOne 2 3, putOne 3 3], .land 0 1, .land 0 0, .register 0]

theorem directory_agrees_in_turn :
    ∃ s : Mesh ℕ ℕ Unit (LeastRecentlyUsed ℕ) (Stored Unit) (List (ℕ × ℕ)),
      s.directory = [(0, 2), (0, 3)] ∧ s.Agrees (listing ℕ ℕ) := by
  have hrun : (Machine.replay (Machine.guardedNext
      (Apart (fun _ => tenBytes) (overwriting ℕ Unit) (listing ℕ ℕ))
      (next (fun _ => tenBytes) (overwriting ℕ Unit) (listing ℕ ℕ)))
      (start (fun _ => tenBytes) (listing ℕ ℕ)) inTurn).any (fun s => decide
        (s.puts.length = 0 ∧ s.removals.length = 0 ∧ s.directory = [(0, 2), (0, 3)])) = true := by
    decide +kernel
  obtain ⟨s, hs, hend⟩ := (Option.any_eq_true _ _).mp hrun
  obtain ⟨hputs, hremovals, hlisted⟩ := of_decide_eq_true hend
  have hreach := Machine.Reachable.of_guarded_replay
    (M := machine (fun _ => tenBytes) (overwriting ℕ Unit) (listing ℕ ℕ))
    (fun _ _ _ hst => hst) inTurn (.init rfl) hs
  exact ⟨s, hlisted, directory_agrees hreach
    ⟨List.length_eq_zero_iff.mp hputs, List.length_eq_zero_iff.mp hremovals⟩⟩

end Mesh

end Toso.Store
