/-
  Toso.Proposed.Dispatcher — gates parked on actions, and the commit that
  releases them.

  The part of a `Dispatcher` that follows its folds: which gates still miss
  which action.  A gate is numbered by the order it was made in.  `gate` parks
  before it looks at its probe, so a commit made while the probe runs is not
  lost; `commit` takes one action off every gate registered under it.

  Main results:
    * `missing_commit` — a registered gate misses one action less after its
      commit.
    * `Registered.park`, `Registered.unpark`, `Registered.commit` — a gate
      stays registered under everything it still misses.
    * `Honest.gate`, `Honest.commit` — a released gate misses nothing.
-/
import Toso.Lib.Dict
import Mathlib.Data.List.Dedup

namespace Toso.Proposed

open Lib

/-! ## §1. Gates. -/

/-- `_Waiter`: what one gate still misses, and whether it was released. -/
structure Waiter (α : Type*) where
  missing : List α
  ready : Bool
  deriving DecidableEq

/-- A dispatcher's gates: the numbers parked under each action in parking order,
and every gate ever made. -/
structure Dispatcher (α : Type*) where
  waiting : Dict α (List ℕ)
  waiters : List (Waiter α)
  deriving DecidableEq

/-- A false gate must name at least one action. -/
inductive GateError
  | namesNothing
  deriving DecidableEq

namespace Dispatcher

variable {α : Type*} [DecidableEq α]

/-- A dispatcher nobody parked on. -/
def new : Dispatcher α := ⟨Dict.empty, []⟩

/-- Register gate `n` under one action. -/
def enlist (n : ℕ) (waiting : Dict α (List ℕ)) (a : α) : Dict α (List ℕ) :=
  waiting.set a (waiting.getD a [] ++ [n])

/-- Take gate `n` off one action, which is dropped when nobody is left. -/
def delist (n : ℕ) (waiting : Dict α (List ℕ)) (a : α) : Dict α (List ℕ) :=
  match waiting.get? a with
  | none => waiting
  | some ns => if ns.erase n = [] then waiting.erase a else waiting.set a (ns.erase n)

/-- The gates of a dispatcher that miss something, and how many were made. -/
def missing (d : Dispatcher α) (n : ℕ) : List α :=
  (d.waiters[n]?.map Waiter.missing).getD []

/-- Park a gate missing every one of `actions`; it gets the next number. -/
def park (actions : List α) (d : Dispatcher α) : Dispatcher α where
  waiting := actions.dedup.foldl (enlist d.waiters.length) d.waiting
  waiters := d.waiters ++ [⟨actions.dedup, false⟩]

/-- Take a gate off everything it still misses. -/
def unpark (n : ℕ) (d : Dispatcher α) : Dispatcher α :=
  { d with waiting := (d.missing n).foldl (delist n) d.waiting }

/-- One gate at a commit: the action is discarded, the last one releases it. -/
def Waiter.discard (a : α) (w : Waiter α) : Waiter α where
  missing := w.missing.filter (· ≠ a)
  ready := w.ready || (w.missing.filter (· ≠ a)).isEmpty

/-- The commit of `a`, after every fold of it. -/
def commit (a : α) (d : Dispatcher α) : Dispatcher α where
  waiting := d.waiting.erase a
  waiters := (d.waiting.getD a []).foldl (fun ws n => ws.modify n (Waiter.discard a)) d.waiters

/-- `gate`: the number of an awaitable for every action, or `none` if `holds`. -/
def gate (holds : Bool) (actions : List α) (d : Dispatcher α) :
    Except GateError (Dispatcher α × Option ℕ) :=
  if actions.dedup = [] then
    if holds then .ok (d, none) else .error .namesNothing
  else if holds then .ok (unpark d.waiters.length (park actions d), none)
  else .ok (park actions d, some d.waiters.length)

/-! ## §2. What a gate still misses. -/

/-- Gate `n` is parked under everything it still misses. -/
def Registered (d : Dispatcher α) (n : ℕ) : Prop :=
  ∀ a ∈ d.missing n, n ∈ d.waiting.getD a []

theorem getD_enlist (n : ℕ) (waiting : Dict α (List ℕ)) (a b : α) :
    (enlist n waiting a).getD b [] = if a = b then waiting.getD b [] ++ [n]
      else waiting.getD b [] := by
  unfold enlist Dict.getD
  rw [Dict.get?_set]
  by_cases h : a = b
  · subst h
    rw [if_pos rfl, if_pos rfl]
    rfl
  · rw [if_neg h, if_neg h]

/-- Registration only adds. -/
theorem mem_getD_foldl_enlist (n m : ℕ) (b : α) (as : List α) :
    ∀ waiting : Dict α (List ℕ),
      m ∈ (as.foldl (enlist n) waiting).getD b []
        ↔ m ∈ waiting.getD b [] ∨ (b ∈ as ∧ m = n) := by
  induction as with
  | nil => intro waiting; simp
  | cons a as ih =>
      intro waiting
      rw [List.foldl_cons, ih, getD_enlist]
      by_cases h : a = b
      · subst h
        simp only [if_true, List.mem_append, List.mem_cons, true_or, true_and]
        tauto
      · simp only [if_neg h, List.mem_cons, Ne.symm h, false_or]

theorem getD_delist (n : ℕ) (waiting : Dict α (List ℕ)) (a b : α) :
    (delist n waiting a).getD b [] = if a = b then (waiting.getD b []).erase n
      else waiting.getD b [] := by
  unfold delist Dict.getD
  cases hget : waiting.get? a with
  | none =>
      by_cases hab : a = b
      · subst hab
        simp only [if_true, hget, Option.getD_none, List.erase_nil]
      · rw [if_neg hab]
  | some ns =>
      by_cases hnil : ns.erase n = []
      · simp only [if_pos hnil, Dict.get?_erase]
        by_cases hab : a = b
        · subst hab
          simp only [if_true, hget, Option.getD_some, Option.getD_none, hnil]
        · rw [if_neg hab, if_neg hab]
      · simp only [if_neg hnil, Dict.get?_set]
        by_cases hab : a = b
        · subst hab
          simp only [if_true, hget, Option.getD_some]
        · rw [if_neg hab, if_neg hab]

theorem mem_getD_delist {n m : ℕ} (hm : m ≠ n) (waiting : Dict α (List ℕ)) (a b : α) :
    m ∈ (delist n waiting a).getD b [] ↔ m ∈ waiting.getD b [] := by
  rw [getD_delist]
  by_cases hab : a = b
  · rw [if_pos hab]
    exact List.mem_erase_of_ne hm
  · rw [if_neg hab]

theorem mem_getD_foldl_delist {n m : ℕ} (hm : m ≠ n) (b : α) (as : List α) :
    ∀ waiting : Dict α (List ℕ),
      m ∈ (as.foldl (delist n) waiting).getD b [] ↔ m ∈ waiting.getD b [] := by
  induction as with
  | nil => intro waiting; rfl
  | cons a as ih =>
      intro waiting
      rw [List.foldl_cons, ih, mem_getD_delist hm]

theorem missing_park (actions : List α) (d : Dispatcher α) (n : ℕ) :
    (park actions d).missing n
      = if n = d.waiters.length then actions.dedup else d.missing n := by
  unfold missing park
  by_cases h : n = d.waiters.length
  · subst h
    simp
  · rw [if_neg h]
    by_cases hlt : n < d.waiters.length
    · rw [List.getElem?_append_left hlt]
    · have hge : d.waiters.length + 1 ≤ n := by omega
      rw [List.getElem?_eq_none (by simpa using hge),
        List.getElem?_eq_none (by omega : d.waiters.length ≤ n)]

theorem missing_unpark (n m : ℕ) (d : Dispatcher α) :
    (unpark n d).missing m = d.missing m := rfl

/-- A gate that was parked before stays registered. -/
theorem Registered.park {d : Dispatcher α} {n : ℕ} (h : d.Registered n)
    (hlt : n < d.waiters.length) (actions : List α) :
    (Dispatcher.park actions d).Registered n := by
  intro a ha
  rw [missing_park, if_neg (Nat.ne_of_lt hlt)] at ha
  exact (mem_getD_foldl_enlist _ _ _ _ _).mpr (.inl (h a ha))

/-- A gate just parked is registered under all it misses. -/
theorem registered_park (actions : List α) (d : Dispatcher α) :
    (Dispatcher.park actions d).Registered d.waiters.length := by
  intro a ha
  rw [missing_park, if_pos rfl] at ha
  exact (mem_getD_foldl_enlist _ _ _ _ _).mpr (.inr ⟨ha, rfl⟩)

/-- Taking one gate off leaves the others registered. -/
theorem Registered.unpark {d : Dispatcher α} {n m : ℕ} (h : d.Registered m) (hm : m ≠ n) :
    (Dispatcher.unpark n d).Registered m := by
  intro a ha
  exact (mem_getD_foldl_delist hm _ _ _).mpr (h a ha)

theorem Waiter.discard_discard (a : α) (w : Waiter α) :
    Waiter.discard a (Waiter.discard a w) = Waiter.discard a w := by
  unfold Waiter.discard
  simp

/-- The gates registered under the action are discarded from, the others are kept. -/
theorem getElem?_foldl_discard (a : α) (n : ℕ) (ns : List ℕ) :
    ∀ ws : List (Waiter α),
      (ns.foldl (fun ws m => ws.modify m (Waiter.discard a)) ws)[n]?
        = if n ∈ ns then ws[n]?.map (Waiter.discard a) else ws[n]? := by
  induction ns with
  | nil => intro ws; rfl
  | cons m ns ih =>
      intro ws
      rw [List.foldl_cons, ih]
      simp only [List.getElem?_modify, List.mem_cons]
      by_cases hmn : m = n
      · subst hmn
        by_cases hns : m ∈ ns <;> cases ws[m]? <;>
          simp [hns, Waiter.discard_discard]
      · by_cases hns : n ∈ ns <;> cases ws[n]? <;> simp [hns, hmn, Ne.symm hmn]

/-- **A commit takes its action off every gate registered under it.** -/
theorem missing_commit {d : Dispatcher α} {n : ℕ} (h : d.Registered n) (a : α) :
    (commit a d).missing n = (d.missing n).filter (· ≠ a) := by
  unfold missing commit
  simp only [getElem?_foldl_discard]
  by_cases hn : n ∈ d.waiting.getD a []
  · rw [if_pos hn]
    cases d.waiters[n]? <;> rfl
  · rw [if_neg hn]
    -- not registered under `a`, so it does not miss it
    have ha : a ∉ d.missing n := fun ha => hn (h a ha)
    refine (List.filter_eq_self.mpr fun b hb => ?_).symm
    have hne : b ≠ a := fun heq => ha (heq ▸ hb)
    simp [hne]

theorem Registered.commit {d : Dispatcher α} {n : ℕ} (h : d.Registered n) (a : α) :
    (Dispatcher.commit a d).Registered n := by
  intro b hb
  rw [missing_commit h, List.mem_filter] at hb
  have hne : a ≠ b := fun heq => by simp [heq] at hb
  show n ∈ (d.waiting.erase a).getD b []
  unfold Dict.getD
  rw [Dict.get?_erase_ne _ hne]
  exact h b hb.1

theorem length_commit (a : α) (d : Dispatcher α) :
    (commit a d).waiters.length = d.waiters.length := by
  have key : ∀ (ns : List ℕ) (ws : List (Waiter α)),
      (ns.foldl (fun ws m => ws.modify m (Waiter.discard a)) ws).length = ws.length := by
    intro ns
    induction ns with
    | nil => intro ws; rfl
    | cons m ns ih => intro ws; rw [List.foldl_cons, ih, List.length_modify]
  exact key _ _

/-! ## §3. Released gates. -/

/-- The task awaiting gate `n` may run. -/
def Released (d : Dispatcher α) (n : ℕ) : Prop :=
  (d.waiters[n]?.map Waiter.ready).getD false = true

instance (d : Dispatcher α) (n : ℕ) : Decidable (d.Released n) :=
  inferInstanceAs (Decidable (_ = true))

/-- A gate that misses nothing was released. -/
def Prompt (d : Dispatcher α) : Prop :=
  ∀ w ∈ d.waiters, w.missing = [] → w.ready = true

omit [DecidableEq α] in
/-- In a prompt dispatcher, a gate that misses nothing is open. -/
theorem Prompt.released {d : Dispatcher α} (h : d.Prompt) {n : ℕ} (hn : n < d.waiters.length)
    (hmiss : d.missing n = []) : d.Released n := by
  unfold missing at hmiss
  unfold Released
  rw [List.getElem?_eq_getElem hn] at hmiss ⊢
  exact h _ (List.getElem_mem hn) hmiss

theorem Prompt.park {d : Dispatcher α} (h : d.Prompt) {actions : List α}
    (hne : actions.dedup ≠ []) : (Dispatcher.park actions d).Prompt := by
  intro w hw hmiss
  rcases List.mem_append.mp hw with hw | hw
  · exact h w hw hmiss
  · rw [List.mem_singleton] at hw
    subst hw
    exact absurd hmiss hne

theorem Prompt.unpark {d : Dispatcher α} (h : d.Prompt) (n : ℕ) :
    (Dispatcher.unpark n d).Prompt := h

theorem Prompt.commit {d : Dispatcher α} (h : d.Prompt) (a : α) :
    (Dispatcher.commit a d).Prompt := by
  have key : ∀ (ns : List ℕ) (ws : List (Waiter α)),
      (∀ w ∈ ws, w.missing = [] → w.ready = true) →
      ∀ w ∈ ns.foldl (fun ws n => ws.modify n (Waiter.discard a)) ws,
        w.missing = [] → w.ready = true := by
    intro ns
    induction ns with
    | nil => intro ws hws; exact hws
    | cons n ns ih =>
        intro ws hws
        rw [List.foldl_cons]
        apply ih
        intro w hw hmiss
        obtain ⟨i, hi⟩ := List.mem_iff_getElem?.mp hw
        rw [List.getElem?_modify] at hi
        cases hold : ws[i]? with
        | none =>
            rw [hold] at hi
            cases hi
        | some v =>
            rw [hold] at hi
            have hv := hws v (List.mem_of_getElem? hold)
            by_cases hni : n = i
            · -- the discarded waiter: released when its last action goes
              simp only [if_pos hni, Option.map_eq_map, Option.map_some,
                Option.some.injEq] at hi
              subst hi
              have hempty : v.missing.filter (· ≠ a) = [] := hmiss
              show (v.ready || (v.missing.filter (· ≠ a)).isEmpty) = true
              rw [hempty]
              exact Bool.or_true _
            · simp only [if_neg hni, Option.map_eq_map, Option.map_some,
                Option.some.injEq] at hi
              subst hi
              exact hv hmiss
  exact key _ _ h

/-! ## §4. What a gate answers. -/

/-- **The answers of `gate`**: nothing to wait for, and every older gate as it
was; or a new gate, parked under every action, while the probe is false. -/
theorem gate_cases {holds : Bool} {actions : List α} {d d' : Dispatcher α}
    {ready : Option ℕ} (h : gate holds actions d = .ok (d', ready)) :
    (ready = none ∧ holds = true ∧ d.waiters.length ≤ d'.waiters.length ∧
      (d.Prompt → d'.Prompt) ∧
      ∀ n, n < d.waiters.length → d'.missing n = d.missing n ∧
        (d.Registered n → d'.Registered n)) ∨
    (ready = some d.waiters.length ∧ holds = false ∧ actions.dedup ≠ [] ∧
      d' = park actions d) := by
  unfold gate at h
  by_cases hnil : actions.dedup = []
  · rw [if_pos hnil] at h
    cases holds with
    | false => cases h
    | true =>
        cases h
        exact .inl ⟨rfl, rfl, le_refl _, fun hp => hp, fun n _ => ⟨rfl, fun hr => hr⟩⟩
  · rw [if_neg hnil] at h
    cases holds with
    | false =>
        cases h
        exact .inr ⟨rfl, rfl, hnil, rfl⟩
    | true =>
        cases h
        refine .inl ⟨rfl, rfl, ?_, fun hp => (hp.park hnil).unpark _, ?_⟩
        · show d.waiters.length ≤ (d.waiters ++ [_]).length
          rw [List.length_append]
          omega
        · intro n hn
          have hne : n ≠ d.waiters.length := Nat.ne_of_lt hn
          refine ⟨?_, fun hr => (hr.park hn actions).unpark hne⟩
          rw [missing_unpark, missing_park, if_neg hne]

/-- A false gate that names something, or a true one, answers. -/
theorem gate_total (holds : Bool) (actions : List α) (d : Dispatcher α)
    (h : actions = [] → holds = true) : ∃ d' ready, gate holds actions d = .ok (d', ready) := by
  unfold gate
  by_cases hnil : actions.dedup = []
  · have hempty : actions = [] := by
      apply List.eq_nil_iff_forall_not_mem.mpr
      intro a ha
      have hmem := List.mem_dedup.mpr ha
      rw [hnil] at hmem
      cases hmem
    rw [if_pos hnil, h hempty]
    exact ⟨_, _, rfl⟩
  · rw [if_neg hnil]
    cases holds <;> exact ⟨_, _, rfl⟩

/-! ## §5. Exactly who is parked where. -/

/-- No action is kept for nobody, and nobody is parked under one action twice. -/
structure Tidy (waiting : Dict α (List ℕ)) : Prop where
  nonempty : ∀ a, waiting.get? a ≠ some []
  nodup : ∀ a, (waiting.getD a []).Nodup

theorem tidy_empty : Tidy (Dict.empty : Dict α (List ℕ)) :=
  ⟨fun _ => nofun, fun _ => List.nodup_nil⟩

theorem Tidy.enlist {waiting : Dict α (List ℕ)} (h : Tidy waiting) {n : ℕ} {a : α}
    (hn : n ∉ waiting.getD a []) : Tidy (Dispatcher.enlist n waiting a) where
  nonempty b := by
    unfold Dispatcher.enlist
    rw [Dict.get?_set]
    by_cases hab : a = b
    · simp [hab]
    · rw [if_neg hab]
      exact h.nonempty b
  nodup b := by
    rw [getD_enlist]
    by_cases hab : a = b
    · subst hab
      rw [if_pos rfl]
      refine List.nodup_append.mpr ⟨h.nodup a, List.nodup_singleton n, fun m hm k hk heq => ?_⟩
      rw [List.mem_singleton] at hk
      subst hk
      subst heq
      exact hn hm
    · rw [if_neg hab]
      exact h.nodup b

/-- A gate parked under distinct actions it was parked under none of. -/
theorem Tidy.foldl_enlist {n : ℕ} (as : List α) :
    ∀ {waiting : Dict α (List ℕ)}, Tidy waiting → as.Nodup →
      (∀ a ∈ as, n ∉ waiting.getD a []) → Tidy (as.foldl (Dispatcher.enlist n) waiting) := by
  induction as with
  | nil => intro waiting h _ _; exact h
  | cons a as ih =>
      intro waiting h hnd hn
      have ⟨ha, has⟩ := List.nodup_cons.mp hnd
      refine ih (h.enlist (hn a List.mem_cons_self)) has fun b hb => ?_
      have hab : a ≠ b := fun heq => ha (by rw [heq]; exact hb)
      rw [getD_enlist, if_neg hab]
      exact hn b (List.mem_cons_of_mem _ hb)

theorem Tidy.erase {waiting : Dict α (List ℕ)} (h : Tidy waiting) (a : α) :
    Tidy (waiting.erase a) where
  nonempty b := by
    rw [Dict.get?_erase]
    by_cases hab : a = b
    · simp [hab]
    · rw [if_neg hab]
      exact h.nonempty b
  nodup b := by
    unfold Dict.getD
    rw [Dict.get?_erase]
    by_cases hab : a = b
    · rw [if_pos hab]
      exact List.nodup_nil
    · rw [if_neg hab]
      exact h.nodup b

theorem Tidy.delist {waiting : Dict α (List ℕ)} (h : Tidy waiting) (n : ℕ) (a : α) :
    Tidy (Dispatcher.delist n waiting a) where
  nonempty b := by
    unfold Dispatcher.delist
    cases hget : waiting.get? a with
    | none => exact h.nonempty b
    | some ns =>
        by_cases hnil : ns.erase n = []
        · simp only [if_pos hnil]
          exact (h.erase a).nonempty b
        · simp only [if_neg hnil, Dict.get?_set]
          by_cases hab : a = b
          · rw [if_pos hab]
            exact fun heq => hnil (Option.some.inj heq)
          · rw [if_neg hab]
            exact h.nonempty b
  nodup b := by
    rw [getD_delist]
    by_cases hab : a = b
    · rw [if_pos hab]
      exact (h.nodup b).erase n
    · rw [if_neg hab]
      exact h.nodup b

theorem Tidy.foldl_delist {n : ℕ} (as : List α) :
    ∀ {waiting : Dict α (List ℕ)}, Tidy waiting →
      Tidy (as.foldl (Dispatcher.delist n) waiting) := by
  induction as with
  | nil => intro waiting h; exact h
  | cons a as ih => intro waiting h; exact ih (h.delist n a)

/-- Taken off distinct registrations, the gate is left under the other actions only. -/
theorem Tidy.mem_foldl_delist_self {n : ℕ} (b : α) (as : List α) :
    ∀ {waiting : Dict α (List ℕ)}, Tidy waiting →
      (n ∈ (as.foldl (Dispatcher.delist n) waiting).getD b []
        ↔ n ∈ waiting.getD b [] ∧ b ∉ as) := by
  induction as with
  | nil => intro waiting _; simp
  | cons a as ih =>
      intro waiting h
      rw [List.foldl_cons, ih (h.delist n a), getD_delist]
      by_cases hab : a = b
      · subst hab
        rw [if_pos rfl, (h.nodup a).mem_erase_iff]
        simp
      · simp only [if_neg hab, List.mem_cons, Ne.symm hab, false_or]

/-! ## §6. Released gates miss nothing. -/

/-- A gate that was released misses nothing. -/
def Honest (d : Dispatcher α) : Prop :=
  ∀ w ∈ d.waiters, w.ready = true → w.missing = []

omit [DecidableEq α] in
theorem honest_new : (new : Dispatcher α).Honest := fun _ hw => absurd hw List.not_mem_nil

theorem Honest.park {d : Dispatcher α} (h : d.Honest) (actions : List α) :
    (Dispatcher.park actions d).Honest := by
  intro w hw hready
  rcases List.mem_append.mp hw with hw | hw
  · exact h w hw hready
  · rw [List.mem_singleton] at hw
    rw [hw] at hready
    cases hready

theorem Honest.unpark {d : Dispatcher α} (h : d.Honest) (n : ℕ) :
    (Dispatcher.unpark n d).Honest := h

/-- A discard releases the gate it leaves without a missing action, and no other. -/
theorem Waiter.discard_honest {w : Waiter α} (h : w.ready = true → w.missing = []) (a : α) :
    (Waiter.discard a w).ready = true → (Waiter.discard a w).missing = [] := by
  intro hready
  have hor : w.ready = true ∨ w.missing.filter (· ≠ a) = [] := by
    simpa [Waiter.discard] using hready
  rcases hor with hold | hnil
  · show w.missing.filter (· ≠ a) = []
    rw [h hold]
    rfl
  · exact hnil

theorem Honest.commit {d : Dispatcher α} (h : d.Honest) (a : α) :
    (Dispatcher.commit a d).Honest := by
  intro w hw hready
  obtain ⟨i, hi⟩ := List.mem_iff_getElem?.mp hw
  unfold Dispatcher.commit at hi
  simp only [getElem?_foldl_discard] at hi
  split at hi
  · obtain ⟨v, hv, rfl⟩ := Option.map_eq_some_iff.mp hi
    exact Waiter.discard_honest (h v (List.mem_of_getElem? hv)) a hready
  · exact h w (List.mem_of_getElem? hi) hready

/-- A gate keeps a dispatcher honest, whatever it answers. -/
theorem Honest.gate {holds : Bool} {actions : List α} {d d' : Dispatcher α}
    {ready : Option ℕ} (h : d.Honest) (hgate : Dispatcher.gate holds actions d = .ok (d', ready)) :
    d'.Honest := by
  unfold Dispatcher.gate at hgate
  split at hgate
  · cases holds with
    | false => cases hgate
    | true =>
        cases hgate
        exact h
  · cases holds with
    | false =>
        cases hgate
        exact h.park actions
    | true =>
        cases hgate
        exact (h.park actions).unpark _

omit [DecidableEq α] in
/-- The task of an open gate has nothing left to wait for. -/
theorem Honest.missing_nil {d : Dispatcher α} (h : d.Honest) {n : ℕ} (hn : d.Released n) :
    d.missing n = [] := by
  unfold Released at hn
  unfold missing
  cases hget : d.waiters[n]? with
  | none => rfl
  | some w =>
      rw [hget] at hn
      exact h w (List.mem_of_getElem? hget) hn

end Dispatcher

end Toso.Proposed
