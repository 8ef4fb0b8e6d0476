/-
  Toso.Lib.Wire — a document as it is written, and typed readers of it.

  The writer spells strings in sixteen-bit units, and three floats in a way the
  standard does not know.  A reader answers for the documents of its type: an
  unsigned integer takes integer tokens in its range, a float any standard number,
  a record the fields it names, and nothing else.

  `Carries write read Same Fits`: what fits is written so that it is read as the
  same value, and nothing else has a same value to be read as.

  Main results:
    * `Carries.read_iff` — a value is read as itself exactly when it fits.
    * `carries_text`, `carries_unsigned`, `Carries.option`, `Carries.vec` — how
      readers carry what they are made of.
    * `field_record`, `Carries.field` — what a record holds under a name.
-/
import Toso.Lib.Utf16
import Mathlib.Algebra.Order.Ring.Int
import Mathlib.Algebra.Order.Ring.Nat
import Mathlib.Data.Option.Basic
import Mathlib.Data.Rat.Defs

namespace Lib.Wire

/-! ## §1. What is written. -/

/-- A document, token by token; a string holds its units. -/
inductive Written
  | null
  | bool (b : Bool)
  | int (n : ℤ)
  | float (q : ℚ)
  /-- `NaN`, `Infinity` or `-Infinity`. -/
  | nonstandard
  | str (units : List ℕ)
  | arr (items : List Written)
  | obj (fields : List (List ℕ × Written))

namespace Written

mutual

/-- Whether the standard knows every token. -/
def standard : Written → Bool
  | nonstandard => false
  | arr items => standardItems items
  | obj fields => standardFields fields
  | null => true
  | bool _ => true
  | int _ => true
  | float _ => true
  | str _ => true

def standardItems : List Written → Bool
  | [] => true
  | item :: items => standard item && standardItems items

def standardFields : List (List ℕ × Written) → Bool
  | [] => true
  | (_, value) :: fields => standard value && standardFields fields

end

theorem standard_arr {items : List Written} :
    (arr items).standard = true ↔ ∀ item ∈ items, item.standard = true := by
  show standardItems items = true ↔ _
  induction items with
  | nil => simp [standardItems]
  | cons item items ih => simp [standardItems, ih]

theorem standard_obj {fields : List (List ℕ × Written)} :
    (obj fields).standard = true ↔ ∀ f ∈ fields, f.2.standard = true := by
  show standardFields fields = true ↔ _
  induction fields with
  | nil => simp [standardFields]
  | cons f fields ih => simp [standardFields, ih]

end Written

/-- The fields of a record, under plain names. -/
def named (fields : List (String × Written)) : List (List ℕ × Written) :=
  fields.map fun f => (Utf16.encode (Utf16.ofString f.1), f.2)

/-! ## §2. Readers. -/

/-- A reader of documents. -/
abbrev Reader (β : Type) := Written → Option β

/-- An unsigned integer of `w` bits. -/
def unsigned (w : ℕ) : Reader (BitVec w)
  | .int (.ofNat n) => if n < 2 ^ w then some (BitVec.ofNat w n) else none
  | _ => none

/-- A float, taken exactly. -/
def float : Reader ℚ
  | .int n => some n
  | .float q => some q
  | _ => none

def bool : Reader Bool
  | .bool b => some b
  | _ => none

def string : Reader String
  | .str units => (Utf16.decode units).map String.ofList
  | _ => none

/-- A value, or null. -/
def option {β : Type} (read : Reader β) : Reader (Option β)
  | .null => some none
  | written => (read written).map some

/-- A list of values. -/
def vec {β : Type} (read : Reader β) : Reader (List β)
  | .arr items => items.mapM read
  | _ => none

/-- Two values. -/
def pair {β : Type} (read : Reader β) : Reader (β × β)
  | .arr [first, second] => do return (← read first, ← read second)
  | _ => none

/-- A map from strings, as its entries. -/
def entries {β : Type} (read : Reader β) : Reader (List (String × β))
  | .obj fields => fields.mapM fun f => do
      let name ← string (.str f.1)
      let value ← read f.2
      return (name, value)
  | _ => none

/-- One of a type's variants, by its name. -/
def variant {β : Type} (variants : List (String × β)) : Reader β :=
  fun written => (string written).bind fun name =>
    (variants.find? (·.1 = name)).map Prod.snd

/-- A record, from its fields. -/
def record {β : Type} (read : List (List ℕ × Written) → Option β) : Reader β
  | .obj fields => read fields
  | _ => none

/-- What a record holds under a name; a name held twice is an error. -/
def lookup (name : String) (fields : List (List ℕ × Written)) : Option (Option Written) :=
  match fields.filter fun f => f.1 = Utf16.encode (Utf16.ofString name) with
  | [] => some none
  | [f] => some (some f.2)
  | _ => none

/-- A field that has to be there. -/
def field {β : Type} (name : String) (read : Reader β) (fields : List (List ℕ × Written)) :
    Option β :=
  (lookup name fields).bind fun held => held.bind read

/-- A field with a default. -/
def fieldOr {β : Type} (default : β) (name : String) (read : Reader β)
    (fields : List (List ℕ × Written)) : Option β :=
  (lookup name fields).bind fun held =>
    match held with
    | none => some default
    | some written => read written

/-! ## §3. Records. -/

theorem filter_named {fields : List (String × Written)} (name : String) :
    (named fields).filter (fun f => f.1 = Utf16.encode (Utf16.ofString name))
      = named (fields.filter fun f => f.1 = name) := by
  unfold named
  rw [List.filter_map]
  congr 1
  refine List.filter_congr fun f _ => ?_
  exact decide_eq_decide.mpr Utf16.encode_ofString_inj

/-- A name among distinct ones has one field. -/
theorem filter_of_nodup {fields : List (String × Written)} {name : String} {written : Written}
    (hnodup : (fields.map Prod.fst).Nodup) (h : (name, written) ∈ fields) :
    fields.filter (fun f => f.1 = name) = [(name, written)] := by
  induction fields with
  | nil => cases h
  | cons f fields ih =>
      rw [List.map_cons, List.nodup_cons] at hnodup
      rcases List.mem_cons.mp h with rfl | hmem
      · have hrest : fields.filter (fun g => g.1 = name) = [] := by
          refine List.filter_eq_nil_iff.mpr fun g hg => ?_
          simp only [decide_eq_true_eq]
          exact fun heq => hnodup.1 (List.mem_map.mpr ⟨g, hg, heq⟩)
        rw [List.filter_cons_of_pos (by simp), hrest]
      · have hne : f.1 ≠ name := by
          intro heq
          exact hnodup.1 (List.mem_map.mpr ⟨_, hmem, heq.symm⟩)
        rw [List.filter_cons_of_neg (by simpa using hne), ih hnodup.2 hmem]

theorem lookup_named {fields : List (String × Written)} {name : String} {written : Written}
    (hnodup : (fields.map Prod.fst).Nodup) (h : (name, written) ∈ fields) :
    lookup name (named fields) = some (some written) := by
  unfold lookup
  rw [filter_named, filter_of_nodup hnodup h]
  rfl

/-- **A field of a record** is read where it was written. -/
theorem field_record {β : Type} (read : Reader β) {fields : List (String × Written)}
    {name : String} {written : Written} (hnodup : (fields.map Prod.fst).Nodup)
    (h : (name, written) ∈ fields) : field name read (named fields) = read written := by
  unfold field
  rw [lookup_named hnodup h]
  rfl

theorem fieldOr_record {β : Type} (default : β) (read : Reader β)
    {fields : List (String × Written)} {name : String} {written : Written}
    (hnodup : (fields.map Prod.fst).Nodup) (h : (name, written) ∈ fields) :
    fieldOr default name read (named fields) = read written := by
  unfold fieldOr
  rw [lookup_named hnodup h]
  rfl

/-- A name no field has. -/
theorem field_absent {β : Type} (read : Reader β) {fields : List (String × Written)}
    {name : String} (h : name ∉ fields.map Prod.fst) : field name read (named fields) = none := by
  have hfilter : fields.filter (fun f => f.1 = name) = [] := by
    refine List.filter_eq_nil_iff.mpr fun f hf => ?_
    simp only [decide_eq_true_eq]
    exact fun heq => h (List.mem_map.mpr ⟨f, hf, heq⟩)
  unfold field lookup
  rw [filter_named, hfilter]
  rfl

/-! ## §4. What carries what. -/

/-- A document that is a record, under distinct names. -/
structure Record (written : Written) (fields : List (String × Written)) : Prop where
  written : written = .obj (named fields)
  nodup : (fields.map Prod.fst).Nodup

/-- What fits is written so that it is read as the same value. -/
structure Carries {α β : Type} (write : α → Written) (read : Reader β) (Same : α → β → Prop)
    (Fits : α → Prop) : Prop where
  standard : ∀ a, Fits a → (write a).standard = true
  reads : ∀ a, Fits a → ∃ b, read (write a) = some b ∧ Same a b
  fits : ∀ a b, Same a b → Fits a

section

variable {α β : Type} {write : α → Written} {read : Reader β} {Same : α → β → Prop}
  {Fits : α → Prop}

/-- A document, where the standard knows it. -/
def document (read : Reader β) : Reader β :=
  fun written => if written.standard then read written else none

/-- **Read as itself** exactly when it fits. -/
theorem Carries.read_iff (h : Carries write read Same Fits) (a : α) :
    (∃ b, document read (write a) = some b ∧ Same a b) ↔ Fits a := by
  constructor
  · intro ⟨b, _, hsame⟩
    exact h.fits a b hsame
  · intro hfits
    obtain ⟨b, hread, hsame⟩ := h.reads a hfits
    refine ⟨b, ?_, hsame⟩
    unfold document
    rw [if_pos (h.standard a hfits), hread]

/-- A text and a string of the same code points. -/
def SameText (t : List ℕ) (s : String) : Prop := Utf16.ofString s = t

/-- A string is read as itself. -/
theorem string_ofString (s : String) :
    string (.str (Utf16.encode (Utf16.ofString s))) = some s := by
  show (Utf16.decode _).map String.ofList = _
  rw [Utf16.decode_encode (Utf16.scalar_of_toNat s)]
  unfold Utf16.ofString
  rw [Utf16.map_ofNat_toNat]
  exact congrArg some String.ofList_toList

theorem variant_ofString (variants : List (String × β)) (s : String) :
    variant variants (.str (Utf16.encode (Utf16.ofString s)))
      = (variants.find? (·.1 = s)).map Prod.snd := by
  unfold variant
  rw [string_ofString]
  rfl

theorem carries_text :
    Carries (fun t => .str (Utf16.encode t)) string SameText Utf16.Scalar where
  standard _ _ := rfl
  reads t h := by
    refine ⟨String.ofList (t.map Char.ofNat), ?_, ?_⟩
    · show (Utf16.decode (Utf16.encode t)).map String.ofList = _
      rw [Utf16.decode_encode h]
      rfl
    · unfold SameText Utf16.ofString
      rw [String.toList_ofList, Utf16.map_toNat_ofNat h]
  fits t s h := h ▸ Utf16.scalar_of_toNat s

/-- An integer and a bit vector that counts it. -/
def SameCount {w : ℕ} (n : ℤ) (b : BitVec w) : Prop := (b.toNat : ℤ) = n

/-- A count and a bit vector of its value. -/
theorem carries_count (w : ℕ) :
    Carries (fun n : ℕ => .int n) (unsigned w) (fun n b => b.toNat = n) (· < 2 ^ w) where
  standard _ _ := rfl
  reads n h := ⟨BitVec.ofNat w n, if_pos h, by rw [BitVec.toNat_ofNat, Nat.mod_eq_of_lt h]⟩
  fits n b h := h ▸ b.isLt

theorem carries_unsigned (w : ℕ) :
    Carries Written.int (unsigned w) SameCount fun n => 0 ≤ n ∧ n < 2 ^ w where
  standard _ _ := rfl
  reads n h := by
    obtain ⟨n, rfl⟩ := Int.eq_ofNat_of_zero_le h.1
    obtain ⟨b, hread, hsame⟩ := (carries_count w).reads n (by exact_mod_cast h.2)
    exact ⟨b, hread, congrArg Nat.cast hsame⟩
  fits n b h := by
    unfold SameCount at h
    rw [← h]
    exact ⟨Int.natCast_nonneg _, by exact_mod_cast b.isLt⟩

/-- Written through a function. -/
theorem Carries.comap {α' : Type} (h : Carries write read Same Fits) (f : α' → α) :
    Carries (fun a => write (f a)) read (fun a => Same (f a)) fun a => Fits (f a) where
  standard a := h.standard (f a)
  reads a := h.reads (f a)
  fits a := h.fits (f a)

/-- **A field of a record** is carried where it was written. -/
theorem Carries.field (h : Carries write read Same Fits) {written : Written}
    {fields : List (String × Written)} (hrec : Record written fields) (name : String) (i : ℕ)
    {a : α} (hget : fields[i]? = some (name, write a)) (hfits : Fits a) :
    ∃ b, Wire.field name read (named fields) = some b ∧ Same a b := by
  obtain ⟨b, hread, hsame⟩ := h.reads a hfits
  refine ⟨b, ?_, hsame⟩
  rw [field_record read hrec.nodup (List.mem_of_getElem? hget), hread]

theorem Carries.fieldOr (h : Carries write read Same Fits) (default : β) {written : Written}
    {fields : List (String × Written)} (hrec : Record written fields) (name : String) (i : ℕ)
    {a : α} (hget : fields[i]? = some (name, write a)) (hfits : Fits a) :
    ∃ b, Wire.fieldOr default name read (named fields) = some b ∧ Same a b := by
  obtain ⟨b, hread, hsame⟩ := h.reads a hfits
  refine ⟨b, ?_, hsame⟩
  rw [fieldOr_record default read hrec.nodup (List.mem_of_getElem? hget), hread]

/-- A value that may be missing. -/
theorem Carries.option (h : Carries write read Same Fits) (hnull : ∀ a, write a ≠ .null) :
    Carries (fun o : Option α => (o.map write).getD .null) (option read) (Option.Rel Same)
      fun o => ∀ a ∈ o, Fits a where
  standard o ho := by
    cases o with
    | none => rfl
    | some a => exact h.standard a (ho a rfl)
  reads o ho := by
    cases o with
    | none => exact ⟨none, rfl, .none⟩
    | some a =>
        obtain ⟨b, hvalue, hsame⟩ := h.reads a (ho a rfl)
        refine ⟨some b, ?_, .some hsame⟩
        have hread : Wire.option read (write a) = (read (write a)).map some := by
          unfold Wire.option
          split
          · next heq => exact absurd heq (hnull a)
          · rfl
        show Wire.option read (write a) = _
        rw [hread, hvalue]
        rfl
  fits o p hsame := by
    intro a ha
    cases hsame with
    | none => cases ha
    | some hsame =>
        cases ha
        exact h.fits _ _ hsame

/-- A list of values. -/
theorem Carries.vec (h : Carries write read Same Fits) :
    Carries (fun l : List α => .arr (l.map write)) (vec read) (List.Forall₂ Same)
      fun l => ∀ a ∈ l, Fits a where
  standard l hl := by
    refine Written.standard_arr.mpr fun item hitem => ?_
    obtain ⟨a, ha, rfl⟩ := List.mem_map.mp hitem
    exact h.standard a (hl a ha)
  reads l hl := by
    show ∃ b, (l.map write).mapM read = some b ∧ _
    induction l with
    | nil => exact ⟨[], rfl, .nil⟩
    | cons a l ih =>
        obtain ⟨b, hread, hsame⟩ := h.reads a (hl a List.mem_cons_self)
        obtain ⟨bs, hreads, hsames⟩ := ih fun a ha => hl a (List.mem_cons_of_mem _ ha)
        refine ⟨b :: bs, ?_, .cons hsame hsames⟩
        rw [List.map_cons, List.mapM_cons, hread, hreads]
        rfl
  fits l bs hsame := by
    induction hsame with
    | nil => exact fun a ha => nomatch ha
    | cons hsame _ ih => exact List.forall_mem_cons.mpr ⟨h.fits _ _ hsame, ih⟩

end

end Lib.Wire
