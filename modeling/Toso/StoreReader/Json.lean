/-
  Toso.StoreReader.Json — the values a request and a response are made of.

  Text is a Python string: a sequence of code points, surrogates included.  A
  JSON value is what `json.loads` answers with and `json.dumps` is given; an
  object keeps its fields in order.

  A float is a number taken exactly, or one of the three values JSON cannot spell.

  Main results:
    * `pyInt_intText` — `int(str(n))` is `n`.
-/
import Mathlib.Data.List.Lex
import Mathlib.Data.Rat.Floor
import Mathlib.Order.Fin.Basic

namespace Toso.StoreReader

/-! ## §1. Text. -/

/-- A Unicode code point. -/
abbrev CodePoint := Fin 0x110000

/-- Equality of code points is decided by their numbers. -/
instance : LawfulBEq CodePoint where
  eq_of_beq h := of_decide_eq_true h
  rfl := decide_eq_true rfl

/-- A Python string. -/
abbrev Text := List CodePoint

/-- The code point of a character. -/
def codePoint (c : Char) : CodePoint := Fin.ofNat 0x110000 c.toNat

/-- A string literal of the source. -/
def text (s : String) : Text := s.toList.map codePoint

/-- `str(n)`. -/
def natText (n : ℕ) : Text := (Nat.toDigits 10 n).map codePoint

/-- `str(n)`. -/
def intText : ℤ → Text
  | .ofNat n => natText n
  | .negSucc n => codePoint '-' :: natText (n + 1)

/-- What the string operations read from the Unicode tables. -/
structure Unicode where
  /-- The value of a decimal digit. -/
  digit : CodePoint → Option ℕ
  isSpace : CodePoint → Bool
  digit_ascii : ∀ c : Char, c.isDigit = true → digit (codePoint c) = some (c.toNat - '0'.toNat)
  isSpace_ascii : ∀ c : Char, c.isDigit = true ∨ c = '-' → isSpace (codePoint c) = false

/-- `strip`. -/
def strip (U : Unicode) (t : Text) : Text :=
  ((t.dropWhile U.isSpace).reverse.dropWhile U.isSpace).reverse

/-- Digits, and single underscores between digits. -/
def digits (U : Unicode) : ℕ → Text → Option ℕ
  | n, [] => some n
  | n, c :: rest =>
      match U.digit c with
      | some d => digits U (10 * n + d) rest
      | none =>
          match rest with
          | [] => none
          | e :: rest =>
              if c = codePoint '_' then (U.digit e).bind fun d => digits U (10 * n + d) rest
              else none

/-- A nonempty run of digits. -/
def number (U : Unicode) : Text → Option ℕ
  | [] => none
  | c :: rest => (U.digit c).bind fun d => digits U d rest

/-- `int(t)` of a string, with no limit on its digits; nothing stands for its `ValueError`. -/
def pyInt (U : Unicode) (t : Text) : Option ℤ :=
  match strip U t with
  | [] => none
  | c :: rest =>
      if c = codePoint '-' then (number U rest).map fun n => -(n : ℤ)
      else if c = codePoint '+' then (number U rest).map Int.ofNat
      else (number U (c :: rest)).map Int.ofNat

theorem codePoint_val (c : Char) : (codePoint c).val = c.toNat := by
  refine Nat.mod_eq_of_lt ?_
  rcases c.valid with h | ⟨_, h⟩
  · exact lt_trans h (by decide)
  · exact h

theorem codePoint_injective : Function.Injective codePoint := by
  intro c d h
  have hval := congrArg Fin.val h
  rw [codePoint_val, codePoint_val] at hval
  exact Char.ext (UInt32.toNat_inj.mp hval)

theorem digits_cons {U : Unicode} {c : CodePoint} {d : ℕ} (h : U.digit c = some d) (n : ℕ)
    (rest : Text) : digits U n (c :: rest) = digits U (10 * n + d) rest := by
  rw [digits.eq_def]
  simp only [h]

theorem number_cons {U : Unicode} {c : CodePoint} {d : ℕ} (h : U.digit c = some d)
    (rest : Text) : number U (c :: rest) = digits U d rest := by
  show (U.digit c).bind _ = _
  rw [h]
  rfl

theorem mem_toDigits_isDigit {n : ℕ} {c : Char} (h : c ∈ Nat.toDigits 10 n) :
    c.isDigit = true :=
  Nat.isDigit_of_mem_toDigits (by decide) (by decide) h

/-- Text without spaces at its ends is its own strip. -/
theorem strip_eq_self (U : Unicode) {t : Text} (h : ∀ c ∈ t, U.isSpace c = false) :
    strip U t = t := by
  have hdrop : ∀ l : Text, (∀ c ∈ l, U.isSpace c = false) → l.dropWhile U.isSpace = l := by
    intro l hl
    cases l with
    | nil => rfl
    | cons c l => simp [List.dropWhile, hl c List.mem_cons_self]
  unfold strip
  rw [hdrop t h, hdrop _ fun c hc => h c (List.mem_reverse.mp hc), List.reverse_reverse]

/-- Reading characters that are digits. -/
theorem digits_map (U : Unicode) (cs : List Char) (h : ∀ c ∈ cs, c.isDigit = true) :
    ∀ n, digits U n (cs.map codePoint) = some (Nat.ofDigitChars 10 cs n) := by
  induction cs with
  | nil =>
      intro n
      rw [Nat.ofDigitChars_nil]
      rfl
  | cons c cs ih =>
      intro n
      have hdigit := U.digit_ascii c (h c List.mem_cons_self)
      rw [Nat.ofDigitChars_cons, ← ih fun d hd => h d (List.mem_cons_of_mem _ hd)]
      exact digits_cons hdigit n _

/-- A number is read back. -/
theorem number_natText (U : Unicode) (n : ℕ) : number U (natText n) = some n := by
  have hdigits := digits_map U (Nat.toDigits 10 n) (fun c hc => mem_toDigits_isDigit hc) 0
  rw [Nat.ofDigitChars_toDigits (by decide) (by decide)] at hdigits
  unfold natText
  cases hcs : Nat.toDigits 10 n with
  | nil => exact absurd hcs Nat.toDigits_ne_nil
  | cons c cs =>
      have hc := U.digit_ascii c (mem_toDigits_isDigit (hcs ▸ List.mem_cons_self))
      rw [hcs, List.map_cons, digits_cons hc] at hdigits
      rw [List.map_cons, number_cons hc]
      simpa using hdigits

theorem isSpace_natText (U : Unicode) (n : ℕ) : ∀ c ∈ natText n, U.isSpace c = false := by
  intro c hc
  obtain ⟨d, hd, rfl⟩ := List.mem_map.mp hc
  exact U.isSpace_ascii d (.inl (mem_toDigits_isDigit hd))

/-- **`int(str(n))`** is `n`. -/
theorem pyInt_intText (U : Unicode) (n : ℤ) : pyInt U (intText n) = some n := by
  cases n with
  | ofNat n =>
      have hread := number_natText U n
      unfold intText pyInt
      rw [strip_eq_self U (isSpace_natText U n)]
      unfold natText at hread ⊢
      cases hcs : Nat.toDigits 10 n with
      | nil => exact absurd hcs Nat.toDigits_ne_nil
      | cons c cs =>
          have hc : c.isDigit = true := mem_toDigits_isDigit (hcs ▸ List.mem_cons_self)
          have hsign : ∀ d : Char, d.isDigit = false → codePoint c ≠ codePoint d := by
            intro d hd heq
            rw [codePoint_injective heq, hd] at hc
            cases hc
          rw [hcs, List.map_cons] at hread
          rw [List.map_cons]
          simp only
          rw [if_neg (hsign '-' rfl), if_neg (hsign '+' rfl), hread]
          rfl
  | negSucc n =>
      have hspace : ∀ c ∈ codePoint '-' :: natText (n + 1), U.isSpace c = false := by
        intro c hc
        rcases List.mem_cons.mp hc with rfl | hc
        · exact U.isSpace_ascii '-' (.inr rfl)
        · exact isSpace_natText U (n + 1) c hc
      unfold intText pyInt
      rw [strip_eq_self U hspace]
      show (if codePoint '-' = codePoint '-' then _ else _) = _
      rw [if_pos rfl, number_natText]
      rfl

theorem toNat_of_isDigit {c : Char} (h : c.isDigit = true) : 48 ≤ c.toNat ∧ c.toNat ≤ 57 := by
  have h : 48 ≤ c.val ∧ c.val ≤ 57 := by simpa [Char.isDigit] using h
  exact ⟨UInt32.le_iff_toNat_le.mp h.1, UInt32.le_iff_toNat_le.mp h.2⟩

/-- The tables of ASCII text. -/
def ascii : Unicode where
  digit c := if 48 ≤ c.val ∧ c.val ≤ 57 then some (c.val - 48) else none
  isSpace c := 9 ≤ c.val ∧ c.val ≤ 13 ∨ c.val = 32
  digit_ascii c h := by
    rw [codePoint_val, if_pos (toNat_of_isDigit h)]
    rfl
  isSpace_ascii c h := by
    have h : 48 ≤ c.toNat ∧ c.toNat ≤ 57 ∨ c.toNat = 45 := by
      rcases h with h | rfl
      · exact .inl (toNat_of_isDigit h)
      · exact .inr rfl
    rw [codePoint_val, decide_eq_false_iff_not]
    omega

/-! ## §2. Values. -/

/-- A Python float. -/
inductive PyFloat
  | finite (q : ℚ)
  | nan
  | inf (negative : Bool)
  deriving DecidableEq

/-- A JSON value: what `json.loads` answers with. -/
inductive Json
  | null
  | bool (b : Bool)
  | int (n : ℤ)
  | float (x : PyFloat)
  | str (t : Text)
  | arr (items : List Json)
  | obj (fields : List (Text × Json))

/-- What a builder raises besides the exceptions of the store. -/
inductive Exc
  | keyError (message : Text)
  | typeError
  | valueError
  | overflowError
  | runtimeError
  deriving DecidableEq

namespace Json

/-- Whether a value counts as true. -/
def truthy : Json → Bool
  | null => false
  | bool b => b
  | int n => n ≠ 0
  | float (.finite q) => q ≠ 0
  | float _ => true
  | str t => t ≠ []
  | arr items => !items.isEmpty
  | obj fields => !fields.isEmpty

/-- Whether it can be a dictionary's key. -/
def hashable : Json → Bool
  | arr _ => false
  | obj _ => false
  | _ => true

/-- `value == t`, of a string. -/
def isText (t : Text) : Json → Bool
  | str u => u = t
  | _ => false

/-- `int(value)`. -/
def toInt (U : Unicode) : Json → Except Exc ℤ
  | null => .error .typeError
  | bool b => .ok b.toNat
  | int n => .ok n
  | float (.finite q) => .ok (if 0 ≤ q then ⌊q⌋ else ⌈q⌉)
  | float .nan => .error .valueError
  | float (.inf _) => .error .overflowError
  | str t => match pyInt U t with
      | some n => .ok n
      | none => .error .valueError
  | arr _ => .error .typeError
  | obj _ => .error .typeError

end Json

/-- The fields of a request object. -/
abbrev Request := List (Text × Json)

/-- The field `name`, if the request has it. -/
def Request.get? (req : Request) (name : String) : Option Json :=
  (req.find? fun field => field.1 = text name).map Prod.snd

/-- `req.get(name)`. -/
def Request.get (req : Request) (name : String) : Json := (req.get? name).getD .null

/-- `value or default`, of a string default. -/
def Json.orText (value : Json) (default : String) : Json :=
  if value.truthy then value else .str (text default)

end Toso.StoreReader
