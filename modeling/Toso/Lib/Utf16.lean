/-
  Toso.Lib.Utf16 — text as sixteen-bit units.

  A code point above the basic plane is written as a high surrogate and a low one,
  every other one as itself, surrogates included.  Reading gives characters, which
  are no surrogates: a unit of a pair that stands alone has no reading.

  Main results:
    * `decode_encode` — text without surrogates is read back.
    * `scalar_of_toNat` — only such text is a string's.
-/
import Mathlib.Data.List.Basic
import Mathlib.Tactic.Common

namespace Lib.Utf16

/-! ## §1. Units. -/

/-- A unit that opens a pair. -/
def High (u : ℕ) : Prop := 0xD800 ≤ u ∧ u < 0xDC00

/-- A unit that closes a pair. -/
def Low (u : ℕ) : Prop := 0xDC00 ≤ u ∧ u < 0xE000

instance (u : ℕ) : Decidable (High u) := inferInstanceAs (Decidable (_ ∧ _))

instance (u : ℕ) : Decidable (Low u) := inferInstanceAs (Decidable (_ ∧ _))

/-- The units of a code point. -/
def units (c : ℕ) : List ℕ :=
  if c < 0x10000 then [c]
  else [0xD800 + (c - 0x10000) / 0x400, 0xDC00 + (c - 0x10000) % 0x400]

/-- The units of a text. -/
def encode (t : List ℕ) : List ℕ := t.flatMap units

/-- The code point of a pair. -/
def joined (high low : ℕ) : ℕ := 0x10000 + (high - 0xD800) * 0x400 + (low - 0xDC00)

/-- The characters of a sequence of units. -/
def decode : List ℕ → Option (List Char)
  | [] => some []
  | [u] => if High u ∨ Low u then none else some [Char.ofNat u]
  | u :: v :: rest =>
      if High u then
        if Low v then (decode rest).map (Char.ofNat (joined u v) :: ·) else none
      else if Low u then none
      else (decode (v :: rest)).map (Char.ofNat u :: ·)

/-! ## §2. Text without surrogates. -/

/-- Text of code points that are no surrogates. -/
def Scalar (t : List ℕ) : Prop := ∀ c ∈ t, c.isValidChar

/-- The code points of a string. -/
def ofString (s : String) : List ℕ := s.toList.map Char.toNat

/-- **A string has no surrogates.** -/
theorem scalar_of_toNat (s : String) : Scalar (ofString s) := by
  intro c hc
  obtain ⟨d, _, rfl⟩ := List.mem_map.mp hc
  exact d.valid

theorem decode_cons {u : ℕ} (hhigh : ¬ High u) (hlow : ¬ Low u) (rest : List ℕ) :
    decode (u :: rest) = (decode rest).map (Char.ofNat u :: ·) := by
  cases rest with
  | nil =>
      show (if High u ∨ Low u then none else some [Char.ofNat u]) = _
      rw [if_neg (not_or.mpr ⟨hhigh, hlow⟩)]
      rfl
  | cons v rest => rw [decode, if_neg hhigh, if_neg hlow]

theorem decode_pair {u v : ℕ} (hhigh : High u) (hlow : Low v) (rest : List ℕ) :
    decode (u :: v :: rest) = (decode rest).map (Char.ofNat (joined u v) :: ·) := by
  rw [decode, if_pos hhigh, if_pos hlow]

/-- One code point in front. -/
theorem decode_units {c : ℕ} (h : c.isValidChar) (rest : List ℕ) :
    decode (units c ++ rest) = (decode rest).map (Char.ofNat c :: ·) := by
  have hvalid : c < 0xD800 ∨ 0xDFFF < c ∧ c < 0x110000 := h
  unfold units
  by_cases hplane : c < 0x10000
  · rw [if_pos hplane]
    refine decode_cons ?_ ?_ rest
    · unfold High
      omega
    · unfold Low
      omega
  · rw [if_neg hplane]
    have hhigh : High (0xD800 + (c - 0x10000) / 0x400) := by
      unfold High
      omega
    have hlow : Low (0xDC00 + (c - 0x10000) % 0x400) := by
      unfold Low
      omega
    have hjoined :
        joined (0xD800 + (c - 0x10000) / 0x400) (0xDC00 + (c - 0x10000) % 0x400) = c := by
      unfold joined
      omega
    show decode (_ :: _ :: rest) = _
    rw [decode_pair hhigh hlow, hjoined]

/-- **Text without surrogates is read back.** -/
theorem decode_encode {t : List ℕ} (h : Scalar t) :
    decode (encode t) = some (t.map Char.ofNat) := by
  induction t with
  | nil => rfl
  | cons c t ih =>
      show decode (units c ++ encode t) = _
      rw [decode_units (h c List.mem_cons_self), ih fun d hd => h d (List.mem_cons_of_mem c hd)]
      rfl

theorem toNat_ofNat {c : ℕ} (h : c.isValidChar) : (Char.ofNat c).toNat = c := by
  unfold Char.ofNat
  rw [dif_pos h]
  rfl

theorem map_toNat_ofNat {t : List ℕ} (h : Scalar t) :
    (t.map Char.ofNat).map Char.toNat = t := by
  rw [List.map_map]
  refine (List.map_congr_left fun c hc => ?_).trans (List.map_id t)
  exact toNat_ofNat (h c hc)

theorem map_ofNat_toNat (cs : List Char) : (cs.map Char.toNat).map Char.ofNat = cs := by
  rw [List.map_map]
  refine (List.map_congr_left fun c _ => ?_).trans (List.map_id cs)
  exact Char.ofNat_toNat c

/-- The units of a string are its own. -/
theorem encode_ofString_inj {s t : String} : encode (ofString s) = encode (ofString t) ↔ s = t := by
  constructor
  · intro h
    have hread := congrArg decode h
    rw [decode_encode (scalar_of_toNat s), decode_encode (scalar_of_toNat t)] at hread
    injection hread with hchars
    unfold ofString at hchars
    rw [map_ofNat_toNat, map_ofNat_toNat] at hchars
    exact String.toList_inj.mp hchars
  · intro h
    rw [h]

end Lib.Utf16
