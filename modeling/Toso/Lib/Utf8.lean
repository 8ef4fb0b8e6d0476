/-
  Toso.Lib.Utf8 — text as bytes.

  A code point that is no surrogate is written as one to four bytes, as a string's
  characters are; a surrogate has no bytes, and a text that holds one is not written.

  Main results:
    * `encode_eq_some_iff` — what is written is a string's bytes.
    * `encode_isSome_iff` — a text is written unless it holds a surrogate.
    * `encode_inj` — the bytes tell the text.
-/
import Toso.Lib.Utf16
import Mathlib.Data.String.Basic

namespace Lib.Utf8

/-- The bytes of a code point. -/
def bytes (c : ℕ) : Option (List UInt8) :=
  if c.isValidChar then some (String.utf8EncodeChar (Char.ofNat c)) else none

/-- The bytes of a text. -/
def encode : List ℕ → Option (List UInt8)
  | [] => some []
  | c :: rest => (bytes c).bind fun b => (encode rest).map (b ++ ·)

theorem bytes_eq_some_iff {c : ℕ} {b : List UInt8} :
    bytes c = some b ↔ ∃ ch : Char, ch.toNat = c ∧ String.utf8EncodeChar ch = b := by
  unfold bytes
  constructor
  · intro h
    by_cases hc : c.isValidChar
    · rw [if_pos hc, Option.some.injEq] at h
      exact ⟨Char.ofNat c, Utf16.toNat_ofNat hc, h⟩
    · rw [if_neg hc] at h
      cases h
  · rintro ⟨ch, rfl, rfl⟩
    have hch : ch.toNat.isValidChar := ch.valid
    rw [if_pos hch, Char.ofNat_toNat]

/-- **What is written is a string's bytes.** -/
theorem encode_eq_some_iff {t : List ℕ} {b : List UInt8} : encode t = some b ↔
    ∃ chars : List Char, chars.map Char.toNat = t ∧ chars.flatMap String.utf8EncodeChar = b := by
  induction t generalizing b with
  | nil =>
      constructor
      · intro h
        exact ⟨[], rfl, Option.some.inj h⟩
      · rintro ⟨chars, hnil, rfl⟩
        rw [List.map_eq_nil_iff.mp hnil]
        rfl
  | cons c rest ih =>
      constructor
      · intro h
        obtain ⟨first, hfirst, h⟩ := Option.bind_eq_some_iff.mp h
        obtain ⟨more, hmore, rfl⟩ := Option.map_eq_some_iff.mp h
        obtain ⟨ch, rfl, rfl⟩ := bytes_eq_some_iff.mp hfirst
        obtain ⟨chars, rfl, rfl⟩ := ih.mp hmore
        exact ⟨ch :: chars, rfl, rfl⟩
      · rintro ⟨chars, hcons, rfl⟩
        obtain ⟨ch, chars', rfl, hch, hrest⟩ := List.map_eq_cons_iff.mp hcons
        have hfirst := bytes_eq_some_iff.mpr ⟨ch, hch, rfl⟩
        have hmore := ih.mpr ⟨chars', hrest, rfl⟩
        show (bytes c).bind _ = _
        rw [hfirst]
        show (encode rest).map _ = _
        rw [hmore]
        rfl

/-- **A text is written unless it holds a surrogate.** -/
theorem encode_isSome_iff (t : List ℕ) : (∃ b, encode t = some b) ↔ Utf16.Scalar t := by
  constructor
  · rintro ⟨b, h⟩ c hc
    obtain ⟨chars, rfl, _⟩ := encode_eq_some_iff.mp h
    obtain ⟨ch, _, rfl⟩ := List.mem_map.mp hc
    exact ch.valid
  · intro h
    refine ⟨_, encode_eq_some_iff.mpr ⟨t.map Char.ofNat, ?_, rfl⟩⟩
    rw [List.map_map]
    refine (List.map_congr_left fun c hc => ?_).trans (List.map_id t)
    exact Utf16.toNat_ofNat (h c hc)

/-- **The bytes tell the text.** -/
theorem encode_inj {t t' : List ℕ} {b : List UInt8} (h : encode t = some b)
    (h' : encode t' = some b) : t = t' := by
  obtain ⟨chars, rfl, hb⟩ := encode_eq_some_iff.mp h
  obtain ⟨chars', rfl, hb'⟩ := encode_eq_some_iff.mp h'
  -- two strings of the same bytes are the same string
  have hstring : String.ofList chars = String.ofList chars' := by
    rw [← String.toByteArray_inj, String.toByteArray_ofList, String.toByteArray_ofList]
    exact congrArg List.toByteArray (hb.trans hb'.symm)
  have hlist := congrArg String.toList hstring
  rw [String.toList_ofList, String.toList_ofList] at hlist
  rw [hlist]

end Lib.Utf8
