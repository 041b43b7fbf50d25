import Mathlib.Data.List.TakeWhile
import Mathlib.Tactic

/-! # Decimal texts

Numbers of a C program that go through a text: `print` is `printf` with `%d` for a signed
value, `atoi` reads it back.  `atoi` skips blanks, takes a sign and the digits up to the first
other character, and stays within 32 bits.  `atoi_print` is the round trip. -/

namespace Decimal

/-- A C string without its terminator. -/
abbrev Text := List Char

/-- `%d`. -/
def print (z : ℤ) : Text :=
  if z < 0 then '-' :: Nat.toDigits 10 z.natAbs else Nat.toDigits 10 z.natAbs

/-- `isspace`. -/
def isSpace (c : Char) : Bool := c ∈ [' ', '\t', '\n', '\r', '\x0b', '\x0c']

/-- Value of the digits at the front of a text. -/
def value (t : Text) : ℕ := Nat.ofDigitChars 10 (t.takeWhile Char.isDigit) 0

/-- The closest number that fits in 32 bits. -/
def clamp (z : ℤ) : ℤ := max (-2 ^ 31) (min z (2 ^ 31 - 1))

/-- Value of a text without blanks at its front. -/
def signedValue : Text → ℤ
  | '-' :: t => -value t
  | '+' :: t => value t
  | t => value t

/-- `atoi`. -/
def atoi (t : Text) : ℤ := clamp (signedValue (t.dropWhile isSpace))

theorem value_toDigits (n : ℕ) : value (Nat.toDigits 10 n) = n := by
  have hall : (Nat.toDigits 10 n).takeWhile Char.isDigit = Nat.toDigits 10 n :=
    List.takeWhile_eq_self_iff.mpr
      (fun c hc => Nat.isDigit_of_mem_toDigits (by decide) (by decide) hc)
  unfold value
  rw [hall, Nat.ofDigitChars_ten_toDigits]

theorem clamp_of_fits {z : ℤ} (h : -2 ^ 31 ≤ z) (h' : z < 2 ^ 31) : clamp z = z := by
  unfold clamp
  omega

theorem ne_of_isDigit {c d : Char} (h : c.isDigit = true) (hd : d.isDigit = false) : c ≠ d := by
  rintro rfl
  rw [h] at hd
  cases hd

theorem isSpace_of_isDigit {c : Char} (h : c.isDigit = true) : isSpace c = false := by
  simp only [isSpace, decide_eq_false_iff_not, List.mem_cons, List.not_mem_nil, or_false, not_or]
  refine ⟨?_, ?_, ?_, ?_, ?_, ?_⟩ <;> exact ne_of_isDigit h (by decide)

theorem signedValue_of_isDigit {c : Char} (h : c.isDigit = true) (t : Text) :
    signedValue (c :: t) = value (c :: t) := by
  have hminus : c ≠ '-' := ne_of_isDigit h (by decide)
  have hplus : c ≠ '+' := ne_of_isDigit h (by decide)
  unfold signedValue
  split
  · rename_i heq
    exact absurd (List.cons.inj heq).1 hminus
  · rename_i heq
    exact absurd (List.cons.inj heq).1 hplus
  · rfl

theorem dropWhile_print (z : ℤ) : (print z).dropWhile isSpace = print z := by
  unfold print
  split_ifs with hz
  · rfl
  · cases hd : Nat.toDigits 10 z.natAbs with
    | nil => rfl
    | cons c t =>
        have hc : c.isDigit = true :=
          Nat.isDigit_of_mem_toDigits (by decide) (by decide) (hd ▸ List.mem_cons_self)
        rw [List.dropWhile_cons_of_neg (by simp [isSpace_of_isDigit hc])]

theorem signedValue_print (z : ℤ) : signedValue (print z) = z := by
  unfold print
  split_ifs with hz
  · change -(value (Nat.toDigits 10 z.natAbs) : ℤ) = z
    rw [value_toDigits]
    omega
  · cases hd : Nat.toDigits 10 z.natAbs with
    | nil => exact absurd hd Nat.toDigits_ne_nil
    | cons c t =>
        have hc : c.isDigit = true :=
          Nat.isDigit_of_mem_toDigits (by decide) (by decide) (hd ▸ List.mem_cons_self)
        rw [signedValue_of_isDigit hc, ← hd, value_toDigits]
        omega

/-- **Round trip**: a number of 32 bits is read back from its text. -/
theorem atoi_print {z : ℤ} (h : -2 ^ 31 ≤ z) (h' : z < 2 ^ 31) : atoi (print z) = z := by
  unfold atoi
  rw [dropWhile_print, signedValue_print, clamp_of_fits h h']

theorem length_print {z : ℤ} (h : -2 ^ 31 ≤ z) (h' : z < 2 ^ 31) : (print z).length ≤ 11 := by
  have hdigits : (Nat.toDigits 10 z.natAbs).length ≤ 10 :=
    (Nat.length_toDigits_le_iff (by decide) (by decide)).mpr (by omega)
  unfold print
  split_ifs
  · rw [List.length_cons]
    omega
  · omega

theorem mem_print {z : ℤ} : ∀ c ∈ print z, c = '-' ∨ c.isDigit = true := by
  have hdigits : ∀ c ∈ Nat.toDigits 10 z.natAbs, c.isDigit = true :=
    fun c hc => Nat.isDigit_of_mem_toDigits (by decide) (by decide) hc
  intro c hc
  unfold print at hc
  split_ifs at hc
  · rcases List.mem_cons.mp hc with hc | hc
    · exact Or.inl hc
    · exact Or.inr (hdigits c hc)
  · exact Or.inr (hdigits c hc)

/-! ### Texts as bytes -/

theorem toNat_lt_of_isDigit {c : Char} (h : c.isDigit = true) : c.toNat < 256 := by
  rw [Char.isDigit_iff_toNat] at h
  exact h.2.trans_lt (by decide)

theorem digit_bounds {c : Char} (h : c.isDigit = true) :
    0x30 ≤ UInt8.ofNat c.toNat ∧ UInt8.ofNat c.toNat ≤ 0x39 := by
  have hlt := toNat_lt_of_isDigit h
  rw [Char.isDigit_iff_toNat] at h
  rw [UInt8.le_iff_toNat_le, UInt8.le_iff_toNat_le, UInt8.toNat_ofNat_of_lt' hlt]
  exact h

/-- A text of characters that fit in a byte is the text of its bytes. -/
theorem chars_bytes {t : Text} (h : ∀ c ∈ t, c.toNat < 256) :
    (t.map (fun c => UInt8.ofNat c.toNat)).map (fun b => Char.ofNat b.toNat) = t := by
  rw [List.map_map]
  refine (List.map_congr_left (fun c hc => ?_)).trans (List.map_id _)
  rw [Function.comp_apply, UInt8.toNat_ofNat_of_lt' (h c hc), Char.ofNat_toNat]
  rfl

theorem chars_bytes_print (z : ℤ) : ((print z).map (fun c => UInt8.ofNat c.toNat)).map
    (fun b => Char.ofNat b.toNat) = print z := by
  apply chars_bytes
  intro c hc
  rcases mem_print c hc with rfl | hd
  · decide
  · exact toNat_lt_of_isDigit hd

/-! ### Numbers with leading zeros -/

/-- `%0wd` for a number without sign. -/
def printPad (w n : ℕ) : Text := List.leftpad w '0' (Nat.toDigits 10 n)

@[simp] theorem length_printPad (w n : ℕ) :
    (printPad w n).length = max w (Nat.toDigits 10 n).length := List.length_leftpad

theorem length_printPad_two (b : UInt8) :
    (printPad 2 b.toNat).length = if b.toNat < 100 then 2 else 3 := by
  have hb := b.toNat_lt
  have htwo : (Nat.toDigits 10 b.toNat).length ≤ 2 ↔ b.toNat < 10 ^ 2 :=
    Nat.length_toDigits_le_iff (by decide) (by decide)
  have hthree : (Nat.toDigits 10 b.toNat).length ≤ 3 ↔ b.toNat < 10 ^ 3 :=
    Nat.length_toDigits_le_iff (by decide) (by decide)
  rw [length_printPad]
  split_ifs <;> omega

/-- `%0wd` for a number of at most `w` digits. -/
def pad : ℕ → ℕ → Text
  | 0, _ => []
  | w + 1, n => pad w (n / 10) ++ [Nat.digitChar (n % 10)]

theorem isDigit_pad (w n : ℕ) : ∀ c ∈ pad w n, c.isDigit = true := by
  induction w generalizing n with
  | zero => exact fun c hc => by cases hc
  | succ w ih =>
      intro c hc
      rcases List.mem_append.mp hc with hc | hc
      · exact ih _ c hc
      · rw [List.mem_singleton.mp hc, Nat.isDigit_digitChar]
        exact decide_eq_true (Nat.mod_lt _ (by decide))

theorem value_pad {w n : ℕ} (h : n < 10 ^ w) : value (pad w n) = n := by
  unfold value
  rw [List.takeWhile_eq_self_iff.mpr (isDigit_pad w n)]
  induction w generalizing n with
  | zero =>
      rw [pow_zero, Nat.lt_one_iff] at h
      rw [h]
      rfl
  | succ w ih =>
      have hdiv : n / 10 < 10 ^ w := by
        rw [pow_succ] at h
        omega
      rw [pad, Nat.ofDigitChars_append, ih hdiv,
        Nat.ofDigitChars_cons_digitChar_of_lt_ten (Nat.mod_lt _ (by decide)),
        Nat.ofDigitChars_nil]
      omega

theorem atoi_pad {w n : ℕ} (h : n < 10 ^ (w + 1)) (h' : n < 2 ^ 31) : atoi (pad (w + 1) n) = n := by
  have hvalue := value_pad h
  have hdigit := isDigit_pad (w + 1) n
  cases hp : pad (w + 1) n with
  | nil => simp [pad] at hp
  | cons c t =>
      rw [hp] at hvalue hdigit
      have hc := hdigit c List.mem_cons_self
      unfold atoi
      rw [List.dropWhile_cons_of_neg (by simp [isSpace_of_isDigit hc]),
        signedValue_of_isDigit hc, hvalue, clamp_of_fits (by omega) (by omega)]

end Decimal
