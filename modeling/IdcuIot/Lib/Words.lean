import Mathlib.Data.List.GetD
import Mathlib.Tactic

/-! # Bytes of a word

A word of 32 bits is put together from bytes with shifts and taken apart with masks and
shifts.  Both are arithmetic on `toNat`, so that the round trips are closed by `omega`. -/

namespace Words

/-- Byte `k` of a word, counted from the low end. -/
def byteAt (x : UInt32) (k : ℕ) : UInt8 := UInt8.ofNat (x.toNat / 2 ^ (8 * k))

/-- The word with the given bytes, high byte first. -/
def ofBytes (b3 b2 b1 b0 : UInt8) : UInt32 :=
  b3.toUInt32 <<< 24 ||| b2.toUInt32 <<< 16 ||| b1.toUInt32 <<< 8 ||| b0.toUInt32

theorem toNat_byteAt (x : UInt32) (k : ℕ) : (byteAt x k).toNat = x.toNat / 2 ^ (8 * k) % 256 := by
  simp [byteAt]

theorem toNat_ofBytes (b3 b2 b1 b0 : UInt8) : (ofBytes b3 b2 b1 b0).toNat =
    2 ^ 24 * b3.toNat + 2 ^ 16 * b2.toNat + 2 ^ 8 * b1.toNat + b0.toNat := by
  have h3 := b3.toNat_lt
  have h2 := b2.toNat_lt
  have h1 := b1.toNat_lt
  have h0 := b0.toNat_lt
  have e3 : (b3.toUInt32 <<< 24).toNat = 2 ^ 24 * b3.toNat := by
    simp only [UInt32.toNat_shiftLeft, UInt8.toNat_toUInt32, Nat.shiftLeft_eq, UInt32.reduceToNat,
      Nat.reduceMod]
    omega
  have e2 : (b2.toUInt32 <<< 16).toNat = 2 ^ 16 * b2.toNat := by
    simp only [UInt32.toNat_shiftLeft, UInt8.toNat_toUInt32, Nat.shiftLeft_eq, UInt32.reduceToNat,
      Nat.reduceMod]
    omega
  have e1 : (b1.toUInt32 <<< 8).toNat = 2 ^ 8 * b1.toNat := by
    simp only [UInt32.toNat_shiftLeft, UInt8.toNat_toUInt32, Nat.shiftLeft_eq, UInt32.reduceToNat,
      Nat.reduceMod]
    omega
  simp only [ofBytes, UInt32.toNat_or, e3, e2, e1, UInt8.toNat_toUInt32]
  -- each byte lies below the ones already there, so `or` is addition
  rw [← Nat.two_pow_add_eq_or_of_lt (by omega),
    show 2 ^ 24 * b3.toNat + 2 ^ 16 * b2.toNat = 2 ^ 16 * (2 ^ 8 * b3.toNat + b2.toNat) by ring,
    ← Nat.two_pow_add_eq_or_of_lt (by omega),
    show 2 ^ 16 * (2 ^ 8 * b3.toNat + b2.toNat) + 2 ^ 8 * b1.toNat =
      2 ^ 8 * (2 ^ 8 * (2 ^ 8 * b3.toNat + b2.toNat) + b1.toNat) by ring,
    ← Nat.two_pow_add_eq_or_of_lt h0]

theorem ofBytes_byteAt (x : UInt32) :
    ofBytes (byteAt x 3) (byteAt x 2) (byteAt x 1) (byteAt x 0) = x := by
  have hx := x.toNat_lt
  apply UInt32.toNat.inj
  simp only [toNat_ofBytes, toNat_byteAt]
  omega

theorem ofBytes_inj {b3 b2 b1 b0 c3 c2 c1 c0 : UInt8}
    (h : ofBytes b3 b2 b1 b0 = ofBytes c3 c2 c1 c0) : b3 = c3 ∧ b2 = c2 ∧ b1 = c1 ∧ b0 = c0 := by
  have hnat := congrArg UInt32.toNat h
  rw [toNat_ofBytes, toNat_ofBytes] at hnat
  have hb := And.intro b3.toNat_lt (And.intro b2.toNat_lt (And.intro b1.toNat_lt b0.toNat_lt))
  have hc := And.intro c3.toNat_lt (And.intro c2.toNat_lt (And.intro c1.toNat_lt c0.toNat_lt))
  refine ⟨?_, ?_, ?_, ?_⟩ <;> apply UInt8.toNat.inj <;> omega

theorem ofInt_natCast (n : ℕ) : UInt8.ofInt (n : ℤ) = UInt8.ofNat n := by
  rw [UInt8.ofInt, ← UInt8.toNat_inj, UInt8.toNat_ofNat', UInt8.toNat_ofNat']
  omega

/-! ### Masks -/

theorem ff_and (b : UInt8) : 0x000000ff &&& b.toUInt32 = b.toUInt32 := by
  have hb := b.toNat_lt
  apply UInt32.toNat.inj
  rw [UInt32.toNat_and, Nat.and_comm, UInt8.toNat_toUInt32]
  exact (Nat.and_two_pow_sub_one_eq_mod b.toNat 8).trans (Nat.mod_eq_of_lt hb)

theorem toUInt8_ff_and (y : UInt32) : (0xff &&& y).toUInt8 = y.toUInt8 := by
  apply UInt8.toNat.inj
  rw [UInt32.toNat_toUInt8, UInt32.toNat_and, Nat.and_comm, UInt32.toNat_toUInt8]
  have h := Nat.and_two_pow_sub_one_eq_mod y.toNat 8
  change (y.toNat &&& 255) % 256 = y.toNat % 256
  rw [show (255 : ℕ) = 2 ^ 8 - 1 from rfl, h]
  omega

theorem toUInt8_shiftRight (x s : UInt32) {k : ℕ} (hs : s.toNat % 32 = 8 * k) :
    (x >>> s).toUInt8 = byteAt x k := by
  apply UInt8.toNat.inj
  rw [toNat_byteAt, UInt32.toNat_toUInt8, UInt32.toNat_shiftRight, hs, Nat.shiftRight_eq_div_pow]

theorem toUInt8_mask (x : UInt32) :
    ((0xff000000 &&& x) >>> 24).toUInt8 = byteAt x 3 ∧
      ((0x00ff0000 &&& x) >>> 16).toUInt8 = byteAt x 2 ∧
      ((0x0000ff00 &&& x) >>> 8).toUInt8 = byteAt x 1 ∧
      ((0x000000ff &&& x) >>> 0).toUInt8 = byteAt x 0 := by
  refine ⟨?_, ?_, ?_, ?_⟩ <;> rw [UInt32.shiftRight_and]
  · exact (toUInt8_ff_and _).trans (toUInt8_shiftRight x 24 rfl)
  · exact (toUInt8_ff_and _).trans (toUInt8_shiftRight x 16 rfl)
  · exact (toUInt8_ff_and _).trans (toUInt8_shiftRight x 8 rfl)
  · exact (toUInt8_ff_and _).trans (toUInt8_shiftRight x 0 rfl)

theorem toUInt8_ff_and_short (y : UInt16) : (0xff &&& y).toUInt8 = y.toUInt8 := by
  apply UInt8.toNat.inj
  rw [UInt16.toNat_toUInt8, UInt16.toNat_and, Nat.and_comm, UInt16.toNat_toUInt8]
  have h := Nat.and_two_pow_sub_one_eq_mod y.toNat 8
  change (y.toNat &&& 255) % 256 = y.toNat % 256
  rw [show (255 : ℕ) = 2 ^ 8 - 1 from rfl, h]
  omega

theorem toUInt8_mask_short (x : UInt16) :
    ((0xff00 &&& x) >>> 8).toUInt8 = UInt8.ofNat (x.toNat / 256) ∧
      ((0x00ff &&& x) >>> 0).toUInt8 = UInt8.ofNat x.toNat := by
  refine ⟨?_, ?_⟩ <;> rw [UInt16.shiftRight_and]
  · refine (toUInt8_ff_and_short _).trans (UInt8.toNat.inj ?_)
    rw [UInt16.toNat_toUInt8, UInt16.toNat_shiftRight, Nat.shiftRight_eq_div_pow]
    rfl
  · refine (toUInt8_ff_and_short _).trans (UInt8.toNat.inj ?_)
    rw [UInt16.toNat_toUInt8, UInt16.toNat_shiftRight]
    rfl

/-! ### Signed words -/

/-- The signed value of a word, as `%d` prints it. -/
def signed (x : UInt32) : ℤ := x.toInt32.toInt

theorem signed_ge (x : UInt32) : -2 ^ 31 ≤ signed x := x.toInt32.le_toInt

theorem signed_lt (x : UInt32) : signed x < 2 ^ 31 := x.toInt32.toInt_lt

theorem signed_eq (x : UInt32) :
    signed x = if x.toNat < 2 ^ 31 then (x.toNat : ℤ) else x.toNat - 2 ^ 32 := by
  unfold signed
  rw [Int32.toInt, UInt32.toBitVec_toInt32, BitVec.toInt_eq_toNat_cond]
  change (if 2 * x.toNat < 2 ^ 32 then (x.toNat : ℤ) else (x.toNat : ℤ) - ((2 ^ 32 : ℕ) : ℤ)) = _
  split_ifs <;> omega

/-- Storing a signed value in an unsigned variable gives the word back. -/
theorem ofInt_signed (x : UInt32) : UInt32.ofInt (signed x) = x := by
  have hx := x.toNat_lt
  have hcong : signed x % 2 ^ 32 = x.toNat := by
    rw [signed_eq]
    split_ifs <;> omega
  apply UInt32.toNat.inj
  rw [UInt32.ofInt, hcong, Int.toNat_natCast]
  exact UInt32.toNat_ofNat_of_lt' hx

/-! ### Lists of words -/

theorem getD_flatMap {α : Type} {f : α → List UInt8} {n k : ℕ} (hf : ∀ a, (f a).length = n)
    (hk : k < n) (d : UInt8) : ∀ (l : List α) {i : ℕ} (hi : i < l.length),
    (l.flatMap f).getD (n * i + k) d = (f l[i]).getD k d := by
  intro l
  induction l with
  | nil => intro i hi; cases hi
  | cons a l ih =>
      intro i hi
      rw [List.flatMap_cons]
      cases i with
      | zero =>
          have hfirst : k < (f a).length := hk.trans_eq (hf a).symm
          rw [Nat.mul_zero, Nat.zero_add, List.getD_append _ _ _ _ hfirst]
          rfl
      | succ i =>
          have hindex : n * (i + 1) + k = n + (n * i + k) := by rw [Nat.mul_succ]; omega
          have hlater : (f a).length ≤ n + (n * i + k) := by rw [hf]; omega
          rw [hindex, List.getD_append_right _ _ _ _ hlater, hf, Nat.add_sub_cancel_left,
            ih (Nat.lt_of_succ_lt_succ hi)]
          rfl

end Words
