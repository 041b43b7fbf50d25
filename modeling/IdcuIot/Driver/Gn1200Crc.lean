import IdcuIot.Driver.Gn1200
import IdcuIot.Lib.Crc

/-! # GN1200 driver: what the CRC detects

`CRC16` is the register of `Lib.Crc` with 16 bits and polynomial `A001`, over the bits of each byte
from the lowest one (`toBitVec_crc16`).  Bytes end with their own CRC, low byte first, exactly when
all of them together clear the register, and two texts that differ in a burst of 16 bits cannot
both do so (`crc16_detects_burst`). -/

namespace IdcuIot.Driver.Gn1200

open Memory Crc

/-- The bits of a byte, lowest first. -/
def byteBits (b : UInt8) : List Bool := (List.range 8).map b.toBitVec.getLsbD

/-- The bits of a text, those of each byte lowest first. -/
def bits (l : List UInt8) : List Bool := l.flatMap byteBits

/-- `POLYNORMIAL`. -/
def polynormial : BitVec 16 := 0xA001#16

@[simp] theorem length_byteBits (b : UInt8) : (byteBits b).length = 8 := rfl

@[simp] theorem length_bits (l : List UInt8) : (bits l).length = 8 * l.length := by
  induction l with
  | nil => rfl
  | cons b l ih =>
      unfold bits at ih ⊢
      rw [List.flatMap_cons, List.length_append, ih, length_byteBits, List.length_cons]
      omega

theorem bits_append (l l' : List UInt8) : bits (l ++ l') = bits l ++ bits l' :=
  List.flatMap_append

theorem byteBits_inj {b c : UInt8} (h : byteBits b = byteBits c) : b = c := by
  apply UInt8.toBitVec_inj.mp
  apply BitVec.eq_of_getLsbD_eq
  intro i hi
  exact List.map_inj_left.mp h i (List.mem_range.mpr hi)

theorem bits_inj {l l' : List UInt8} (h : bits l = bits l') : l = l' := by
  induction l generalizing l' with
  | nil =>
      cases l' with
      | nil => rfl
      | cons c l' => cases h
  | cons b l ih =>
      cases l' with
      | nil => cases h
      | cons c l' =>
          obtain ⟨hb, hl⟩ := List.append_inj (h : byteBits b ++ bits l = byteBits c ++ bits l') rfl
          rw [byteBits_inj hb, ih hl]

/-! ### `CRC16` as a register -/

theorem polynormial_high : polynormial.getLsbD (16 - 1) = true := rfl

theorem toBitVec_crcBit (crc : UInt16) : (crcBit crc).toBitVec = Crc.step polynormial crc.toBitVec := by
  have hlow : (crc &&& 0x0001 ≠ 0) ↔ crc.toBitVec.getLsbD 0 = true := by
    rw [ne_eq, ← UInt16.toBitVec_inj, UInt16.toBitVec_and, ← ne_eq]
    change crc.toBitVec &&& 1#16 ≠ 0#16 ↔ _
    rw [BitVec.and_one_eq_setWidth_ofBool_getLsbD]
    cases crc.toBitVec.getLsbD 0 with
    | false => exact iff_of_false (by decide) (by decide)
    | true => exact iff_of_true (by decide) rfl
  unfold crcBit Crc.step
  simp only [hlow]
  split_ifs <;> rfl

theorem toBitVec_iterate (n : ℕ) (crc : UInt16) :
    (crcBit^[n] crc).toBitVec = (Crc.step polynormial)^[n] crc.toBitVec := by
  induction n generalizing crc with
  | zero => rfl
  | succ n ih =>
      rw [Function.iterate_succ_apply, Function.iterate_succ_apply, ih, toBitVec_crcBit]

theorem word_byteBits (b : UInt8) : (word (byteBits b) : BitVec 16) = b.toUInt16.toBitVec := by
  apply BitVec.eq_of_getLsbD_eq
  intro i hi
  rw [getLsbD_word, UInt8.toBitVec_toUInt16, BitVec.getLsbD_setWidth]
  by_cases h : i < 8
  · rw [byteBits, List.getD_eq_getElem _ _ (by simpa using h)]
    simp
  · rw [List.getD_eq_default _ _ (by simpa using h), BitVec.getLsbD_of_ge _ _ (by omega)]

theorem toBitVec_crc16 (puchMsg : List UInt8) :
    (crc16 puchMsg).toBitVec = Crc.run polynormial 0xffff#16 (bits puchMsg) := by
  have hfold : ∀ (l : List UInt8) (crc : UInt16),
      (l.foldl (fun crc b => crcBit^[8] (crc ^^^ b.toUInt16)) crc).toBitVec =
        Crc.run polynormial crc.toBitVec (bits l) := by
    intro l
    induction l with
    | nil => exact fun _ => rfl
    | cons b l ih =>
        intro crc
        have hbyte : (crcBit^[8] (crc ^^^ b.toUInt16)).toBitVec =
            Crc.run polynormial crc.toBitVec (byteBits b) := by
          rw [run_eq polynormial (show (byteBits b).length ≤ 16 by rw [length_byteBits]; omega),
            word_byteBits, toBitVec_iterate, UInt16.toBitVec_xor, length_byteBits]
        rw [List.foldl_cons, ih, hbyte, ← run_append]
        rfl
  exact hfold puchMsg 0xffff

/-! ### Texts with their CRC -/

/-- The last two bytes are the CRC of those before them, low byte first. -/
def CrcMatches (l : List UInt8) : Prop :=
  ∃ puchMsg, l = puchMsg ++ [(u8Crc16 (crc16 puchMsg)).1, (u8Crc16 (crc16 puchMsg)).2]

theorem word_u8Crc16 (crc : UInt16) :
    (word (bits [(u8Crc16 crc).1, (u8Crc16 crc).2]) : BitVec 16) = crc.toBitVec := by
  apply BitVec.eq_of_getLsbD_eq
  intro i hi
  have hsplit : bits [(u8Crc16 crc).1, (u8Crc16 crc).2] =
      byteBits (u8Crc16 crc).1 ++ byteBits (u8Crc16 crc).2 := rfl
  rw [getLsbD_word, hsplit]
  by_cases h : i < 8
  · rw [List.getD_append _ _ _ _ h, byteBits, List.getD_eq_getElem _ _ (by simpa using h)]
    interval_cases i <;> simp [u8Crc16]
  · rw [List.getD_append_right _ _ _ _ (by rw [length_byteBits]; omega), byteBits,
      List.getD_eq_getElem _ _ (by simp; omega)]
    interval_cases i <;> simp [u8Crc16]

theorem CrcMatches.run_eq_zero {l : List UInt8} (h : CrcMatches l) :
    Crc.run polynormial 0xffff#16 (bits l) = 0#16 := by
  obtain ⟨puchMsg, rfl⟩ := h
  rw [bits_append, run_append, ← toBitVec_crc16]
  exact (run_eq_zero_iff polynormial_high (by simp)).mpr (word_u8Crc16 _).symm

/-- The bits in which two texts differ lie in a window of `w` bits. -/
def Burst (w : ℕ) (x y : List UInt8) : Prop :=
  ∃ a, ∀ k, (bits x).getD k false ≠ (bits y).getD k false → a ≤ k ∧ k < a + w

/-- The parser takes the 13 bytes at index `i` for a reply. -/
def Accepted (cvalue : Mem) (i : ℕ) : Prop := Marker cvalue i ∧ CrcOk cvalue i

theorem Accepted.crcMatches {m : Mem} {i : ℕ} (h : Accepted m i) : CrcMatches (m.slice i 13) := by
  obtain ⟨hmarker, hlow, hhigh⟩ := h
  rw [hmarker.tlen] at hlow hhigh
  refine ⟨m.slice i 11, ?_⟩
  rw [show (13 : ℕ) = 11 + 2 from rfl, Mem.slice_add, ← hlow, ← hhigh]
  rfl

theorem CrcMatches.eq_of_burst {x y : List UInt8} (hx : CrcMatches x) (hy : CrcMatches y)
    (hlen : x.length = y.length) (hburst : Burst 16 x y) : x = y := by
  by_contra hne
  obtain ⟨a, hwindow⟩ := hburst
  refine run_ne_of_window polynormial_high 0xffff#16 ?_ (fun h => hne (bits_inj h)) hwindow
    (hx.run_eq_zero.trans hy.run_eq_zero.symm)
  rw [length_bits, length_bits, hlen]

/-- **Bursts are detected**: of two different texts with at least one byte before the last two, which
differ in a burst of 16 bits, at most one ends with its CRC; so no reply that the parser accepts is
turned into another one by such a burst. -/
theorem crc16_detects_burst :
    (∀ n, 1 ≤ n → ∀ x y : List UInt8, x.length = n + 2 → y.length = n + 2 → x ≠ y →
      Burst 16 x y → ¬ (CrcMatches x ∧ CrcMatches y)) ∧
    ∀ (m m' : Mem) (i i' : ℕ), Accepted m i → Accepted m' i' →
      Burst 16 (m.slice i 13) (m'.slice i' 13) → m.slice i 13 = m'.slice i' 13 := by
  constructor
  · rintro n - x y hx hy hne hburst ⟨hmx, hmy⟩
    exact hne (hmx.eq_of_burst hmy (hx.trans hy.symm) hburst)
  · intro m m' i i' hm hm' hburst
    exact hm.crcMatches.eq_of_burst hm'.crcMatches (by simp) hburst

/-- 17 bits are one too many: these texts differ by the polynomial. -/
example : CrcMatches [0x00, 0xBF, 0x40] ∧ CrcMatches [0x03, 0xFF, 0x41] :=
  ⟨⟨[0x00], rfl⟩, ⟨[0x03], rfl⟩⟩

end IdcuIot.Driver.Gn1200
