import IdcuIot.Lib.Crc
import IdcuIot.SerialSource.Decode

/-! # serialsource: what the CRC detects

`crc_byte` is the register of `Lib.Crc` with polynomial 1021, read backwards: it takes the bits of
each byte from the highest one (`reverse_crcPacket`).  The CRC is linear (`crcPacket_xor`), so an
error goes unseen exactly when the error itself is a packet with its CRC.  A burst of 16 bits in the
packet is seen; but the low byte of the CRC is sent first, behind the last byte of the packet, where
the high one would belong, and a burst across that border may go unseen. -/

namespace IdcuIot.SerialSource

open Crc

/-- The bits of a byte, highest first. -/
def byteBits (b : UInt8) : List Bool := (List.range 8).map b.toBitVec.getMsbD

/-- The bits of a text, those of each byte highest first. -/
def bits (l : List UInt8) : List Bool := l.flatMap byteBits

/-- The polynomial, read backwards. -/
def polynomial : BitVec 16 := (0x1021#16).reverse

@[simp] theorem length_byteBits (b : UInt8) : (byteBits b).length = 8 := rfl

@[simp] theorem length_bits (l : List UInt8) : (bits l).length = 8 * l.length := by
  induction l with
  | nil => rfl
  | cons b l ih =>
      unfold bits at ih ⊢
      rw [List.flatMap_cons, List.length_append, ih, length_byteBits, List.length_cons]
      omega

theorem byteBits_inj {b c : UInt8} (h : byteBits b = byteBits c) : b = c := by
  apply UInt8.toBitVec_inj.mp
  apply BitVec.eq_of_getMsbD_eq
  intro i hi
  exact List.map_inj_left.mp h i (List.mem_range.mpr hi)

theorem bits_inj {l l' : List UInt8} (h : bits l = bits l') : l = l' := by
  induction l generalizing l' with
  | nil =>
      cases l' with
      | nil => rfl
      | cons c l' => cases h
  | cons b l ih =>
      cases l' with
      | nil => cases h
      | cons c l' =>
          obtain ⟨hb, hl⟩ := List.append_inj (h : byteBits b ++ bits l = byteBits c ++ bits l') rfl
          rw [byteBits_inj hb, ih hl]

/-! ### The register -/

theorem polynomial_high : polynomial.getLsbD (16 - 1) = true := by decide

theorem toBitVec_crcBit (crc : UInt16) : (crcBit crc).toBitVec = stepUp 0x1021#16 crc.toBitVec := by
  have hhigh : (crc &&& 0x8000 ≠ 0) ↔ crc.toBitVec.msb = true := by
    rw [ne_eq, ← UInt16.toBitVec_inj, UInt16.toBitVec_and, ← ne_eq]
    change crc.toBitVec &&& BitVec.twoPow 16 15 ≠ 0#16 ↔ _
    rw [BitVec.and_twoPow, BitVec.msb_eq_getLsbD_last]
    cases crc.toBitVec.getLsbD 15 with
    | false => exact iff_of_false (by decide) (by decide)
    | true => exact iff_of_true (by decide) rfl
  unfold crcBit stepUp
  simp only [hhigh]
  split_ifs <;> rfl

theorem toBitVec_iterate_crcBit (n : ℕ) (crc : UInt16) :
    (crcBit^[n] crc).toBitVec = (stepUp 0x1021#16)^[n] crc.toBitVec := by
  induction n generalizing crc with
  | zero => rfl
  | succ n ih =>
      rw [Function.iterate_succ_apply, Function.iterate_succ_apply, ih, toBitVec_crcBit]

theorem word_byteBits (b : UInt8) :
    (word (byteBits b) : BitVec 16) = (b.toUInt16 <<< 8).toBitVec.reverse := by
  apply BitVec.eq_of_getLsbD_eq
  intro i hi
  rw [getLsbD_word, BitVec.getLsbD_reverse, UInt16.toBitVec_shiftLeft, UInt8.toBitVec_toUInt16,
    BitVec.getMsbD_eq_getLsbD]
  by_cases h : i < 8
  · rw [byteBits, List.getD_eq_getElem _ _ (by simpa using h)]
    interval_cases i <;> simp [BitVec.getMsbD_eq_getLsbD]
  · rw [List.getD_eq_default _ _ (by simpa using h)]
    interval_cases i <;> simp

theorem reverse_crcByte (crc : UInt16) (b : UInt8) :
    (crcByte crc b).toBitVec.reverse = Crc.run polynomial crc.toBitVec.reverse (byteBits b) := by
  rw [run_eq polynomial (show (byteBits b).length ≤ 16 by rw [length_byteBits]; omega), crcByte,
    toBitVec_iterate_crcBit, reverse_iterate_stepUp, UInt16.toBitVec_xor, reverse_xor, word_byteBits,
    length_byteBits]
  rfl

theorem reverse_crcPacket (l : List UInt8) :
    (crcPacket l).toBitVec.reverse = Crc.run polynomial 0#16 (bits l) := by
  have hfold : ∀ (l : List UInt8) (crc : UInt16), (l.foldl crcByte crc).toBitVec.reverse =
      Crc.run polynomial crc.toBitVec.reverse (bits l) := by
    intro l
    induction l with
    | nil => exact fun _ => rfl
    | cons b l ih =>
        intro crc
        rw [List.foldl_cons, ih, reverse_crcByte, ← run_append]
        rfl
  exact hfold l 0

/-! ### Linearity -/

theorem crcBit_xor (a b : UInt16) : crcBit (a ^^^ b) = crcBit a ^^^ crcBit b := by
  apply UInt16.toBitVec_inj.mp
  rw [UInt16.toBitVec_xor, toBitVec_crcBit, toBitVec_crcBit, toBitVec_crcBit, UInt16.toBitVec_xor,
    stepUp_xor]

theorem iterate_crcBit_xor (n : ℕ) (a b : UInt16) :
    crcBit^[n] (a ^^^ b) = crcBit^[n] a ^^^ crcBit^[n] b := by
  induction n generalizing a b with
  | zero => rfl
  | succ n ih =>
      rw [Function.iterate_succ_apply, Function.iterate_succ_apply, Function.iterate_succ_apply,
        crcBit_xor, ih]

theorem crcByte_xor (a b : UInt16) (x y : UInt8) :
    crcByte (a ^^^ b) (x ^^^ y) = crcByte a x ^^^ crcByte b y := by
  unfold crcByte
  rw [← iterate_crcBit_xor]
  congr 1
  rw [UInt8.toUInt16_xor, UInt16.shiftLeft_xor]
  ac_rfl

/-- The bytes of a text with an error. -/
def damage (l error : List UInt8) : List UInt8 := List.zipWith (· ^^^ ·) l error

theorem crcPacket_xor {l error : List UInt8} (hlen : error.length = l.length) :
    crcPacket (damage l error) = crcPacket l ^^^ crcPacket error := by
  have hfold : ∀ (l error : List UInt8), error.length = l.length → ∀ a b : UInt16,
      (damage l error).foldl crcByte (a ^^^ b) = l.foldl crcByte a ^^^ error.foldl crcByte b := by
    intro l
    induction l with
    | nil =>
        intro error h a b
        rw [List.eq_nil_of_length_eq_zero h]
        rfl
    | cons x l ih =>
        intro error h a b
        cases error with
        | nil => cases h
        | cons y error =>
            change (damage l error).foldl crcByte (crcByte (a ^^^ b) (x ^^^ y)) = _
            rw [crcByte_xor]
            exact ih error (Nat.succ.inj h) _ _
  exact hfold l error hlen 0 0

theorem crcOf_xor (a b x y : UInt8) : crcOf (a ^^^ x) (b ^^^ y) = crcOf a b ^^^ crcOf x y := by
  apply UInt16.toBitVec_inj.mp
  apply BitVec.eq_of_getLsbD_eq
  intro i hi
  simp only [crcOf, UInt16.toBitVec_or, UInt16.toBitVec_xor, UInt8.toBitVec_toUInt16,
    UInt8.toBitVec_xor, UInt16.toBitVec_shiftLeft, BitVec.getLsbD_or, BitVec.getLsbD_xor]
  interval_cases i <;> simp

/-! ### Errors -/

theorem checked_append (packet : List UInt8) (low high : UInt8) :
    checked (packet ++ [low, high]) =
      if crcOf low high = crcPacket packet then some packet else none := by
  have htake : (packet ++ [low, high]).take ((packet ++ [low, high]).length - 2) = packet := by
    simp
  unfold checked
  rw [htake]
  simp only [eq_content_iff]

theorem checked_damage {packet error : List UInt8} (hlen : error.length = packet.length)
    (x y : UInt8) :
    checked (damage (content packet) (error ++ [x, y])) =
      if crcOf x y = crcPacket error then some (damage packet error) else none := by
  have hsplit : damage (content packet) (error ++ [x, y]) = damage packet error ++
      [(crcPacket packet).toUInt8 ^^^ x, (crcPacket packet >>> 8).toUInt8 ^^^ y] := by
    unfold damage content crcBytes
    rw [List.zipWith_append hlen.symm]
    rfl
  rw [hsplit, checked_append, crcOf_xor, crcOf_bytes, crcPacket_xor hlen]
  simp only [UInt16.xor_right_inj]

theorem crcPacket_ne_of_burst {l l' : List UInt8} (hlen : l.length = l'.length) (hne : l ≠ l')
    {a : ℕ} (hburst : ∀ k, (bits l).getD k false ≠ (bits l').getD k false → a ≤ k ∧ k < a + 16) :
    crcPacket l ≠ crcPacket l' := by
  intro h
  refine run_ne_of_window polynomial_high 0#16 ?_ (fun hbits => hne (bits_inj hbits)) hburst ?_
  · rw [length_bits, length_bits, hlen]
  · rw [← reverse_crcPacket, ← reverse_crcPacket, h]

/-- **What the CRC sees**: an error in a frame goes unseen exactly when it is itself a packet with
its CRC; a burst of 16 bits in the packet is always seen; but in every frame there is a burst in the
last byte of the packet and the first of the CRC that is not. -/
theorem crc_detects :
    (∀ packet error : List UInt8, error.length = packet.length + 2 →
      ((checked (damage (content packet) error)).isSome ↔ (checked error).isSome)) ∧
    (∀ (l l' : List UInt8) (a : ℕ), l.length = l'.length → l ≠ l' →
      (∀ k, (bits l).getD k false ≠ (bits l').getD k false → a ≤ k ∧ k < a + 16) →
      checked (l' ++ crcBytes (crcPacket l)) = none) ∧
    ∀ (packet : List UInt8) (b : UInt8),
      checked (packet ++ [b ^^^ 0x89, (crcPacket (packet ++ [b])).toUInt8 ^^^ 0xA1,
        (crcPacket (packet ++ [b]) >>> 8).toUInt8]) = some (packet ++ [b ^^^ 0x89]) := by
  refine ⟨fun packet error hlen => ?_, fun l l' a hlen hne hburst => ?_, fun packet b => ?_⟩
  · obtain ⟨e, x, y, rfl⟩ : ∃ e x y, error = e ++ [x, y] := by
      obtain ⟨x, y, hlast⟩ := List.length_eq_two.mp (show (error.drop packet.length).length = 2 by
        rw [List.length_drop]
        omega)
      exact ⟨error.take packet.length, x, y, by rw [← hlast, List.take_append_drop]⟩
    have he : e.length = packet.length := by simpa using hlen
    rw [checked_damage he, checked_append]
    split_ifs <;> simp
  · have hcrc := crcPacket_ne_of_burst hlen hne hburst
    rw [crcBytes, checked_append, crcOf_bytes, if_neg hcrc]
  · have hhere : crcByte 0 0x89 = crcOf 0xA1 0 := by decide +kernel
    have hcrc : ∀ c, crcPacket (packet ++ [c]) = crcByte (crcPacket packet) c := by
      intro c
      rw [crcPacket, List.foldl_append]
      rfl
    have hlast := crcByte_xor (crcPacket packet) 0 b 0x89
    have hborder := crcOf_xor (crcPacket (packet ++ [b])).toUInt8
      (crcPacket (packet ++ [b]) >>> 8).toUInt8 0xA1 0
    rw [UInt16.xor_zero] at hlast
    rw [UInt8.xor_zero, crcOf_bytes] at hborder
    have hchecked := checked_append (packet ++ [b ^^^ 0x89])
      ((crcPacket (packet ++ [b])).toUInt8 ^^^ 0xA1) (crcPacket (packet ++ [b]) >>> 8).toUInt8
    rw [hborder, hcrc, hcrc, hlast, hhere, if_pos rfl, List.append_assoc] at hchecked
    rw [hcrc]
    exact hchecked

theorem crc_detects_bit :
    ((checked (damage (content [1, 2]) [0, 1, 0, 0])).isSome ↔ (checked [0, 1, 0, 0]).isSome) ∧
      checked ([1, 3] ++ crcBytes (crcPacket [1, 2])) = none := by
  refine ⟨crc_detects.1 [1, 2] [0, 1, 0, 0] rfl,
    crc_detects.2.1 [1, 2] [1, 3] 8 rfl (by decide) (fun k hk => ?_)⟩
  by_cases hlt : k < 16
  · interval_cases k <;> first | omega | exact absurd (by decide) hk
  · rw [List.getD_eq_default _ _ (by simp; omega), List.getD_eq_default _ _ (by simp; omega)] at hk
    exact absurd rfl hk

end IdcuIot.SerialSource
