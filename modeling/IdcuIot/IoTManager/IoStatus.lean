import IdcuIot.Driver.IdcuSelectTag
import IdcuIot.IoTManager.OwnBytes

/-! # IoTManager: the state of the ports

`getIOStatus` packs the eight bytes `io` of the last report into one, a bit for each port, and the
driver of iDCU_IoT takes the work order from bit 1 of it.  The bytes are shifted as they are: a
byte that is neither 0 nor 1 sets the bits of higher ports (`portBit_ioStatus`).
`ioStatus_perPort_iff` says for which bytes every port shows in its own bit. -/

namespace IdcuIot.IoTManager

open Memory

/-- `SendBuffer[9]`. -/
def ioStatus (io : Fin 8 → UInt8) : UInt8 :=
  io 0 <<< 0 ||| io 1 <<< 1 ||| io 2 <<< 2 ||| io 3 <<< 3 ||| io 4 <<< 4 ||| io 5 <<< 5 |||
    io 6 <<< 6 ||| io 7 <<< 7

/-- The bytes that `getIOStatus` writes. -/
def getIOStatus (io : Fin 8 → UInt8) : List UInt8 :=
  [0x01, 0x02, 0x00, 0x00, 0x00, 0x04, 0x01, 0x02, 0x01, ioStatus io]

theorem getIOStatus_eq (io : Fin 8 → UInt8) :
    getIOStatus io = (Driver.Reply.ioStatus (ioStatus io)).bytes := rfl

/-- Bit `k` of a byte. -/
def portBit (b : UInt8) (k : ℕ) : Bool := b.toBitVec.getLsbD k

theorem portBit_or (a b : UInt8) (k : ℕ) : portBit (a ||| b) k = (portBit a k || portBit b k) := by
  unfold portBit
  rw [UInt8.toBitVec_or, BitVec.getLsbD_or]

theorem portBit_shiftLeft (b : UInt8) (j k : Fin 8) :
    portBit (b <<< UInt8.ofNat j) k = (decide (j ≤ k) && portBit b (k - j)) := by
  have hj : (UInt8.ofNat j).toBitVec % 8 = BitVec.ofNat 8 j := by
    revert j
    decide
  unfold portBit
  rw [UInt8.toBitVec_shiftLeft, hj, BitVec.shiftLeft_eq', BitVec.getLsbD_shiftLeft]
  have hnat : (BitVec.ofNat 8 j).toNat = (j : ℕ) := by
    rw [BitVec.toNat_ofNat]
    omega
  rw [hnat]
  by_cases h : j ≤ k
  · have h' : ¬ (k : ℕ) < j := Nat.not_lt.mpr h
    simp [h, h']
  · have h' : (k : ℕ) < j := Nat.lt_of_not_le h
    simp [h, h']

theorem portBit_ioStatus (io : Fin 8 → UInt8) (k : Fin 8) :
    portBit (ioStatus io) k = true ↔ ∃ j, j ≤ k ∧ portBit (io j) (k - j) = true := by
  have hor : portBit (ioStatus io) k =
      (List.finRange 8).any (fun j => portBit (io j <<< UInt8.ofNat j) k) := by
    have hrange : List.finRange 8 = [0, 1, 2, 3, 4, 5, 6, 7] := rfl
    unfold ioStatus
    simp only [hrange, portBit_or, List.any_cons, List.any_nil, Bool.or_false, Bool.or_assoc]
    rfl
  rw [hor, List.any_eq_true]
  simp only [portBit_shiftLeft, List.mem_finRange, true_and, Bool.and_eq_true, decide_eq_true_eq]

/-! ### The work order -/

theorem workOrder_ne_zero (b : UInt8) : 0x02 &&& b ≠ 0 ↔ portBit b 1 = true := by
  have htwo : (0x02 : UInt8).toBitVec = BitVec.twoPow 8 1 := rfl
  rw [ne_eq, ← UInt8.toBitVec_inj, UInt8.toBitVec_and, htwo, BitVec.and_comm, BitVec.and_twoPow,
    portBit]
  cases b.toBitVec.getLsbD 1 with
  | false => exact iff_of_false (fun h => h rfl) Bool.false_ne_true
  | true => exact iff_of_true (by decide) rfl

/-- The reply to a request for the state, alone in the buffer of the driver, is handed on once, and
the work order is bit 1 of it. -/
theorem workOrder_getIOStatus (io : Fin 8 → UInt8) (byteBuffer cvalue : Mem) (remainSize : ℤ)
    (h : cvalue.slice 0 10 = getIOStatus io) :
    ∃ c, (Driver.parsingReceiveValue byteBuffer cvalue 10 remainSize).calls = [c] ∧
      ∀ (t : Driver.TagState) (sensingTime : UInt32),
        (Driver.selectTag t sensingTime c.byteBuffer c.type).1.woPastData =
          0x02 &&& ioStatus io := by
  have hreply : Driver.replyBytes (2, [ioStatus io]) = getIOStatus io := rfl
  obtain ⟨c, hcalls, hevent, -⟩ := Driver.parsingReceiveValue_alone byteBuffer cvalue remainSize
    (e := (2, [ioStatus io])) (show 1 ≤ 32 by omega) (hreply ▸ h)
  refine ⟨c, hcalls, fun t sensingTime => ?_⟩
  obtain ⟨htype, hslice⟩ := Prod.mk.inj hevent
  have hbyte : c.byteBuffer 0 = ioStatus io :=
    Mem.eq_getElem_of_slice (k := 0) hslice Nat.zero_lt_one
  unfold Driver.selectTag
  rw [if_pos htype, hbyte]

/-! ### One bit for each port -/

/-- Every port shows in its own bit of the reply, and in the work order that the driver takes from it
port 1 alone. -/
structure PerPort (io : Fin 8 → UInt8) (reply : List UInt8) : Prop where
  bits : ∀ k : Fin 8, portBit (reply.getD 9 0) k = true ↔ io k ≠ 0
  workOrder : ∀ (byteBuffer cvalue : Mem) (remainSize : ℤ), cvalue.slice 0 10 = reply →
    ∃ c, (Driver.parsingReceiveValue byteBuffer cvalue 10 remainSize).calls = [c] ∧
      ∀ (t : Driver.TagState) (sensingTime : UInt32),
        (Driver.selectTag t sensingTime c.byteBuffer c.type).1.woPastData ≠ 0 ↔ io 1 ≠ 0

/-- No bit of a byte falls on a higher port whose byte is 0. -/
def NoSpill (io : Fin 8 → UInt8) : Prop :=
  ∀ j k : Fin 8, j < k → portBit (io j) (k - j) = true → io k ≠ 0

/-- A byte that is not 0 is odd, or a bit of the byte of a lower port falls on its port. -/
def Shown (io : Fin 8 → UInt8) : Prop :=
  ∀ k : Fin 8, io k ≠ 0 → portBit (io k) 0 = true ∨ ∃ j < k, portBit (io j) (k - j) = true

instance (io : Fin 8 → UInt8) : Decidable (NoSpill io) :=
  inferInstanceAs (Decidable (∀ _ _, _ → _ → _))

instance (io : Fin 8 → UInt8) : Decidable (Shown io) := inferInstanceAs (Decidable (∀ _, _ → _))

theorem ne_zero_of_portBit {b : UInt8} {k : ℕ} (h : portBit b k = true) : b ≠ 0 := by
  rintro rfl
  unfold portBit at h
  rw [UInt8.toBitVec_zero, BitVec.getLsbD_zero] at h
  exact Bool.false_ne_true h

theorem perPort_iff (io : Fin 8 → UInt8) :
    PerPort io (getIOStatus io) ↔ NoSpill io ∧ Shown io := by
  constructor
  · intro h
    refine ⟨fun j k hjk hbit => (h.bits k).mp ((portBit_ioStatus io k).mpr ⟨j, hjk.le, hbit⟩), ?_⟩
    intro k hk
    obtain ⟨j, hjk, hbit⟩ := (portBit_ioStatus io k).mp ((h.bits k).mpr hk)
    rcases hjk.eq_or_lt with rfl | hlt
    · rw [Nat.sub_self] at hbit
      exact Or.inl hbit
    · exact Or.inr ⟨j, hlt, hbit⟩
  · rintro ⟨hspill, hshown⟩
    have hbits : ∀ k : Fin 8, portBit (ioStatus io) k = true ↔ io k ≠ 0 := by
      intro k
      rw [portBit_ioStatus]
      constructor
      · rintro ⟨j, hjk, hbit⟩
        rcases hjk.eq_or_lt with rfl | hlt
        · exact ne_zero_of_portBit hbit
        · exact hspill j k hlt hbit
      · intro hk
        rcases hshown k hk with hodd | ⟨j, hlt, hbit⟩
        · exact ⟨k, le_rfl, by rwa [Nat.sub_self]⟩
        · exact ⟨j, hlt.le, hbit⟩
    refine ⟨hbits, fun byteBuffer cvalue remainSize hm => ?_⟩
    obtain ⟨c, hcalls, hwo⟩ := workOrder_getIOStatus io byteBuffer cvalue remainSize hm
    refine ⟨c, hcalls, fun t sensingTime => ?_⟩
    rw [hwo t sensingTime, workOrder_ne_zero]
    exact hbits 1

/-- A report that does not ask for a count sync leaves its eight bytes in `io`. -/
theorem io_receiveEvent {s s' : State} {r : Report} (hr : r.Counts)
    (h : receiveEvent s r = some s') : s'.io = ioOf r.buffer := by
  unfold receiveEvent at h
  rw [if_neg hr] at h
  obtain ⟨db, -, rfl⟩ := Option.map_eq_some_iff.mp h
  rfl

/-- **When every port shows in its own bit**: after a report, exactly when no byte spills over to a
port whose byte is 0 and none that is not 0 is lost. -/
theorem ioStatus_perPort_iff (s s' : State) (r : Report) (hr : r.Counts)
    (h : receiveEvent s r = some s') :
    PerPort (ioOf r.buffer) (getIOStatus s'.io) ↔ NoSpill (ioOf r.buffer) ∧ Shown (ioOf r.buffer) := by
  rw [io_receiveEvent hr h]
  exact perPort_iff _

/-! ### A report -/

/-- A frame that arrives alone and whose sum is right is accepted as it is. -/
theorem exists_accepted {f : Frame} {m : Mem} (hm : m.slice 0 f.bytes.length = f.bytes)
    (hsum : uartGetCheckSum m f.bytes.length = m (f.bytes.length - 2)) :
    ∃ c, Accepted c ∧ c.frame = f.bytes ∧ ∀ k < f.bytes.length, c.setBuffer k = m k := by
  have hscan : Scan.Scans (frameProbe 3 m f.bytes.length) f.bytes.length 0
      [⟨0, f.bytes.length⟩] false :=
    .hit (by simp) (frameProbe_of_frame le_rfl hm (by omega)) (.done (by omega))
  set copied := uartParser.copy m ⟨0, f.bytes.length⟩ (fun _ => 0) with hcopied
  have hagree : ∀ k < f.bytes.length, copied k = m k := by
    intro k hk
    have hlt : k < (m.slice 0 f.bytes.length).length := by rwa [Mem.length_slice]
    have hcopy : copied = Mem.store (fun _ => 0) 0 (m.slice 0 f.bytes.length) := rfl
    rw [hcopy, Mem.store_zero _ hlt, Mem.getElem_slice, Nat.zero_add]
  have hslice : ∀ a n, a + n ≤ f.bytes.length → copied.slice a n = m.slice a n :=
    fun a n h => Mem.slice_congr (fun k hk => hagree (a + k) (by omega))
  have hlen := f.length_bytes
  refine ⟨uartParser.call m (fun _ => 0) copied ⟨0, f.bytes.length⟩, ⟨?_, fun _ => 0, m,
    f.bytes.length, 0, ?_⟩,
    (hslice 0 f.bytes.length (by omega)).trans hm, hagree⟩
  · change (uartGetCheckSum copied (0 + f.bytes.length) == copied (0 + f.bytes.length - 2)) = true
    rw [Nat.zero_add, beq_iff_eq, hagree _ (by omega), ← hsum, uartGetCheckSum,
      hslice 1 _ (by omega), uartGetCheckSum]
  · unfold uartParsingReceiveValue
    rw [uartParser.parsingReceiveValue_eq (uartParser_advances m _) hscan,
      if_neg Bool.false_ne_true]
    exact List.mem_singleton.mpr rfl

/-- A report with counts of 0 and the given bytes for the ports. -/
def portReport (io : List UInt8) : List UInt8 :=
  let tlvs := (List.replicate 8 [2, 4, 0, 0, 0, 0]).flatten ++ io.flatMap (fun b => [3, 1, b])
  tlvs ++ [(0x49 :: tlvs).sum]

/-- Its frame. -/
def portFrame (io : List UInt8) (h : (portReport io).length < 256) : Frame := ⟨portReport io, h⟩

/-- Only port 1 is on. -/
def portOne : Frame := portFrame [0, 1, 0, 0, 0, 0, 0, 0] (by decide)

/-- The byte of port 0 is 2. -/
def portTwo : Frame := portFrame [2, 0, 0, 0, 0, 0, 0, 0] (by decide)

/-- The state of a program that has received the counts of a report before. -/
def received (buffer : Mem) : State := ⟨nodeOf buffer, nodeOf buffer, fun _ => 0, 0, zeros⟩

theorem receiveEvent_received (buffer : Mem) (o : Outcomes) (h : buffer 2 ≠ 1) :
    receiveEvent (received buffer) ⟨buffer, o⟩ =
      some { received buffer with io := ioOf buffer } :=
  receiveEvent_same (r := ⟨buffer, o⟩) h (not_changes_iff.mpr rfl)

/-- Nothing is to be saved. -/
def noOutcomes : Outcomes := ⟨⟨.ok, false⟩, ⟨.ok, false⟩, []⟩

theorem ioStatus_perPort_one :
    PerPort (ioOf (Mem.store (fun _ => 0) 0 portOne.bytes))
      (getIOStatus (ioOf (Mem.store (fun _ => 0) 0 portOne.bytes))) :=
  (ioStatus_perPort_iff _ _ ⟨Mem.store (fun _ => 0) 0 portOne.bytes, noOutcomes⟩
    (show Mem.store (fun _ => 0) 0 portOne.bytes 2 ≠ 1 by decide)
    (receiveEvent_received _ noOutcomes (by decide))).mpr (by decide)

/-- Port 0 shows as port 1, and so as a work order. -/
theorem ioStatus_perPort_wrong : ¬ ∀ (s s' : State) (c : UartCall) (o : Outcomes), Accepted c →
    c.setBuffer 2 ≠ 1 → receiveEvent s ⟨c.setBuffer, o⟩ = some s' →
    PerPort (ioOf c.setBuffer) (getIOStatus s'.io) := by
  intro h
  obtain ⟨c, hc, -, hbuffer⟩ := exists_accepted
    (Mem.slice_store (fun _ => 0) 0 portTwo.bytes) (by decide +kernel)
  have hagree : Mem.AgreeBelow 74 c.setBuffer (Mem.store (fun _ => 0) 0 portTwo.bytes) :=
    fun k hk => hbuffer k (hk.trans (by decide))
  have htype : c.setBuffer 2 ≠ 1 := by
    rw [hagree 2 (by decide)]
    decide
  have hperPort := h (received c.setBuffer) _ c noOutcomes hc htype
    (receiveEvent_received _ _ htype)
  dsimp only at hperPort
  rw [ioOf_congr hagree, perPort_iff] at hperPort
  revert hperPort
  decide

end IdcuIot.IoTManager
