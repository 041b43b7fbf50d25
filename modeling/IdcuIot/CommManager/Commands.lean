import IdcuIot.M2MManager.PackManager

/-! # CommManager: commands for the nodes

The command branch of `main` takes a message from the queue of M2MManager, tests its first
and its last byte and hands it to `remoteNodeCommand`, which writes it to the serial line if
its length byte agrees with the length of the message.  The size is computed in an
`unsigned char`. -/

namespace IdcuIot.CommManager

open Memory Scan

/-- `nodeCMDTLV`; `value` lists the bytes copied into the array of 16 bytes. -/
structure NodeCMDTLV where
  type : UInt8
  length : UInt8
  value : List UInt8

/-- The command types of `CommManager.h`. -/
inductive Command where
  | rebootNode
  | changeNodeInfo
  | deleteNode
deriving DecidableEq, Repr

def Command.code : Command → UInt8
  | .rebootNode => 0x01
  | .deleteNode => 0x04
  | .changeNodeInfo => 0x12

/-- The `switch( type )` of `remoteNodeCommand`. -/
def Command.ofType (type : UInt8) : Option Command :=
  [.rebootNode, .changeNodeInfo, .deleteNode].find? (fun c => c.code == type)

/-- `nodeChangeBuf` with the node id, the new id and the new group filled in. -/
def nodeChangeBuf (dataBuf : Mem) : List UInt8 :=
  [0xFE, 0x1A, 0x1E, 0x18, dataBuf 4, dataBuf 5, 0x00, dataBuf 6, 0x1A, 0x04, 0x00,
    0x00, 0x32, 0x00, 0x32, 0x00, 0x32, 0x00, 0x32, 0x00, 0x32, 0x00, 0x32,
    0x01, 0x01, 0x01, 0x01, 0x01, 0xFF]

/-- `remoteNodeCommand`: its result and what it writes to the serial line. -/
def remoteNodeCommand (buffer : Mem) (len : ℕ) : ℤ × List (List UInt8) :=
  let size : UInt8 := buffer 1 + 3
  let type := buffer 2
  if size.toNat ≠ len then (-1, [])
  else
    match Command.ofType type with
    | some .rebootNode => (0, [buffer.slice 0 len])
    | some .changeNodeInfo => (0, [nodeChangeBuf buffer])
    | some .deleteNode | none => (0, [])

/-- What the command branch does with a message whose first and last byte are right. -/
structure CommandRun where
  cmdTlv : NodeCMDTLV
  rtrn : ℤ
  writes : List (List UInt8)

/-- The command branch of `main` for a message taken from the queue; `none` when it is
ignored. -/
def receiveCommand (data : TData) : Option CommandRun :=
  if data.dataBuff 0 = 0xFE ∧ data.dataBuff (data.dataNum - 1) = 0xFF then
    let type := data.dataBuff 2
    let length := data.dataBuff 3
    let r := remoteNodeCommand data.dataBuff data.dataNum
    some ⟨⟨type, length, data.dataBuff.slice 4 length.toNat⟩, r.1, r.2⟩
  else none

/-- CommManager accepts a message: the end-byte test and the size test succeed. -/
def Accepts (data : TData) : Prop := ∃ run, receiveCommand data = some run ∧ run.rtrn = 0

theorem remoteNodeCommand_fst (buffer : Mem) (len : ℕ) :
    (remoteNodeCommand buffer len).1 = 0 ↔ (buffer 1 + 3).toNat = len := by
  unfold remoteNodeCommand
  by_cases h : (buffer 1 + 3).toNat = len
  · simp only [h, ne_eq, not_true_eq_false, if_false, iff_true]
    cases Command.ofType (buffer 2) with
    | none => rfl
    | some c => cases c <;> rfl
  · simp only [ne_eq, h, not_false_eq_true, if_true, iff_false]
    decide

theorem accepts_iff (data : TData) : Accepts data ↔ data.dataBuff 0 = 0xFE ∧
    data.dataBuff (data.dataNum - 1) = 0xFF ∧ (data.dataBuff 1 + 3).toNat = data.dataNum := by
  unfold Accepts receiveCommand
  constructor
  · rintro ⟨run, hrun, hr⟩
    split_ifs at hrun with h
    obtain rfl := Option.some.inj hrun
    exact ⟨h.1, h.2, (remoteNodeCommand_fst _ _).mp hr⟩
  · rintro ⟨h0, h1, h2⟩
    rw [if_pos ⟨h0, h1⟩]
    exact ⟨_, rfl, (remoteNodeCommand_fst _ _).mpr h2⟩

/-! ### From M2MManager to the node -/

open M2MManager (PackCall Queue System messages packManager)

/-- A message carries the frame of a call: its length and its first bytes. -/
def Carries (c : PackCall) (data : TData) : Prop :=
  data.dataNum = c.size ∧ data.dataBuff.slice 0 c.size = c.frame

theorem packCall_spec {setBuffer cvalue : Mem} {len : ℕ} {remainSize : ℤ} {c : PackCall}
    (hc : c ∈ (M2MManager.parsingReceiveValue setBuffer cvalue len remainSize).calls) :
    c.len = c.start + c.size ∧ c.setBuffer 0 = 0xFE ∧ c.size = (c.setBuffer 1).toNat + 3 ∧
      c.setBuffer (c.size - 1) = 0xFF := by
  obtain ⟨cut, step, before, -, hp, rfl⟩ :=
    M2MManager.parser.exists_of_mem_calls (M2MManager.parser_advances cvalue len) hc
  obtain ⟨h0, -, hlast, hsize, -⟩ := frameProbe_eq_hit.mp hp
  have hcopy : ∀ k, k < cut.size → M2MManager.parser.copy cvalue cut before k =
      cvalue (cut.start + k) := by
    intro k hk
    have hslice : k < (cvalue.slice (cut.start + 0) (cut.size - 0)).length := by
      rwa [Mem.length_slice]
    exact (Mem.store_zero before hslice).trans (Mem.getElem_slice _ _ _ _ hslice)
  simp only [M2MManager.parser] at *
  rw [hcopy 0 (by omega), hcopy 1 (by omega), hcopy (cut.size - 1) (by omega)]
  refine ⟨rfl, h0, hsize, ?_⟩
  rwa [show cut.size - 1 = (cvalue (cut.start + 1)).toNat + 2 by omega]

theorem toNat_add_three (b : UInt8) : (b + 3).toNat = b.toNat + 3 ↔ b.toNat ≤ 252 := by
  have hb := b.toNat_lt
  rw [UInt8.toNat_add, show (3 : UInt8).toNat = 3 from rfl]
  omega

/-- **When forwarding is exact**: a message that a command puts on a queue carries the frame
and is accepted by CommManager, if it goes there, exactly when the frame lies at the start of
the receive buffer and, for CommManager, its length byte is at most 252. -/
theorem forwarding_exact_iff (sys : System) (setBuffer cvalue : Mem) (len : ℕ) (remainSize : ℤ)
    (c : PackCall)
    (hc : c ∈ (M2MManager.parsingReceiveValue setBuffer cvalue len remainSize).calls)
    (q : Queue) (d : TData) (hd : (q, d) ∈ messages (packManager sys c.setBuffer c.len)) :
    (Carries c d ∧ (q = .m2mid → Accepts d)) ↔
      c.start = 0 ∧ (q = .m2mid → (c.setBuffer 1).toNat ≤ 252) := by
  obtain ⟨hlen, h0, hsize, hlast⟩ := packCall_spec hc
  rw [M2MManager.messages_packManager, List.mem_map] at hd
  obtain ⟨q', -, hpair⟩ := hd
  obtain ⟨rfl, rfl⟩ := Prod.mk.inj hpair
  have hcarries : Carries c (TData.ofBuffer 1 c.setBuffer c.len) ↔ c.start = 0 := by
    unfold Carries
    rw [TData.dataNum_ofBuffer, TData.slice_ofBuffer _ _ (by omega)]
    exact ⟨fun h => by omega, fun h => ⟨by omega, rfl⟩⟩
  rw [hcarries]
  refine and_congr_right (fun hstart => imp_congr_right (fun _ => ?_))
  have hnum : c.len = c.size := by omega
  rw [accepts_iff, TData.dataNum_ofBuffer, TData.dataBuff_ofBuffer _ _ (by omega),
    TData.dataBuff_ofBuffer _ _ (by omega), TData.dataBuff_ofBuffer _ _ (by omega), hnum, hsize,
    toNat_add_three]
  rw [hsize] at hlast
  exact ⟨fun h => h.2.2, fun h => ⟨h0, hlast, h⟩⟩

/-- Two commands `FE 02 01 05 FF` (restart a node) that arrive in one read. -/
def rebootTwice : Mem :=
  Mem.store (fun _ => 0) 0 [0xFE, 2, 1, 5, 0xFF, 0xFE, 2, 1, 5, 0xFF]

/-- A system whose clock is never set. -/
def noSystem : System := ⟨fun _ => -1, fun _ => 0⟩

theorem forwarding_exact_rebootTwice :
    ∃ c ∈ (M2MManager.parsingReceiveValue (fun _ => 0) rebootTwice 10 0).calls,
      (Carries c (TData.ofBuffer 1 c.setBuffer c.len) ∧
          (Queue.m2mid = .m2mid → Accepts (TData.ofBuffer 1 c.setBuffer c.len))) ↔
        c.start = 0 ∧ (Queue.m2mid = .m2mid → (c.setBuffer 1).toNat ≤ 252) :=
  ⟨_, List.getElem_mem (show 0 < _ by decide),
    forwarding_exact_iff noSystem (fun _ => 0) rebootTwice 10 0 _
      (List.getElem_mem (show 0 < _ by decide)) .m2mid _
      (by rw [M2MManager.messages_packManager]; exact List.mem_cons_self)⟩

/-- The second of two commands in one read is forwarded under a wrong length. -/
theorem forwarding_wrong : ¬ ∀ (sys : System) (setBuffer cvalue : Mem) (len : ℕ) (remainSize : ℤ),
    ∀ c ∈ (M2MManager.parsingReceiveValue setBuffer cvalue len remainSize).calls,
      ∀ q d, (q, d) ∈ messages (packManager sys c.setBuffer c.len) →
        Carries c d ∧ (q = .m2mid → Accepts d) := by
  intro h
  have hsnd := h noSystem (fun _ => 0) rebootTwice 10 0 _ (List.getElem_mem (show 1 < _ by decide))
    .m2mid _ (by rw [M2MManager.messages_packManager]; exact List.mem_cons_self)
  revert hsnd
  rintro ⟨⟨hnum, -⟩, -⟩
  revert hnum
  decide

end IdcuIot.CommManager
