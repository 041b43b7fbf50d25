import IdcuIot.Frame
import IdcuIot.Lib.Words
import IdcuIot.Shared

/-! # IoTManager: the frame that restores the counts

When the bridge asks for it, `thread_syncCount` sends `pastData` back.  The length byte counts
three bytes more than the counts have, but only one of them is sent before the terminator, and the
terminator is put on the last byte of the last count.  The frames of `setCountClear` and
`thread_main` show what was meant (`isFrame_setCountClear`, `isFrame_threadMain`); this one is
never a frame (`syncCount_malformed`). -/

namespace IdcuIot.IoTManager

open Memory

/-- `MGData` in memory: eight words of four bytes, low byte first. -/
def mgDataBytes (data : MGData) : List UInt8 :=
  (List.finRange 8).flatMap (fun i => (List.range 4).map (Words.byteAt (data.cnt i)))

/-- The bytes that `thread_syncCount` writes. -/
def threadSyncCount (pastData : MGData) : List UInt8 :=
  let length := (mgDataBytes pastData).length
  let sendBuf : Mem := Mem.store (fun _ => 0) 0
    [0xFE, UInt8.ofNat (length + 3), 0x32, UInt8.ofNat length]
  let sendBuf := (sendBuf.store 4 (mgDataBytes pastData)).store (length + 3) [0xFF]
  sendBuf.slice 0 (length + 4)

/-- The bytes that `setCountClear` writes. -/
def setCountClear (port : UInt8) : List UInt8 := [0xFE, 0x04, 0x55, 0x02, 0x02, port, 0xFF]

/-- The bytes that `thread_main` writes every half second. -/
def threadMain : List UInt8 := [0xFE, 0x03, 0x03, 0x01, 0x00, 0xFF]

/-- One frame of the line, with the 32 bytes of the counts behind its first four bytes. -/
structure Restores (pastData : MGData) (written : List UInt8) : Prop where
  frame : IsFrame written
  counts : (written.drop 4).take 32 = mgDataBytes pastData

/-! ### The other frames -/

theorem isFrame_setCountClear (port : UInt8) : IsFrame (setCountClear port) :=
  ⟨⟨[0x55, 0x02, 0x02, port], show 4 < 256 by omega⟩, rfl⟩

theorem isFrame_threadMain : IsFrame threadMain := ⟨⟨[0x03, 0x01, 0x00], by decide⟩, rfl⟩

/-! ### The frame with the counts -/

/-- The length byte of a frame counts what lies between it and the terminator. -/
theorem length_of_isFrame {l : List UInt8} (h : IsFrame l) : l.length = (l.getD 1 0).toNat + 3 := by
  obtain ⟨f, rfl⟩ := h
  change _ = (UInt8.ofNat f.body.length).toNat + 3
  rw [f.length_bytes, f.toNat_length]

theorem threadSyncCount_eq (pastData : MGData) :
    threadSyncCount pastData = [0xFE, 35, 0x32, 32] ++ (mgDataBytes pastData).take 31 ++ [0xFF] := rfl

/-- The counts come through exactly when the highest byte of the last one is `FF` anyway. -/
theorem counts_threadSyncCount (pastData : MGData) :
    ((threadSyncCount pastData).drop 4).take 32 = mgDataBytes pastData ↔
      Words.byteAt (pastData.cnt 7) 3 = 0xFF := by
  have hsplit : mgDataBytes pastData =
      (mgDataBytes pastData).take 31 ++ [Words.byteAt (pastData.cnt 7) 3] := rfl
  have hsent : ((threadSyncCount pastData).drop 4).take 32 =
      (mgDataBytes pastData).take 31 ++ [0xFF] := rfl
  rw [hsent]
  constructor
  · intro h
    have hlast := List.append_cancel_left (h.trans hsplit)
    exact (List.cons.inj hlast).1.symm
  · intro h
    rw [h] at hsplit
    exact hsplit.symm

/-- **The frame with the counts is no frame**, whatever they are: its length byte announces two
bytes more than are sent. -/
theorem syncCount_malformed (pastData : MGData) :
    ¬ Restores pastData (threadSyncCount pastData) := by
  intro h
  have hlength : 36 = (35 : UInt8).toNat + 3 := length_of_isFrame h.frame
  revert hlength
  decide

/-- For counts of 0, too. -/
theorem syncCount_zero : ¬ ∀ pastData : MGData, Restores pastData (threadSyncCount pastData) := by
  intro h
  have hcounts := (counts_threadSyncCount ⟨fun _ => 0⟩).mp (h ⟨fun _ => 0⟩).counts
  revert hcounts
  decide

end IdcuIot.IoTManager
