import IdcuIot.Frame
import IdcuIot.Shared

/-! # M2MManager: the command connection

`Socket_Manager` reads commands from a client and `ParsingReceiveValue` cuts them into
frames for `Pack_Manager`.  Three things set it apart from the serial side of IoTManager:

* the parser asks for `cvalue[i+1]` bytes after index `i` only, three too few;
* `parsingSize` is not reset, so a read that completes no frame subtracts what was left over
  before it from what is there now, and drops that many bytes;
* `Pack_Manager` gets the index `i+1` after the frame as the length of the frame. -/

namespace IdcuIot.M2MManager

open Memory Scan Reassembly

/-- `BUFFER_SIZE` in `M2MManager.h`. -/
def bufferSize : ℕ := 1024

/-- The call `Pack_Manager( setBuffer, len )` for a frame of `size` bytes that starts at
index `start`. -/
structure PackCall where
  start : ℕ
  size : ℕ
  setBuffer : Mem
  len : ℕ

/-- The frame at the start of the buffer. -/
def PackCall.frame (c : PackCall) : List UInt8 := c.setBuffer.slice 0 c.size

/-- The parser of the command connection. -/
def parser : Parser PackCall where
  probe := frameProbe 0
  header := 0
  room := bufferSize
  call _ _ setBuffer c := ⟨c.start, c.size, setBuffer, c.stop⟩

/-- `ParsingReceiveValue`. -/
def parsingReceiveValue (setBuffer cvalue : Mem) (len : ℕ) (remainSize : ℤ) : Parsed PackCall :=
  parser.parsingReceiveValue setBuffer cvalue len remainSize

/-- The receive loop of `Socket_Manager`. -/
def socketManager : RecvLoop PackCall :=
  { parser with
    bufferSize := bufferSize
    skips := fun _ readMsgSize => decide (bufferSize ≤ readMsgSize)
    resets := false }

theorem parser_advances (m : Mem) (n : ℕ) : Advances (parser.probe m n) := by
  intro i size step hp
  obtain ⟨-, -, -, hsize, hstep⟩ := frameProbe_eq_hit.mp hp
  omega

theorem socketManager_eager : socketManager.Eager PackCall.frame IsFrame :=
  eager_of_frameProbe (Nat.zero_le 3) rfl
    (fun m b c => by
      simp only [PackCall.frame, socketManager, parser, Parser.copy, Nat.add_zero, Nat.sub_zero]
      exact Mem.slice_memcpy b 0 m c.start c.size)
    (by decide)

/-- **When the commands come out whole**: `Pack_Manager` is called for the frames sent, each
once and in order, and nothing is left over, exactly when every read is in step. -/
theorem socketManager_frames_iff (receiveBuffer : Mem) (frames : List Frame) (reads : List Read)
    (hne : ∀ r ∈ reads, r.data ≠ [])
    (h : reads.flatMap Read.data = frames.flatMap Frame.bytes) :
    socketManager.Delivers PackCall.frame id receiveBuffer reads (frames.map Frame.bytes) ↔
      ∀ pre r post, reads = pre ++ r :: post → ∀ s,
        (socketManager.receiver PackCall.frame).run (RecvState.start receiveBuffer) pre = some s →
          socketManager.InStep s ((frames.map Frame.bytes).drop s.calls.length) r := by
  exact socketManager_eager.delivers_iff receiveBuffer (frames.map Frame.bytes) reads
    isFrame_of_mem hne (h.trans (List.flatMap_def ..))

/-- The command `FE 01 2A FF`. -/
def shortFrame : Frame := ⟨[0x2A], by decide⟩

/-- Reads of one byte each. -/
def singly (l : List UInt8) : List Read := l.map (fun b => ⟨[b], fun _ => 0⟩)

theorem socketManager_frames_singly :
    socketManager.Delivers PackCall.frame id (fun _ => 0) (singly shortFrame.bytes)
        ([shortFrame].map Frame.bytes) ↔
      ∀ pre r post, singly shortFrame.bytes = pre ++ r :: post → ∀ s,
        (socketManager.receiver PackCall.frame).run (RecvState.start fun _ => 0) pre = some s →
          socketManager.InStep s (([shortFrame].map Frame.bytes).drop s.calls.length) r :=
  socketManager_frames_iff (fun _ => 0) [shortFrame] (singly shortFrame.bytes) (by decide)
    (by decide)

/-- A command that arrives byte by byte is never handed on. -/
theorem socketManager_frames_lost : ¬ ∀ (receiveBuffer : Mem) (frames : List Frame)
    (reads : List Read), (∀ r ∈ reads, r.data ≠ []) →
    reads.flatMap Read.data = frames.flatMap Frame.bytes →
    socketManager.Delivers PackCall.frame id receiveBuffer reads (frames.map Frame.bytes) := by
  intro h
  obtain ⟨s, hr, hs, -⟩ := h (fun _ => 0) [shortFrame] (singly shortFrame.bytes) (by decide)
    (by decide)
  have hcut : ((socketManager.receiver PackCall.frame).run (RecvState.start fun _ => 0)
      (singly shortFrame.bytes)).map (fun s => s.calls.map PackCall.frame) = some [] := by decide
  rw [hr, Option.map_some, hs] at hcut
  revert hcut
  decide

end IdcuIot.M2MManager
