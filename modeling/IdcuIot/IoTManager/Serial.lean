import Mathlib
import IdcuIot.Frame

/-! # IoTManager: the serial side

`uartParsingReceiveValue` and the receive loop of `main`.  The parser copies each frame to
the front of `setBuffer` and then checks its sum with the length `i+1`, the index after the
frame in the receive buffer, where the length of the frame is meant: for a frame that does
not start at index `0` the sum runs on into what earlier frames left in `setBuffer`.
`uartCall_verdict_iff` says for which frames the verdict is right all the same. -/

namespace IdcuIot.IoTManager

open Memory Scan Reassembly

/-- `BUFFER_SIZE` in `IoTManager.c`. -/
def bufferSize : ℕ := 2048

/-- `_uartGetCheckSum`: the sum of `buffer[1]`, …, `buffer[len-3]` in an `unsigned char`. -/
def uartGetCheckSum (buffer : Mem) (len : ℕ) : UInt8 := (buffer.slice 1 (len - 3)).sum

/-- What `uartParsingReceiveValue` does with a frame of `size` bytes that starts at index
`start`: `setBuffer` before and after the copy, and whether `receiveEvent` is called. -/
structure UartCall where
  start : ℕ
  size : ℕ
  before : Mem
  setBuffer : Mem
  received : Bool

/-- The frame that was copied. -/
def UartCall.frame (c : UartCall) : List UInt8 := c.setBuffer.slice 0 c.size

/-- The parser of the serial line. -/
def uartParser : Parser UartCall where
  probe := frameProbe 3
  header := 0
  room := bufferSize
  call _ before setBuffer c :=
    { start := c.start
      size := c.size
      before := before
      setBuffer := setBuffer
      received := uartGetCheckSum setBuffer c.stop == setBuffer (c.stop - 2) }

/-- `uartParsingReceiveValue`. -/
def uartParsingReceiveValue (setBuffer cvalue : Mem) (len : ℕ) (remainSize : ℤ) :
    Parsed UartCall :=
  uartParser.parsingReceiveValue setBuffer cvalue len remainSize

theorem uartParser_advances (m : Mem) (n : ℕ) : Advances (uartParser.probe m n) := by
  intro i size step hp
  obtain ⟨-, -, -, hsize, hstep⟩ := frameProbe_eq_hit.mp hp
  omega

/-! ### The checksum -/

/-- The sum of the bytes `1..L` of a frame is its byte `L+1`. -/
def SumOk (f : List UInt8) : Prop := ((f.drop 1).take (f.length - 3)).sum = f.getD (f.length - 2) 0

instance (f : List UInt8) : Decidable (SumOk f) := inferInstanceAs (Decidable (_ = _))

/-- The sum taken up to index `start + L` is right by accident: at index `0` always; behind
one byte when adding the checksum to the sum gives `FF`; further on according to the bytes
that earlier frames left behind the frame. -/
def SumInPlace (c : UartCall) : Prop :=
  let sum := ((c.frame.drop 1).take (c.size - 3)).sum
  let check := c.frame.getD (c.size - 2) 0
  match c.start with
  | 0 => True
  | 1 => sum = check ↔ sum + check = 0xFF
  | p + 2 => sum = check ↔ sum + check + 0xFF + (c.before.slice c.size p).sum = c.before (c.size + p)

/-- Shape of a call: its frame ends in `FF` and lies at the front of `setBuffer`, the bytes
behind it are those from before. -/
theorem uartCall_spec {setBuffer cvalue : Mem} {len : ℕ} {remainSize : ℤ} {c : UartCall}
    (hc : c ∈ (uartParsingReceiveValue setBuffer cvalue len remainSize).calls) :
    ∃ L, c.size = L + 3 ∧ c.frame = cvalue.slice c.start (L + 3) ∧ c.setBuffer (L + 2) = 0xFF ∧
      (∀ k, c.setBuffer (L + 3 + k) = c.before (L + 3 + k)) ∧
      c.received = (uartGetCheckSum c.setBuffer (c.start + (L + 3)) ==
        c.setBuffer (c.start + (L + 1))) := by
  obtain ⟨cut, step, before, -, hp, rfl⟩ :=
    uartParser.exists_of_mem_calls (uartParser_advances cvalue len) hc
  obtain ⟨-, -, hlast, hsize, -⟩ := frameProbe_eq_hit.mp hp
  refine ⟨(cvalue (cut.start + 1)).toNat, hsize, ?_, ?_, ?_, ?_⟩
  · simp only [UartCall.frame, uartParser, Parser.copy, Nat.add_zero, Nat.sub_zero, hsize]
    exact Mem.slice_memcpy _ _ _ _ _
  · simp only [uartParser, Parser.copy, Nat.add_zero, Nat.sub_zero, Mem.memcpy]
    rw [Mem.store_zero _ (by rw [Mem.length_slice]; omega), Mem.getElem_slice, hlast]
  · intro k
    simp only [uartParser, Parser.copy, Nat.add_zero, Nat.sub_zero, Mem.memcpy]
    exact Mem.store_of_le _ (by rw [Mem.length_slice]; omega)
  · simp only [uartParser, Cut.stop, hsize]
    rfl

theorem sum_slice_one (m : Mem) (a : ℕ) : (m.slice a 1).sum = m a := by
  simp [Mem.slice]

/-- **When the checksum verdict is right**: `receiveEvent` is called exactly for the frames
whose own sum is right if and only if the sum is taken in place. -/
theorem uartCall_verdict_iff (setBuffer cvalue : Mem) (len : ℕ) (remainSize : ℤ) (c : UartCall)
    (hc : c ∈ (uartParsingReceiveValue setBuffer cvalue len remainSize).calls) :
    (c.received = true ↔ SumOk c.frame) ↔ SumInPlace c := by
  obtain ⟨L, hsize, -, hlast, hbehind, hrec⟩ := uartCall_spec hc
  have hframe : c.frame = c.setBuffer.slice 0 (L + 3) := by rw [UartCall.frame, hsize]
  have hsum : (c.frame.drop 1).take (c.size - 3) = c.setBuffer.slice 1 L := by
    rw [hframe, hsize, Mem.slice_drop _ 0 (by omega), Mem.slice_take _ _ (by omega),
      Nat.add_sub_cancel]
  have hcheck : c.frame.getD (c.size - 2) 0 = c.setBuffer (L + 1) := by
    rw [hframe, hsize, List.getD_eq_getElem _ _ (by rw [Mem.length_slice]; omega),
      Mem.getElem_slice, Nat.zero_add]
    rfl
  have hlen : c.frame.length = c.size := Mem.length_slice _ _ _
  simp only [SumOk, SumInPlace, hlen, hsum, hcheck, hrec, beq_iff_eq, uartGetCheckSum,
    ← Nat.add_assoc, Nat.add_sub_cancel]
  rw [Nat.add_comm c.start L, Mem.slice_add, List.sum_append]
  generalize hs : (c.setBuffer.slice 1 L).sum = s
  generalize hk : c.setBuffer (L + 1) = k
  match hstart : c.start with
  | 0 => simp [hk]
  | 1 =>
      rw [Nat.add_comm 1 L, sum_slice_one, hk, show L + 1 + 1 = L + 2 from rfl, hlast]
      exact iff_comm
  | p + 2 =>
      have htail : (c.setBuffer.slice (1 + L) (p + 2)).sum =
          k + (0xFF + (c.before.slice (L + 3) p).sum) := by
        rw [show p + 2 = 1 + (1 + p) by omega, Mem.slice_add, Mem.slice_add, List.sum_append,
          List.sum_append, sum_slice_one, sum_slice_one, Nat.add_comm 1 L, hk, hlast,
          show L + 1 + 1 + 1 = L + 3 by omega, Mem.slice_congr (fun j _ => hbehind j)]
      rw [htail, show L + (p + 2) + 1 = L + 3 + p by omega, hbehind p, hsize, ← UInt8.add_assoc,
        ← UInt8.add_assoc]
      exact iff_comm

/-- The frame `FE 02 05 07 FF` twice: its sum `02 + 05` is its checksum `07`. -/
def frameTwice : Mem :=
  Mem.store (fun _ => 0) 0 [0xFE, 2, 5, 7, 0xFF, 0xFE, 2, 5, 7, 0xFF]

theorem uartCall_verdict_frameTwice :
    ∃ c ∈ (uartParsingReceiveValue (fun _ => 0) frameTwice 10 0).calls, c.start = 5 ∧
      ((c.received = true ↔ SumOk c.frame) ↔ SumInPlace c) :=
  ⟨_, List.getElem_mem (show 1 < _ by decide), by decide,
    uartCall_verdict_iff (fun _ => 0) frameTwice 10 0 _ (List.getElem_mem (show 1 < _ by decide))⟩

/-- The second of two equal frames is refused although its sum is right. -/
theorem uartCall_verdict_wrong : ¬ ∀ (setBuffer cvalue : Mem) (len : ℕ) (remainSize : ℤ),
    ∀ c ∈ (uartParsingReceiveValue setBuffer cvalue len remainSize).calls,
      (c.received = true ↔ SumOk c.frame) := by
  intro h
  have h2 := h (fun _ => 0) frameTwice 10 0
  revert h2
  decide

/-! ### The receive loop of `main` -/

/-- The receive loop of `main`: it sets `parsingSize = 0` after each read. -/
def uartLoop : RecvLoop UartCall :=
  { uartParser with
    bufferSize := bufferSize
    skips := fun receiveSize _ => decide (bufferSize ≤ receiveSize)
    resets := true }

theorem uartLoop_eager : uartLoop.Eager UartCall.frame IsFrame :=
  eager_of_frameProbe le_rfl rfl
    (fun m b c => by
      simp only [UartCall.frame, uartLoop, uartParser, Parser.copy, Nat.add_zero, Nat.sub_zero]
      exact Mem.slice_memcpy b 0 m c.start c.size)
    (by decide)

/-- The part of a frame that has arrived with the first `n` bytes of the line, when it is not
complete yet, contains what looks like a whole frame. -/
def HidesFrame (frames : List Frame) (n : ℕ) : Prop :=
  ∃ f : Frame, f.bytes <:+: pending id (frames.map Frame.bytes) n

/-- **When the frames come out whole**: read in pieces that fit the buffer, the frames on the
line are copied each once and in order, and nothing is left over, exactly when at no end of a
read the frame that is incomplete there hides another one. -/
theorem uartLoop_frames_iff (receiveBuffer : Mem) (frames : List Frame) (reads : List Read)
    (hne : ∀ r ∈ reads, r.data ≠ [])
    (h : reads.flatMap Read.data = frames.flatMap Frame.bytes)
    (hfit : uartLoop.Fits (RecvState.start receiveBuffer) reads) :
    uartLoop.Delivers UartCall.frame id receiveBuffer reads (frames.map Frame.bytes) ↔
      ∀ pre r post, reads = pre ++ r :: post →
        ¬ HidesFrame frames ((pre ++ [r]).flatMap Read.data).length := by
  refine uartLoop_eager.delivers_iff_of_reach receiveBuffer (frames.map Frame.bytes) reads
    isFrame_of_mem hne (h.trans (List.flatMap_def ..)) (fun n => ¬ HidesFrame frames n) ?_
  intro pre r post s new es hpre hr hes hk
  have hroom := (hpre ▸ hfit).of_run hr
  have hpos := List.length_pos_of_ne_nil (hne r (by rw [hpre]; simp))
  have hclear := frameProbe_pass_iff (m := RecvLoop.buffered s r)
    (settled_le id es (s.receiveSize + r.data.length))
  rw [RecvLoop.Eager.slice_pending hk rfl] at hclear
  unfold HidesFrame
  rw [hes, pending_append, not_exists, ← hclear]
  refine ⟨fun hstep => hstep.clear, fun hpass => ⟨?_, hroom, Or.inl rfl, hpass⟩⟩
  change s.receiveSize + r.data.length ≤ bufferSize at hroom
  exact decide_eq_false (by omega)

/-- A report whose body `FE 00 FF` looks like a frame, its terminator arriving on its own. -/
def hidingFrame : Frame := ⟨[0xFE, 0, 0xFF], by decide⟩

def hidingReads : List Read := [⟨[0xFE, 3, 0xFE, 0, 0xFF], fun _ => 0⟩, ⟨[0xFF], fun _ => 0⟩]

theorem uartLoop_frames_hiding :
    uartLoop.Delivers UartCall.frame id (fun _ => 0) hidingReads ([hidingFrame].map Frame.bytes) ↔
      ∀ pre r post, hidingReads = pre ++ r :: post →
        ¬ HidesFrame [hidingFrame] ((pre ++ [r]).flatMap Read.data).length :=
  uartLoop_frames_iff (fun _ => 0) [hidingFrame] hidingReads (by decide) (by decide) (by decide)

/-- The frame hidden in an incomplete one is cut out instead of it. -/
theorem uartLoop_frames_lost : ¬ ∀ (receiveBuffer : Mem) (frames : List Frame) (reads : List Read),
    (∀ r ∈ reads, r.data ≠ []) → reads.flatMap Read.data = frames.flatMap Frame.bytes →
    uartLoop.Fits (RecvState.start receiveBuffer) reads →
    uartLoop.Delivers UartCall.frame id receiveBuffer reads (frames.map Frame.bytes) := by
  intro h
  obtain ⟨s, hr, hs, -⟩ :=
    h (fun _ => 0) [hidingFrame] hidingReads (by decide) (by decide) (by decide)
  have hcut : ((uartLoop.receiver UartCall.frame).run (RecvState.start fun _ => 0) hidingReads).map
      (fun s => s.calls.map UartCall.frame) = some [[0xFE, 0, 0xFF]] := by decide
  rw [hr, Option.map_some, hs] at hcut
  revert hcut
  decide

end IdcuIot.IoTManager
