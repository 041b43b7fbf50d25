import IdcuIot.SerialSource.Packet

/-! # serialsource: the source and its calls

A `Source` is the `struct serial_source` of a program together with its device: the script of what
`read`, `write` and `select` are still going to return, and the bytes the device was given so far.
A call that would block on `read` when the script is over has not returned (`none`); the source
then shows what it did so far. -/

namespace IdcuIot.SerialSource

/-- `serial_source_msg`, as far as it is used. -/
inductive Msg where
  | sync
  | tooLong
  | badSync
  | badCrc
  | unixError
deriving DecidableEq, Repr

/-- What one `read` of the device gives: at most `BUFSIZE` bytes, or one of the errors `EAGAIN`,
`EINTR` and all others. -/
inductive Read where
  | data (bytes : List UInt8) (fits : bytes.length ≤ 128)
  | again
  | interrupted
  | failed
deriving DecidableEq, Repr

/-- The bytes of a read. -/
def Read.bytes : Read → List UInt8
  | .data bytes _ => bytes
  | _ => []

/-- What one `write` to the device gives: some of the bytes are taken, or an error. -/
inductive Write where
  | wrote (n : ℕ)
  | interrupted
  | failed
deriving DecidableEq, Repr

/-- A serial source and its device. -/
structure Source where
  nonBlocking : Bool
  /-- The bytes between `recv.bufpos` and `recv.bufused`. -/
  buffer : List UInt8
  /-- `recv.packet`, of which the first `count` bytes are in use. -/
  packet : Vector UInt8 mtu
  count : ℕ
  inSync : Bool
  escaped : Bool
  /-- `recv.queue`, indexed by protocol. -/
  queue : UInt8 → List (List UInt8)
  seqno : UInt8
  /-- What the next calls of `read` are going to give. -/
  reads : List Read
  /-- What the next calls of `write` are going to give; those after take all bytes. -/
  writes : List Write
  /-- Whether the next calls of `select` see data before the deadline; those after do not. -/
  waits : List Bool
  /-- The bytes the device was given. -/
  written : List UInt8
  /-- The problems that were signalled. -/
  messages : List Msg

namespace Source

/-- `open_serial_source` on memory that is clear; its own `memset` clears the first bytes only. -/
def opened (nonBlocking : Bool) (reads : List Read) : Source where
  nonBlocking := nonBlocking
  buffer := []
  packet := Vector.replicate mtu 0
  count := 0
  inSync := false
  escaped := false
  queue := fun _ => []
  seqno := 37
  reads := reads
  writes := []
  waits := []
  written := []
  messages := []

def message (s : Source) (msg : Msg) : Source := { s with messages := s.messages ++ [msg] }

/-! ### Writing -/

/-- The loop of `source_write`: the bytes that are taken, the script that is left, and whether the
loop ended without an error. -/
def put : List Write → List UInt8 → List UInt8 × List Write × Bool
  | ws, [] => ([], ws, true)
  | [], bytes => (bytes, [], true)
  | .wrote n :: ws, bytes =>
      (bytes.take n ++ (put ws (bytes.drop n)).1, (put ws (bytes.drop n)).2)
  | .interrupted :: ws, bytes => put ws bytes
  | .failed :: ws, _ => ([], ws, false)

/-- `source_write`, whether it succeeds. -/
def sourceWrite (s : Source) (bytes : List UInt8) : Source × Bool :=
  let s' := { s with written := s.written ++ (put s.writes bytes).1,
                     writes := (put s.writes bytes).2.1 }
  if (put s.writes bytes).2.2 then (s', true) else (s'.message .unixError, false)

/-- `write_framed_packet`, whether it succeeds. -/
def writeFramedPacket (s : Source) (packetType firstByte : UInt8) (packet : List UInt8) :
    Source × Bool :=
  s.sourceWrite (framedPacket packetType firstByte packet)

/-! ### Protocol queues -/

/-- `push_protocol_packet`; its `malloc` asks for one byte, and the entry is taken to fit in what it
gives. -/
def pushProtocolPacket (s : Source) (type : UInt8) (packet : List UInt8) : Source :=
  { s with queue := Function.update s.queue type (s.queue type ++ [packet]) }

/-- `pop_protocol_packet`. -/
def popProtocolPacket (s : Source) (type : UInt8) : Source × Option (List UInt8) :=
  match s.queue type with
  | [] => (s, none)
  | packet :: rest => ({ s with queue := Function.update s.queue type rest }, some packet)

/-- `process_packet`; a packet to be acknowledged joins those that are not. -/
def processPacket (s : Source) (packet : List UInt8) : Source :=
  if packet.getD 0 0 = pPacketAck then
    (s.writeFramedPacket pAck (packet.getD 1 0) []).1.pushProtocolPacket pPacketNoAck
      (packet.drop 2)
  else s.pushProtocolPacket (packet.getD 0 0) (packet.drop 1)

/-! ### Receiving -/

/-- `packet[count++] = byte`. -/
def keep (s : Source) (byte : UInt8) (h : s.count < mtu) : Source :=
  { s with packet := s.packet.set s.count byte h, count := s.count + 1 }

/-- The end of a frame: whether a packet was processed. -/
def endFrame (s : Source) (h : s.count < mtu) : Source × Bool :=
  let s' := { s with count := 0 }
  if s.count < 4 then (s', false)
  else
    let received := s.packet.toList.take (s.count - 2)
    if crcOf (s.packet[s.count - 2]) (s.packet[s.count - 1]) = crcPacket received then
      (s'.processPacket received, true)
    else (s'.message .badCrc, false)

/-- The body of the loop in `read_and_process`: whether it returns. -/
def receive (s : Source) (byte : UInt8) : Source × Bool :=
  if ¬ s.inSync then
    if byte = syncByte then
      ({ s.message .sync with inSync := true, count := 0, escaped := false }, false)
    else (s, false)
  else if h : mtu ≤ s.count then ({ s.message .tooLong with inSync := false }, false)
  else if s.escaped then
    if byte = syncByte then ({ s.message .badSync with inSync := false }, false)
    else ({ s with escaped := false }.keep (byte ^^^ 0x20) (Nat.not_le.mp h), false)
  else if byte = escapeByte then ({ s with escaped := true }, false)
  else if byte = syncByte then s.endFrame (Nat.not_le.mp h)
  else (s.keep byte (Nat.not_le.mp h), false)

/-- The loop of `read_byte` over `buggyread`, which in blocking mode reads again when there are no
bytes; `some none` is the return value −1. -/
def refill (s : Source) : List Read → Source × Option (Option UInt8)
  | [] => ({ s with reads := [] }, none)
  | .data (byte :: bytes) _ :: reads =>
      ({ s with buffer := bytes, reads := reads }, some (some byte))
  | .data [] _ :: reads =>
      if s.nonBlocking then ({ s with reads := reads }, some none) else refill s reads
  | .again :: reads => ({ s with reads := reads }, some none)
  | .interrupted :: reads => refill s reads
  | .failed :: reads => refill (s.message .unixError) reads

/-- `read_byte`. -/
def readByte (s : Source) : Source × Option (Option UInt8) :=
  match s.buffer with
  | byte :: rest => ({ s with buffer := rest }, some (some byte))
  | [] => s.refill s.reads

/-! ### What does not read -/

/-- From `s` to `s'` nothing is read, and no call is started. -/
structure Quiet (s s' : Source) : Prop where
  nonBlocking : s'.nonBlocking = s.nonBlocking
  buffer : s'.buffer = s.buffer
  seqno : s'.seqno = s.seqno
  reads : s'.reads = s.reads
  waits : s'.waits = s.waits

theorem Quiet.refl (s : Source) : Quiet s s := ⟨rfl, rfl, rfl, rfl, rfl⟩

theorem Quiet.trans {s s' s'' : Source} (h : Quiet s s') (h' : Quiet s' s'') : Quiet s s'' :=
  ⟨h'.nonBlocking.trans h.nonBlocking, h'.buffer.trans h.buffer, h'.seqno.trans h.seqno,
    h'.reads.trans h.reads, h'.waits.trans h.waits⟩

theorem quiet_sourceWrite (s : Source) (bytes : List UInt8) :
    Quiet s (s.sourceWrite bytes).1 := by
  unfold sourceWrite
  dsimp only
  split_ifs <;> exact ⟨rfl, rfl, rfl, rfl, rfl⟩

theorem quiet_processPacket (s : Source) (packet : List UInt8) :
    Quiet s (s.processPacket packet) := by
  unfold processPacket
  split_ifs with h
  · exact (quiet_sourceWrite s _).trans ⟨rfl, rfl, rfl, rfl, rfl⟩
  · exact ⟨rfl, rfl, rfl, rfl, rfl⟩

theorem quiet_endFrame (s : Source) (h : s.count < mtu) : Quiet s (s.endFrame h).1 := by
  have hcount : Quiet s { s with count := 0 } := ⟨rfl, rfl, rfl, rfl, rfl⟩
  unfold endFrame
  dsimp only
  split_ifs
  · exact hcount
  · exact hcount.trans (quiet_processPacket _ _)
  · exact hcount.trans ⟨rfl, rfl, rfl, rfl, rfl⟩

theorem quiet_receive (s : Source) (byte : UInt8) : Quiet s (s.receive byte).1 := by
  unfold receive
  split_ifs <;> first | exact quiet_endFrame s _ | exact ⟨rfl, rfl, rfl, rfl, rfl⟩

/-! ### The calls -/

/-- What is left to be read, for the loops to end. -/
def pending (s : Source) : ℕ :=
  s.buffer.length + (s.reads.map (fun r => r.bytes.length + 1)).sum

theorem Quiet.pending_eq {s s' : Source} (h : Quiet s s') : s'.pending = s.pending := by
  unfold pending
  rw [h.buffer, h.reads]

theorem pending_refill : ∀ (reads : List Read) (s : Source), (s.refill reads).2.isSome →
    (s.refill reads).1.pending <
      s.buffer.length + (reads.map (fun r => r.bytes.length + 1)).sum := by
  intro reads
  induction reads with
  | nil => exact fun s h => by simp [refill] at h
  | cons r reads ih =>
      intro s h
      cases r with
      | data bytes fits =>
          cases bytes with
          | cons byte bytes =>
              simp [refill, pending, Read.bytes]
              omega
          | nil =>
              unfold refill at h ⊢
              split_ifs at h ⊢
              · simp [pending, Read.bytes]
              · have hread := ih s h
                simp only [List.map_cons, List.sum_cons]
                omega
      | again => simp [refill, pending, Read.bytes]
      | interrupted =>
          have hread := ih s h
          simp only [List.map_cons, List.sum_cons]
          exact hread.trans (by omega)
      | failed =>
          have hread := ih (s.message .unixError) h
          simp only [List.map_cons, List.sum_cons]
          exact hread.trans (by simp [message])

theorem pending_readByte {s s' : Source} {r : Option UInt8} (h : s.readByte = (s', some r)) :
    s'.pending < s.pending := by
  unfold readByte at h
  cases hbuffer : s.buffer with
  | cons byte rest =>
      rw [hbuffer] at h
      obtain ⟨rfl, -⟩ := Prod.mk.inj h
      simp [pending, hbuffer]
  | nil =>
      rw [hbuffer] at h
      have hread := pending_refill s.reads s
      change s.refill s.reads = _ at h
      rw [h] at hread
      exact hread rfl

/-- `read_and_process`. -/
def readAndProcess (s : Source) : Source × Option Unit :=
  match _hr : s.readByte with
  | (s', none) => (s', none)
  | (s', some none) => (s', some ())
  | (s', some (some byte)) =>
      if (s'.receive byte).2 then ((s'.receive byte).1, some ())
      else readAndProcess (s'.receive byte).1
termination_by s.pending
decreasing_by
  rw [(quiet_receive s' byte).pending_eq]
  exact pending_readByte _hr

theorem readAndProcess_of_waiting {s s' : Source} (h : s.readByte = (s', none)) :
    s.readAndProcess = (s', none) := by
  rw [readAndProcess]
  split <;> rename_i hr <;> rw [h] at hr <;> cases hr
  rfl

theorem readAndProcess_of_none {s s' : Source} (h : s.readByte = (s', some none)) :
    s.readAndProcess = (s', some ()) := by
  rw [readAndProcess]
  split <;> rename_i hr <;> rw [h] at hr <;> cases hr
  rfl

theorem readAndProcess_of_byte {s s' : Source} {byte : UInt8}
    (h : s.readByte = (s', some (some byte))) :
    s.readAndProcess = if (s'.receive byte).2 then ((s'.receive byte).1, some ())
      else (s'.receive byte).1.readAndProcess := by
  rw [readAndProcess]
  split <;> rename_i hr <;> rw [h] at hr <;> cases hr
  rfl

theorem pending_readAndProcess {s s' : Source} (h : s.readAndProcess = (s', some ())) :
    s'.pending < s.pending := by
  induction s using readAndProcess.induct with
  | case1 s s₁ hr =>
      rw [readAndProcess_of_waiting hr] at h
      cases h
  | case2 s s₁ hr =>
      rw [readAndProcess_of_none hr] at h
      cases h
      exact pending_readByte hr
  | case3 s s₁ byte hr hdone =>
      rw [readAndProcess_of_byte hr, if_pos hdone] at h
      cases h
      rw [(quiet_receive s₁ byte).pending_eq]
      exact pending_readByte hr
  | case4 s s₁ byte hr hdone ih =>
      rw [readAndProcess_of_byte hr, if_neg hdone] at h
      have hbyte := pending_readByte hr
      rw [← (quiet_receive s₁ byte).pending_eq] at hbyte
      exact (ih h).trans hbyte

/-- `serial_source_empty`. -/
def serialSourceEmpty (_ : Source) : Bool := false

/-- `read_serial_packet`; `some none` is the return value `NULL`.  Waiting without a deadline ends
when there is something to read, which the next read shows. -/
def readSerialPacket (s : Source) : Source × Option (Option (List UInt8)) :=
  match _hr : s.readAndProcess with
  | (s', none) => (s', none)
  | (s', some ()) =>
      match (s'.popProtocolPacket pPacketNoAck).2 with
      | some packet => ((s'.popProtocolPacket pPacketNoAck).1, some (some packet))
      | none =>
          if s'.nonBlocking && s'.serialSourceEmpty then (s', some none)
          else readSerialPacket s'
termination_by s.pending
decreasing_by exact pending_readAndProcess _hr

theorem readSerialPacket_of_waiting {s s' : Source} (h : s.readAndProcess = (s', none)) :
    s.readSerialPacket = (s', none) := by
  rw [readSerialPacket]
  split <;> rename_i hr <;> rw [h] at hr <;> cases hr
  rfl

theorem readSerialPacket_of_done {s s' : Source} (h : s.readAndProcess = (s', some ())) :
    s.readSerialPacket =
      match (s'.popProtocolPacket pPacketNoAck).2 with
      | some packet => ((s'.popProtocolPacket pPacketNoAck).1, some (some packet))
      | none => s'.readSerialPacket := by
  rw [readSerialPacket]
  split <;> rename_i hr <;> rw [h] at hr <;> cases hr
  have hnull : ¬ (s'.nonBlocking && s'.serialSourceEmpty) = true := by simp [serialSourceEmpty]
  rw [if_neg hnull]

/-- `source_wait` with a deadline: whether there is data. -/
def sourceWait (s : Source) : Source × Bool :=
  match s.buffer, s.waits with
  | _ :: _, _ => (s, true)
  | [], [] => (s, false)
  | [], wait :: waits => ({ s with waits := waits }, wait)

theorem pending_sourceWait (s : Source) : s.sourceWait.1.pending = s.pending := by
  unfold sourceWait
  split <;> rfl

theorem pending_popProtocolPacket (s : Source) (type : UInt8) :
    (s.popProtocolPacket type).1.pending = s.pending := by
  unfold popProtocolPacket
  split <;> rfl

/-- The loop of `write_serial_packet`, which reads until the packet is acknowledged. -/
def awaitAck (s : Source) : Source × Option ℤ :=
  match _hr : s.readAndProcess with
  | (s', none) => (s', none)
  | (s', some ()) =>
      match (s'.popProtocolPacket pAck).2 with
      | some packet =>
          if packet.getD 0 0 = s'.seqno then ((s'.popProtocolPacket pAck).1, some 0)
          else awaitAck (s'.popProtocolPacket pAck).1
      | none =>
          if s'.sourceWait.2 then awaitAck s'.sourceWait.1 else (s'.sourceWait.1, some 1)
termination_by s.pending
decreasing_by
  · rw [pending_popProtocolPacket]
    exact pending_readAndProcess _hr
  · rw [pending_sourceWait]
    exact pending_readAndProcess _hr

theorem awaitAck_of_waiting {s s' : Source} (h : s.readAndProcess = (s', none)) :
    s.awaitAck = (s', none) := by
  rw [awaitAck]
  split <;> rename_i hr <;> rw [h] at hr <;> cases hr
  rfl

theorem awaitAck_of_done {s s' : Source} (h : s.readAndProcess = (s', some ())) :
    s.awaitAck =
      match (s'.popProtocolPacket pAck).2 with
      | some packet =>
          if packet.getD 0 0 = s'.seqno then ((s'.popProtocolPacket pAck).1, some 0)
          else (s'.popProtocolPacket pAck).1.awaitAck
      | none => if s'.sourceWait.2 then s'.sourceWait.1.awaitAck else (s'.sourceWait.1, some 1) := by
  rw [awaitAck]
  split <;> rename_i hr <;> rw [h] at hr <;> cases hr
  rfl

/-- `write_serial_packet`. -/
def writeSerialPacket (s : Source) (packet : List UInt8) : Source × Option ℤ :=
  let s' := { s with seqno := s.seqno + 1 }
  if (s'.writeFramedPacket pPacketAck s'.seqno packet).2 then
    (s'.writeFramedPacket pPacketAck s'.seqno packet).1.awaitAck
  else ((s'.writeFramedPacket pPacketAck s'.seqno packet).1, some (-1))

end Source

end IdcuIot.SerialSource
