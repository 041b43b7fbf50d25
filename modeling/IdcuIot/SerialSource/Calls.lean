import IdcuIot.SerialSource.Decode

/-! # serialsource: what the calls do

Every call is a span of the source's life (`Ran`): it reads some bytes, and with them the packets
in them; each packet joins the queue of its protocol, in order (`Ran.queue`), and each one that
asks for it is acknowledged once, in order (`Ran.acks`).  Spans add up (`Ran.trans`), so the same
holds of whole runs of `read_serial_packet` and `write_serial_packet`. -/

namespace IdcuIot.SerialSource

open Stuffing

/-- The arguments of `write_framed_packet`. -/
structure Framed where
  packetType : UInt8
  firstByte : UInt8
  packet : List UInt8
deriving DecidableEq, Repr

def Framed.bytes (f : Framed) : List UInt8 := framedPacket f.packetType f.firstByte f.packet

/-- The queue that `process_packet` puts a packet in. -/
def protocol (packet : List UInt8) : UInt8 :=
  if packet.getD 0 0 = pPacketAck then pPacketNoAck else packet.getD 0 0

/-- What `process_packet` leaves of a packet. -/
def body (packet : List UInt8) : List UInt8 :=
  if packet.getD 0 0 = pPacketAck then packet.drop 2 else packet.drop 1

/-- What `process_packet` answers to a packet. -/
def answer (packet : List UInt8) : List Framed :=
  if packet.getD 0 0 = pPacketAck then [⟨pAck, packet.getD 1 0, []⟩] else []

/-- What packets add to the queue of a protocol. -/
def received (type : UInt8) (ps : List (List UInt8)) : List (List UInt8) :=
  (ps.filter (fun p => decide (protocol p = type))).map body

@[simp] theorem received_nil (type : UInt8) : received type [] = [] := rfl

theorem received_append (type : UInt8) (ps ps' : List (List UInt8)) :
    received type (ps ++ ps') = received type ps ++ received type ps' := by
  simp [received]

theorem received_singleton (type : UInt8) (packet : List UInt8) :
    received type [packet] = if protocol packet = type then [body packet] else [] := by
  unfold received
  by_cases h : protocol packet = type
  · simp [List.filter_cons_of_pos, h]
  · simp [List.filter_cons_of_neg, h]

theorem length_received_le (type : UInt8) (ps : List (List UInt8)) :
    (received type ps).length ≤ ps.length := by
  rw [received, List.length_map]
  exact List.length_filter_le _ _

namespace Source

/-- The device makes no errors, though it may take few bytes at a time. -/
def Reliable (s : Source) : Prop := Write.failed ∉ s.writes

theorem put_of_reliable : ∀ (ws : List Write) (bytes : List UInt8), Write.failed ∉ ws →
    (put ws bytes).1 = bytes ∧ (put ws bytes).2.2 = true ∧ Write.failed ∉ (put ws bytes).2.1 := by
  intro ws
  induction ws with
  | nil =>
      intro bytes _
      cases bytes <;> simp [put]
  | cons w ws ih =>
      intro bytes h
      obtain ⟨hw, hws⟩ := not_or.mp (mt List.mem_cons.mpr h)
      cases bytes with
      | nil => exact ⟨rfl, rfl, h⟩
      | cons b bytes =>
          cases w with
          | wrote n =>
              obtain ⟨hput, hok, hleft⟩ := ih ((b :: bytes).drop n) hws
              refine ⟨?_, hok, hleft⟩
              change (b :: bytes).take n ++ (put ws ((b :: bytes).drop n)).1 = b :: bytes
              rw [hput, List.take_append_drop]
          | interrupted => exact ih (b :: bytes) hws
          | failed => exact absurd rfl hw

theorem sourceWrite_of_reliable {s : Source} (h : s.Reliable) (bytes : List UInt8) :
    (s.sourceWrite bytes).2 = true ∧ (s.sourceWrite bytes).1.Reliable ∧
      (s.sourceWrite bytes).1.written = s.written ++ bytes := by
  obtain ⟨hput, hok, hleft⟩ := put_of_reliable s.writes bytes h
  unfold sourceWrite
  rw [hok, hput]
  exact ⟨rfl, hleft, rfl⟩

/-- All that is still to be read. -/
def input (s : Source) : List UInt8 := s.buffer ++ s.reads.flatMap Read.bytes

theorem Quiet.input_eq {s s' : Source} (h : Quiet s s') : s'.input = s.input := by
  unfold input
  rw [h.buffer, h.reads]

/-- From `s` to `s'` the bytes `bytes` are read, the frames `frames` are written, and `out` is taken
from the queues. -/
structure Ran (s s' : Source) (bytes : List UInt8) (frames : List Framed)
    (out : UInt8 → List (List UInt8)) : Prop where
  input : s.input = bytes ++ s'.input
  view : s'.view = after s.view bytes
  queue : ∀ t, s.queue t ++ received t (packets s.view bytes) = out t ++ s'.queue t
  acks : frames.filter (fun f => decide (f.packetType = pAck)) =
    (packets s.view bytes).flatMap answer
  written : s.Reliable → s'.Reliable ∧ s'.written = s.written ++ frames.flatMap Framed.bytes

/-- Nothing is taken from the queues. -/
abbrev nothing : UInt8 → List (List UInt8) := fun _ => []

theorem Ran.refl (s : Source) : Ran s s [] [] nothing where
  input := rfl
  view := rfl
  queue t := by simp
  acks := rfl
  written h := ⟨h, by simp⟩

theorem Ran.trans {s s' s'' : Source} {bytes bytes' : List UInt8} {frames frames' : List Framed}
    {out out' : UInt8 → List (List UInt8)} (h : Ran s s' bytes frames out)
    (h' : Ran s' s'' bytes' frames' out') :
    Ran s s'' (bytes ++ bytes') (frames ++ frames') (fun t => out t ++ out' t) where
  input := by rw [h.input, h'.input, List.append_assoc]
  view := by rw [h'.view, h.view, after_append]
  queue t := by
    have hq' := h'.queue t
    rw [h.view] at hq'
    rw [packets_append, received_append, ← List.append_assoc, h.queue t, List.append_assoc, hq',
      List.append_assoc]
  acks := by
    have hacks' := h'.acks
    rw [h.view] at hacks'
    rw [List.filter_append, h.acks, hacks', packets_append, List.flatMap_append]
  written hs := by
    obtain ⟨hr, hw⟩ := h.written hs
    obtain ⟨hr', hw'⟩ := h'.written hr
    exact ⟨hr', by rw [hw', hw, List.flatMap_append, List.append_assoc]⟩

theorem Ran.of_input {s s' : Source} {bytes : List UInt8} (hinput : s.input = bytes ++ s'.input)
    (hview : s'.view = after s.view bytes) (hpackets : packets s.view bytes = [])
    (hsilent : Silent s s') : Ran s s' bytes [] nothing where
  input := hinput
  view := hview
  queue t := by rw [hpackets, hsilent.queue]; simp
  acks := by rw [hpackets]; rfl
  written h := by
    unfold Reliable at h ⊢
    rw [hsilent.writes, hsilent.written]
    exact ⟨h, by simp⟩

/-! ### Reading -/

/-- Reading changes the script only, and the messages. -/
structure Fetched (s s' : Source) : Prop where
  view : s'.view = s.view
  silent : Silent s s'
  seqno : s'.seqno = s.seqno
  nonBlocking : s'.nonBlocking = s.nonBlocking

theorem Fetched.trans {s s' s'' : Source} (h : Fetched s s') (h' : Fetched s' s'') :
    Fetched s s'' :=
  ⟨h'.view.trans h.view, ⟨h'.silent.queue.trans h.silent.queue,
    h'.silent.writes.trans h.silent.writes, h'.silent.written.trans h.silent.written⟩,
    h'.seqno.trans h.seqno, h'.nonBlocking.trans h.nonBlocking⟩

/-- What a read of a byte leaves to be read. -/
def Left (s' : Source) (bytes : List UInt8) : Option (Option UInt8) → Prop
  | none => bytes = [] ∧ s'.input = []
  | some none => bytes = s'.input
  | some (some byte) => bytes = byte :: s'.input

theorem refill_spec : ∀ (reads : List Read) (s : Source), s.buffer = [] →
    Fetched s (s.refill reads).1 ∧
      Left (s.refill reads).1 (reads.flatMap Read.bytes) (s.refill reads).2 := by
  intro reads
  induction reads with
  | nil =>
      intro s hbuffer
      exact ⟨⟨rfl, ⟨rfl, rfl, rfl⟩, rfl, rfl⟩, rfl, by simp [refill, input, hbuffer]⟩
  | cons r reads ih =>
      intro s hbuffer
      have hsame : Fetched s { s with reads := reads } := ⟨rfl, ⟨rfl, rfl, rfl⟩, rfl, rfl⟩
      cases r with
      | data bytes fits =>
          cases bytes with
          | cons byte bytes => exact ⟨⟨rfl, ⟨rfl, rfl, rfl⟩, rfl, rfl⟩, rfl⟩
          | nil =>
              unfold refill
              split_ifs with hblocking
              · refine ⟨hsame, ?_⟩
                change _ = s.buffer ++ _
                rw [hbuffer]
                rfl
              · exact ih s hbuffer
      | again =>
          refine ⟨hsame, ?_⟩
          change _ = s.buffer ++ _
          rw [hbuffer]
          rfl
      | interrupted => exact ih s hbuffer
      | failed =>
          obtain ⟨hfetched, hleft⟩ := ih (s.message .unixError) hbuffer
          have hmessage : Fetched s (s.message .unixError) := ⟨rfl, ⟨rfl, rfl, rfl⟩, rfl, rfl⟩
          exact ⟨hmessage.trans hfetched, hleft⟩

theorem readByte_spec (s : Source) :
    Fetched s s.readByte.1 ∧ Left s.readByte.1 s.input s.readByte.2 := by
  unfold readByte input
  cases hbuffer : s.buffer with
  | cons byte rest => exact ⟨⟨rfl, ⟨rfl, rfl, rfl⟩, rfl, rfl⟩, rfl⟩
  | nil => exact refill_spec s.reads s hbuffer

/-! ### Processing a packet -/

theorem queue_sourceWrite (s : Source) (bytes : List UInt8) :
    (s.sourceWrite bytes).1.queue = s.queue := by
  unfold sourceWrite
  dsimp only
  split_ifs <;> rfl

theorem queue_pushProtocolPacket (s : Source) (type t : UInt8) (packet : List UInt8) :
    (s.pushProtocolPacket type packet).queue t =
      s.queue t ++ if type = t then [packet] else [] := by
  unfold pushProtocolPacket
  dsimp only
  by_cases h : type = t
  · subst h
    simp
  · simp [h, Function.update_of_ne (Ne.symm h)]

theorem queue_processPacket (s : Source) (packet : List UInt8) (t : UInt8) :
    (s.processPacket packet).queue t = s.queue t ++ received t [packet] := by
  rw [received_singleton]
  unfold processPacket protocol body
  by_cases h : packet.getD 0 0 = pPacketAck
  · rw [if_pos h, if_pos h, if_pos h, queue_pushProtocolPacket, writeFramedPacket,
      queue_sourceWrite]
  · rw [if_neg h, if_neg h, if_neg h, queue_pushProtocolPacket]

theorem written_processPacket {s : Source} (hs : s.Reliable) (packet : List UInt8) :
    (s.processPacket packet).Reliable ∧ (s.processPacket packet).written =
      s.written ++ (answer packet).flatMap Framed.bytes := by
  unfold processPacket answer
  split_ifs with h
  · obtain ⟨-, hr, hw⟩ := sourceWrite_of_reliable hs (framedPacket pAck (packet.getD 1 0) [])
    refine ⟨hr, ?_⟩
    rw [List.flatMap_singleton]
    exact hw
  · exact ⟨hs, by simp [pushProtocolPacket]⟩

theorem acks_answer (packet : List UInt8) :
    (answer packet).filter (fun f => decide (f.packetType = pAck)) = answer packet := by
  unfold answer
  split_ifs <;> simp

theorem ran_receive {s s' : Source} {byte : UInt8} (hread : s.readByte = (s', some (some byte))) :
    Ran s (s'.receive byte).1 [byte] ((next s.view byte).toList.flatMap answer) nothing ∧
      (s'.receive byte).2 = (next s.view byte).isSome := by
  obtain ⟨hfetched, hleft⟩ := s.readByte_spec
  rw [hread] at hfetched hleft
  obtain ⟨hview, hstep⟩ := s'.receive_step byte
  rw [hfetched.view] at hview
  have hinput : s.input = [byte] ++ (s'.receive byte).1.input := by
    rw [(quiet_receive s' byte).input_eq]
    exact hleft
  unfold Step at hstep
  rw [hfetched.view] at hstep
  have hpackets := packets_singleton s.view byte
  cases hnext : next s.view byte with
  | none =>
      rw [hnext] at hstep hpackets
      obtain ⟨hcontinue, hsilent⟩ := hstep
      refine ⟨Ran.of_input hinput hview hpackets ⟨hsilent.queue.trans hfetched.silent.queue,
        hsilent.writes.trans hfetched.silent.writes,
        hsilent.written.trans hfetched.silent.written⟩, hcontinue⟩
  | some packet =>
      rw [hnext] at hstep hpackets
      have hs' : ∀ t, (s'.receive byte).1.queue t = s.queue t ++ received t [packet] := by
        intro t
        rw [hstep, queue_processPacket, ← hfetched.silent.queue]
      refine ⟨⟨hinput, hview, fun t => ?_, ?_, fun hs => ?_⟩, by rw [hstep]; rfl⟩
      · rw [hs', hpackets]
        rfl
      · rw [hpackets, Option.toList_some, List.flatMap_singleton, acks_answer]
      · have hreliable : { s' with count := 0 }.Reliable := by
          unfold Reliable
          rw [hfetched.silent.writes]
          exact hs
        obtain ⟨hr, hw⟩ := written_processPacket hreliable packet
        rw [hstep, Option.toList_some, List.flatMap_singleton, ← hfetched.silent.written]
        exact ⟨hr, hw⟩

/-- What `read_and_process` does: it reads up to one packet, and blocks only when everything is
read. -/
structure Processed (s s' : Source) (r : Option Unit) (bytes : List UInt8) : Prop where
  ran : Ran s s' bytes ((packets s.view bytes).flatMap answer) nothing
  upto : (packets s.view bytes).length ≤ 1
  blocks : r = none → s'.input = [] ∧ packets s.view bytes = []
  seqno : s'.seqno = s.seqno
  nonBlocking : s'.nonBlocking = s.nonBlocking

theorem readAndProcess_spec (s : Source) :
    ∃ bytes, Processed s s.readAndProcess.1 s.readAndProcess.2 bytes := by
  induction s using readAndProcess.induct with
  | case1 s s' hr =>
      obtain ⟨hfetched, hleft⟩ := s.readByte_spec
      rw [hr] at hfetched hleft
      rw [readAndProcess_of_waiting hr]
      refine ⟨[], Ran.of_input ?_ hfetched.view rfl hfetched.silent, by simp, fun _ => ?_,
        hfetched.seqno, hfetched.nonBlocking⟩
      · rw [hleft.1, hleft.2]
        rfl
      · exact ⟨hleft.2, rfl⟩
  | case2 s s' hr =>
      obtain ⟨hfetched, hleft⟩ := s.readByte_spec
      rw [hr] at hfetched hleft
      rw [readAndProcess_of_none hr]
      exact ⟨[], Ran.of_input hleft hfetched.view rfl hfetched.silent, by simp, by simp,
        hfetched.seqno, hfetched.nonBlocking⟩
  | case3 s s' byte hr hdone =>
      obtain ⟨hran, hnext⟩ := ran_receive hr
      have hfetched := s.readByte_spec.1
      have hquiet := quiet_receive s' byte
      rw [hr] at hfetched
      rw [readAndProcess_of_byte hr, if_pos hdone]
      refine ⟨[byte], ?_, ?_, by simp, hquiet.seqno.trans hfetched.seqno,
        hquiet.nonBlocking.trans hfetched.nonBlocking⟩
      · rw [packets_singleton]
        exact hran
      · rw [packets_singleton]
        cases next s.view byte <;> simp
  | case4 s s' byte hr hdone ih =>
      obtain ⟨hran, hnext⟩ := ran_receive hr
      have hfetched := s.readByte_spec.1
      have hquiet := quiet_receive s' byte
      rw [hr] at hfetched
      have hnone : next s.view byte = none := by
        rw [← Option.not_isSome_iff_eq_none, ← hnext]
        exact hdone
      obtain ⟨bytes, hrest⟩ := ih
      have hpackets : packets s.view ([byte] ++ bytes) =
          packets (s'.receive byte).1.view bytes := by
        rw [packets_append, packets_singleton, hnone, hran.view]
        rfl
      rw [readAndProcess_of_byte hr, if_neg hdone]
      refine ⟨[byte] ++ bytes, ?_, ?_, ?_, ?_, ?_⟩
      · rw [hpackets]
        rw [hnone] at hran
        exact hran.trans hrest.ran
      · rw [hpackets]
        exact hrest.upto
      · rw [hpackets]
        exact hrest.blocks
      · rw [hrest.seqno, hquiet.seqno, hfetched.seqno]
      · rw [hrest.nonBlocking, hquiet.nonBlocking, hfetched.nonBlocking]

end Source

end IdcuIot.SerialSource
