import IdcuIot.SerialSource.Runs

/-! # serialsource: what the reads return

The packets of at most 123 bytes that `write_framed_packet` puts on a line are returned by
`read_serial_packet` in order, each once, whatever portions the line comes in
(`reads_deliver`).  Behind any noise, and from any receive state with no data packet queued, at most
one packet more is returned and at most the first frame is lost (`reads_resynchronise`). -/

namespace IdcuIot.SerialSource

open Stuffing Source

/-- The bytes of a frame that its CRC is taken of. -/
def Framed.plain (f : Framed) : List UInt8 := f.packetType :: f.firstByte :: f.packet

/-- The frame fits into `recv.packet`, with a byte to spare. -/
def Framed.Short (f : Framed) : Prop := f.packet.length ≤ 123

instance (f : Framed) : Decidable f.Short := by
  unfold Framed.Short
  infer_instance

/-- The frames that a receiver makes packets of. -/
def arriving (fs : List Framed) : List Framed := fs.filter (fun f => decide f.Short)

/-- The packet that a read returns for a frame. -/
def Framed.payload (f : Framed) : Option (List UInt8) :=
  if f.packetType = pPacketAck then some f.packet
  else if f.packetType = pPacketNoAck then some (f.firstByte :: f.packet)
  else none

/-- The frame that is written back for a frame. -/
def Framed.reply (f : Framed) : List Framed :=
  if f.packetType = pPacketAck then [⟨pAck, f.firstByte, []⟩] else []

/-- What the reads return of frames. -/
def delivered (fs : List Framed) : List (List UInt8) := (arriving fs).filterMap Framed.payload

theorem received_plain (fs : List Framed) :
    received pPacketNoAck (fs.map Framed.plain) = fs.filterMap Framed.payload := by
  induction fs with
  | nil => rfl
  | cons f fs ih =>
      have hdiff : ¬ pPacketNoAck = pPacketAck := by decide
      rw [List.map_cons, ← List.singleton_append, received_append, ih, received_singleton,
        List.filterMap_cons]
      unfold Framed.payload protocol body
      by_cases hack : f.packetType = pPacketAck
      · simp [Framed.plain, hack]
      · by_cases hno : f.packetType = pPacketNoAck
        · simp [Framed.plain, hno, hdiff]
        · simp [Framed.plain, hack, hno]

theorem answers_plain (fs : List Framed) :
    (fs.map Framed.plain).flatMap answer = fs.flatMap Framed.reply := by
  rw [List.flatMap_map]
  rfl

/-! ### The packets on a line -/

theorem bytes_eq_stream (fs : List Framed) :
    fs.flatMap Framed.bytes = line.stream (fs.map (fun f => content f.plain)) := by
  unfold Stuffing.stream
  rw [List.flatMap_map]
  congr 1
  funext f
  exact framedPacket_eq f.packetType f.firstByte f.packet

theorem fits_content_iff (f : Framed) : Fits 4 mtu (content f.plain) ↔ f.Short := by
  unfold Fits Framed.Short mtu
  rw [length_content]
  simp only [Framed.plain, List.length_cons]
  omega

theorem filterMap_checked (fs : List Framed) :
    ((fs.map (fun f => content f.plain)).filter (fun l => decide (Fits 4 mtu l))).filterMap checked =
      (arriving fs).map Framed.plain := by
  unfold arriving
  induction fs with
  | nil => rfl
  | cons f fs ih =>
      rw [List.map_cons, List.filter_cons, List.filter_cons]
      by_cases h : f.Short
      · rw [if_pos (by simpa using (fits_content_iff f).mpr h), if_pos (by simpa using h),
          List.filterMap_cons, checked_content, ih, List.map_cons]
      · rw [if_neg (by simpa using mt (fits_content_iff f).mp h), if_neg (by simpa using h), ih]

theorem packets_stream {st : State UInt8} (hst : st.Between) (fs : List Framed) :
    packets st (fs.flatMap Framed.bytes) = (arriving fs).map Framed.plain := by
  unfold packets
  rw [bytes_eq_stream, (line.feed_stream hst (by decide) (by decide) _).2, filterMap_checked]

theorem packets_stream_of_any (st : State UInt8) (f : Framed) (fs : List Framed) :
    packets st ((f :: fs).flatMap Framed.bytes) = (inHand 4 mtu st).filterMap checked ++
      (arriving (if Blocked mtu st then fs else f :: fs)).map Framed.plain := by
  unfold packets
  rw [bytes_eq_stream, List.map_cons,
    (line.feed_stream_of_any (by decide) (by decide) st _ _).2, List.filterMap_append,
    ← filterMap_checked]
  split_ifs <;> rfl

/-! ### Reads -/

namespace Source

/-- What the next reads return when the queue is empty. -/
def upcoming (s : Source) : List (List UInt8) := received pPacketNoAck (packets s.view s.input)

theorem upcoming_of_ran {s s' : Source} {bytes : List UInt8} {frames : List Framed}
    {out : UInt8 → List (List UInt8)} (h : Ran s s' bytes frames out) :
    s.upcoming = received pPacketNoAck (packets s.view bytes) ++ s'.upcoming := by
  unfold upcoming
  rw [h.input, packets_append, ← h.view, received_append]

theorem readSerialPacket_upcoming (s : Source) (hqueue : s.queue pPacketNoAck = []) :
    s.readSerialPacket.2 = s.upcoming.head?.map some ∧
      s.readSerialPacket.1.queue pPacketNoAck = [] ∧
      s.readSerialPacket.1.upcoming = s.upcoming.tail := by
  induction s using readSerialPacket.induct with
  | case1 s s' hr =>
      obtain ⟨bytes, hproc⟩ := s.readAndProcess_spec
      rw [hr] at hproc
      obtain ⟨hinput, hpackets⟩ := hproc.blocks rfl
      have hupcoming := upcoming_of_ran hproc.ran
      have hnext := hproc.ran.queue pPacketNoAck
      rw [hpackets, hqueue] at hnext
      have hempty : s'.upcoming = [] := by
        unfold upcoming
        rw [hinput]
        rfl
      rw [readSerialPacket_of_waiting hr, hupcoming, hpackets]
      exact ⟨by rw [hempty]; rfl, hnext.symm, by rw [hempty]; rfl⟩
  | case2 s s' hr packet hpop =>
      obtain ⟨bytes, hproc⟩ := s.readAndProcess_spec
      rw [hr] at hproc
      have hupcoming := upcoming_of_ran hproc.ran
      have hnext := hproc.ran.queue pPacketNoAck
      obtain ⟨hran, -, -⟩ := s'.pop_spec pPacketNoAck
      have hleft := hran.queue pPacketNoAck
      have hone := (length_received_le pPacketNoAck _).trans hproc.upto
      rw [hqueue] at hnext
      change received pPacketNoAck (packets s.view bytes) = s'.queue pPacketNoAck at hnext
      rw [hpop] at hleft
      change s'.queue pPacketNoAck ++ [] = [packet] ++ _ at hleft
      rw [List.append_nil] at hleft
      rw [hnext, hleft, List.length_append, List.length_singleton] at hone
      have hrest : (s'.popProtocolPacket pPacketNoAck).1.queue pPacketNoAck = [] :=
        List.eq_nil_of_length_eq_zero (by omega)
      have hpopped := upcoming_of_ran hran
      rw [packets_nil, received_nil, List.nil_append] at hpopped
      rw [readSerialPacket_of_done hr, hpop, hupcoming, hnext, hleft, hrest, hpopped]
      exact ⟨rfl, rfl, rfl⟩
  | case3 s s' hr hpop hnull => simp [serialSourceEmpty] at hnull
  | case4 s s' hr hpop hnull ih =>
      obtain ⟨bytes, hproc⟩ := s.readAndProcess_spec
      rw [hr] at hproc
      have hupcoming := upcoming_of_ran hproc.ran
      have hnext := hproc.ran.queue pPacketNoAck
      have hempty := ((s'.pop_spec pPacketNoAck).2.2 hpop).2
      rw [hqueue, hempty] at hnext
      change received pPacketNoAck (packets s.view bytes) = [] at hnext
      rw [readSerialPacket_of_done hr, hpop, hupcoming, hnext]
      exact ih hempty

end Source

/-- Reads one after the other return what is upcoming, and then block. -/
theorem run_reads (n : ℕ) (s : Source) (hqueue : s.queue pPacketNoAck = []) :
    (run (List.replicate n .read) s).2 = (s.upcoming.take n).map (fun p => .packet (some p)) ∧
      (s.upcoming.length < n → (run (List.replicate n .read) s).1.input = []) ∧
      ∃ bytes out, Took s (run (List.replicate n .read) s).1 bytes out := by
  induction n generalizing s with
  | zero => exact ⟨rfl, by simp, [], nothing, Ran.refl s, rfl⟩
  | succ n ih =>
      obtain ⟨hret, hqueue', hupcoming⟩ := s.readSerialPacket_upcoming hqueue
      obtain ⟨bytes, htook, hblocks, -⟩ := s.readSerialPacket_spec
      rw [List.replicate_succ]
      cases hs : s.upcoming with
      | nil =>
          rw [hs] at hret
          rw [run_cons_of_none (c := .read) (by simp [Call.perform, hret])]
          exact ⟨rfl, fun _ => hblocks hret, bytes, _, htook⟩
      | cons p ps =>
          rw [hs] at hret hupcoming
          rw [run_cons_of_some (c := .read) (r := .packet (some p)) (by simp [Call.perform, hret])]
          obtain ⟨hrest, hempty, bytes', out, htook'⟩ := ih s.readSerialPacket.1 hqueue'
          rw [hupcoming] at hrest hempty
          refine ⟨?_, fun h => hempty (by simpa using h), _, _, htook.trans htook'⟩
          change _ :: (run (List.replicate n .read) s.readSerialPacket.1).2 = _
          rw [hrest]
          rfl

/-- **Resynchronisation**: with no data packet queued, from any receive state and behind any noise,
at most one packet is returned that is neither in the noise nor in a frame, and only the first frame
may be lost: exactly when the receiver, at its first byte, expects the second half of an escaped
byte or is full. -/
theorem reads_resynchronise (s : Source) (hqueue : s.queue pPacketNoAck = []) (noise : List UInt8)
    (f : Framed) (fs : List Framed) (hinput : s.input = noise ++ (f :: fs).flatMap Framed.bytes) :
    ∃ spurious : List (List UInt8), spurious.length ≤ 1 ∧ ∀ n,
      (run (List.replicate n .read) s).2 =
        ((received pPacketNoAck (packets s.view noise) ++ spurious ++
          delivered (if Blocked mtu (after s.view noise) then fs else f :: fs)).take n).map
            (fun p => .packet (some p)) := by
  refine ⟨received pPacketNoAck ((inHand 4 mtu (after s.view noise)).filterMap checked), ?_,
    fun n => ?_⟩
  · exact ((length_received_le _ _).trans (List.length_filterMap_le _ _)).trans (length_inHand_le _)
  · rw [(run_reads n s hqueue).1, upcoming, hinput, packets_append, packets_stream_of_any,
      received_append, received_append, received_plain, List.append_assoc]
    rfl

/-- Behind half an escaped byte the first frame is lost. -/
theorem reads_resynchronise_escape :
    ∃ spurious : List (List UInt8), spurious.length ≤ 1 ∧ ∀ n,
      (run (List.replicate n .read) (opened true
          [.data ([0x7E, 1, 0x7D] ++ framedPacket pPacketAck 38 [5] ++ framedPacket pPacketAck 39 [6])
            (by decide +kernel)])).2 =
        (([] ++ spurious ++ [[6]]).take n).map (fun p => .packet (some p)) := by
  obtain ⟨spurious, hlen, hret⟩ := reads_resynchronise (opened true
    [.data ([0x7E, 1, 0x7D] ++ framedPacket pPacketAck 38 [5] ++ framedPacket pPacketAck 39 [6])
      (by decide +kernel)]) rfl [0x7E, 1, 0x7D] ⟨pPacketAck, 38, [5]⟩ [⟨pPacketAck, 39, [6]⟩]
    (by decide +kernel)
  exact ⟨spurious, hlen, hret⟩

/-! ### Blocking -/

namespace Source

/-- In blocking mode, and without `EAGAIN`, `read_byte` returns bytes only. -/
structure Blocking (s : Source) : Prop where
  mode : s.nonBlocking = false
  again : Read.again ∉ s.reads

theorem refill_of_blocking : ∀ (reads : List Read) (s : Source), s.nonBlocking = false →
    Read.again ∉ reads → (s.refill reads).2 ≠ some none ∧
      Read.again ∉ (s.refill reads).1.reads := by
  intro reads
  induction reads with
  | nil => exact fun s _ _ => ⟨by simp [refill], by simp [refill]⟩
  | cons r reads ih =>
      intro s hmode hagain
      obtain ⟨hr, hreads⟩ := not_or.mp (mt List.mem_cons.mpr hagain)
      cases r with
      | data bytes fits =>
          cases bytes with
          | cons byte bytes => exact ⟨by simp [refill], hreads⟩
          | nil =>
              rw [refill, if_neg (by simp [hmode])]
              exact ih s hmode hreads
      | again => exact absurd rfl hr
      | interrupted => exact ih s hmode hreads
      | failed => exact ih (s.message .unixError) hmode hreads

theorem readByte_of_blocking {s : Source} (h : Blocking s) :
    s.readByte.2 ≠ some none ∧ Blocking s.readByte.1 := by
  have hmode := s.readByte_spec.1.nonBlocking.trans h.mode
  have hread : s.readByte.2 ≠ some none ∧ Read.again ∉ s.readByte.1.reads := by
    unfold readByte
    cases s.buffer with
    | cons byte rest => exact ⟨by simp, h.again⟩
    | nil => exact refill_of_blocking s.reads s h.mode h.again
  exact ⟨hread.1, hmode, hread.2⟩

theorem readAndProcess_of_blocking {s : Source} (h : Blocking s)
    (hsilent : packets s.view s.input = []) : s.readAndProcess.2 = none := by
  induction s using readAndProcess.induct with
  | case1 s s' hr => rw [readAndProcess_of_waiting hr]
  | case2 s s' hr =>
      have hread := (readByte_of_blocking h).1
      rw [hr] at hread
      exact absurd rfl hread
  | case3 s s' byte hr hdone =>
      obtain ⟨hran, hnext⟩ := ran_receive hr
      rw [hran.input, packets_append, packets_singleton, List.append_eq_nil_iff] at hsilent
      rw [hdone] at hnext
      cases hbyte : next s.view byte with
      | none => simp [hbyte] at hnext
      | some packet => simp [hbyte] at hsilent
  | case4 s s' byte hr hdone ih =>
      obtain ⟨hran, hnext⟩ := ran_receive hr
      have hquiet := quiet_receive s' byte
      have hblocking := (readByte_of_blocking h).2
      rw [hr] at hblocking
      rw [hran.input, packets_append, List.append_eq_nil_iff] at hsilent
      rw [readAndProcess_of_byte hr, if_neg hdone]
      refine ih ⟨hquiet.nonBlocking.trans hblocking.mode, ?_⟩ ?_
      · rw [hquiet.reads]
        exact hblocking.again
      · rw [hran.view]
        exact hsilent.2

end Source

/-- **In blocking mode** nothing returns while no packet comes in and no `read` gives `EAGAIN`: no
read, though packets may wait in the queue, and no write that does not fail, though its deadline may
be over. -/
theorem blocking_calls_wait (s : Source) (h : Blocking s) (hsilent : packets s.view s.input = []) :
    s.readSerialPacket.2 = none ∧
      (s.Reliable → ∀ packet, (s.writeSerialPacket packet).2 = none) := by
  constructor
  · have hnone := readAndProcess_of_blocking h hsilent
    rw [readSerialPacket_of_waiting (Prod.ext rfl hnone)]
  · intro hs packet
    obtain ⟨hran, -⟩ := s.ran_writeFramedPacket packet
    have hquiet := quiet_sourceWrite { s with seqno := s.seqno + 1 }
      (framedPacket pPacketAck (s.seqno + 1) packet)
    have hok : ({ s with seqno := s.seqno + 1 }.writeFramedPacket pPacketAck (s.seqno + 1)
        packet).2 = true :=
      (sourceWrite_of_reliable (s := { s with seqno := s.seqno + 1 }) hs _).1
    have hblocking : Blocking ({ s with seqno := s.seqno + 1 }.writeFramedPacket pPacketAck
        (s.seqno + 1) packet).1 := by
      refine ⟨hquiet.nonBlocking.trans h.mode, ?_⟩
      rw [writeFramedPacket, hquiet.reads]
      exact h.again
    have hinput := hran.input
    rw [List.nil_append] at hinput
    have hnone := readAndProcess_of_blocking hblocking
      (by rw [hran.view, after_nil, ← hinput]; exact hsilent)
    unfold writeSerialPacket
    dsimp only
    rw [if_pos hok, awaitAck_of_waiting (Prod.ext rfl hnone)]

theorem blocking_calls_wait_queued :
    ({ opened false [] with queue := fun _ => [[1]] }.readSerialPacket).2 = none :=
  (blocking_calls_wait { opened false [] with queue := fun _ => [[1]] } ⟨rfl, by simp [opened]⟩
    rfl).1

end IdcuIot.SerialSource
