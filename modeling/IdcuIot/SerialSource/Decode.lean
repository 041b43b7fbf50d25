import IdcuIot.SerialSource.Source

/-! # serialsource: the loop of `read_and_process` as a receiver of stuffed frames

The bytes of `recv` are a state of the receiver of `Lib.Stuffing` (`view`): one turn of the loop is
one step of it (`view_receive`), and a packet is processed exactly when the step gives out a frame
whose last two bytes are the CRC of those before them (`receive_of_packet`, `receive_of_none`). -/

namespace IdcuIot.SerialSource

open Stuffing

/-- The packet in a frame, if the CRC behind it is right. -/
def checked (frame : List UInt8) : Option (List UInt8) :=
  if frame = content (frame.take (frame.length - 2)) then some (frame.take (frame.length - 2))
  else none

theorem checked_content (packet : List UInt8) : checked (content packet) = some packet := by
  have htake : (content packet).take ((content packet).length - 2) = packet := by
    rw [length_content, Nat.add_sub_cancel, content, List.take_left]
  unfold checked
  rw [htake, if_pos rfl]

/-- The packets in a stream of bytes. -/
def packets (st : State UInt8) (bytes : List UInt8) : List (List UInt8) :=
  (line.feed 4 mtu st bytes).2.filterMap checked

/-- The state of the receiver behind a stream of bytes. -/
def after (st : State UInt8) (bytes : List UInt8) : State UInt8 := (line.feed 4 mtu st bytes).1

@[simp] theorem packets_nil (st : State UInt8) : packets st [] = [] := rfl

@[simp] theorem after_nil (st : State UInt8) : after st [] = st := rfl

theorem packets_append (st : State UInt8) (bytes bytes' : List UInt8) :
    packets st (bytes ++ bytes') = packets st bytes ++ packets (after st bytes) bytes' := by
  unfold packets after
  rw [line.feed_append, List.filterMap_append]

theorem after_append (st : State UInt8) (bytes bytes' : List UInt8) :
    after st (bytes ++ bytes') = after (after st bytes) bytes' := by
  unfold after
  rw [line.feed_append]

/-- The packet that the next byte completes. -/
def next (st : State UInt8) (byte : UInt8) : Option (List UInt8) :=
  (line.step 4 mtu st byte).2.bind checked

theorem packets_singleton (st : State UInt8) (byte : UInt8) :
    packets st [byte] = (next st byte).toList := by
  unfold packets next
  rw [feed_cons, feed_nil, List.append_nil]
  cases (line.step 4 mtu st byte).2 with
  | none => rfl
  | some frame =>
      simp only [Option.toList_some, List.filterMap_cons, List.filterMap_nil, Option.bind_some]
      cases checked frame <;> rfl

/-! ### The CRC at the end of a frame -/

theorem crcBytes_crcOf (low high : UInt8) : crcBytes (crcOf low high) = [low, high] := by
  have hlow : (crcOf low high).toUInt8 = low := by
    apply UInt8.toBitVec_inj.mp
    apply BitVec.eq_of_getLsbD_eq
    intro i hi
    simp only [crcOf, UInt16.toBitVec_toUInt8, UInt16.toBitVec_or, UInt8.toBitVec_toUInt16,
      UInt16.toBitVec_shiftLeft]
    interval_cases i <;> simp
  have hhigh : (crcOf low high >>> 8).toUInt8 = high := by
    apply UInt8.toBitVec_inj.mp
    apply BitVec.eq_of_getLsbD_eq
    intro i hi
    simp only [crcOf, UInt16.toBitVec_toUInt8, UInt16.toBitVec_or, UInt8.toBitVec_toUInt16,
      UInt16.toBitVec_shiftLeft, UInt16.toBitVec_shiftRight]
    interval_cases i <;> simp
  unfold crcBytes
  rw [hlow, hhigh]

/-- The comparison of `read_and_process` is the one of `checked`. -/
theorem eq_content_iff {packet : List UInt8} {low high : UInt8} :
    packet ++ [low, high] = content packet ↔ crcOf low high = crcPacket packet := by
  unfold content
  rw [List.append_cancel_left_eq]
  constructor
  · intro h
    obtain ⟨hlow, hhigh⟩ := List.cons_eq_cons.mp h
    obtain ⟨hhigh, -⟩ := List.cons_eq_cons.mp hhigh
    rw [hlow, hhigh, crcOf_bytes]
  · intro h
    rw [← h, crcBytes_crcOf]

namespace Source

/-- The receiver's state in `recv`. -/
def view (s : Source) : State UInt8 :=
  if s.inSync then .inside (s.packet.toList.take s.count) s.escaped else .lost

/-- Nothing is queued or written from `s` to `s'`. -/
structure Silent (s s' : Source) : Prop where
  queue : s'.queue = s.queue
  writes : s'.writes = s.writes
  written : s'.written = s.written

theorem held_keep (s : Source) (byte : UInt8) (h : s.count < mtu) :
    (s.keep byte h).packet.toList.take (s.keep byte h).count =
      s.packet.toList.take s.count ++ [byte] := by
  have hlen : s.count < (s.packet.set s.count byte h).toList.length := by simpa using h
  change (s.packet.set s.count byte h).toList.take (s.count + 1) = _
  have htake : (s.packet.set s.count byte h).toList.take s.count = s.packet.toList.take s.count := by
    rw [Vector.toList_set, List.take_set_of_le (Nat.le_refl _)]
  rw [List.take_succ_eq_append_getElem hlen, htake]
  simp

theorem view_keep (s : Source) (byte : UInt8) (h : s.count < mtu) (hsync : s.inSync = true)
    (hescaped : s.escaped = false) :
    (s.keep byte h).view = .inside (s.packet.toList.take s.count ++ [byte]) false := by
  rw [← s.held_keep byte h]
  simp [view, keep, hsync, hescaped]

theorem length_held (s : Source) (h : s.count ≤ mtu) :
    (s.packet.toList.take s.count).length = s.count := by
  simp [h]

theorem held_eq (s : Source) (h : s.count < mtu) (h4 : ¬ s.count < 4) :
    s.packet.toList.take s.count = s.packet.toList.take (s.count - 2) ++
      [s.packet[s.count - 2], s.packet[s.count - 1]] := by
  have hlen : s.packet.toList.length = mtu := by simp
  conv_lhs => rw [show s.count = s.count - 2 + 1 + 1 by omega]
  rw [List.take_succ_eq_append_getElem (by omega), List.take_succ_eq_append_getElem (by omega),
    List.append_assoc]
  simp only [Vector.getElem_toList, List.singleton_append]
  congr 4
  omega

theorem view_sourceWrite (s : Source) (bytes : List UInt8) :
    (s.sourceWrite bytes).1.view = s.view := by
  unfold sourceWrite
  dsimp only
  split_ifs <;> rfl

theorem view_processPacket (s : Source) (packet : List UInt8) :
    (s.processPacket packet).view = s.view := by
  unfold processPacket
  split_ifs
  · exact s.view_sourceWrite _
  · rfl

/-- Nothing is processed with this byte, or the packet that the receiver completes. -/
def Step (s : Source) (byte : UInt8) : Prop :=
  match next s.view byte with
  | none => (s.receive byte).2 = false ∧ Silent s (s.receive byte).1
  | some packet => s.receive byte = ({ s with count := 0 }.processPacket packet, true)

theorem view_endFrame (s : Source) (h : s.count < mtu) (hsync : s.inSync = true)
    (hescaped : s.escaped = false) : (s.endFrame h).1.view = .idle := by
  have hzero : { s with count := 0 }.view = .idle := by simp [view, hsync, hescaped]
  unfold endFrame
  dsimp only
  split_ifs
  · exact hzero
  · rw [view_processPacket, hzero]
  · exact hzero

theorem endFrame_eq (s : Source) (h : s.count < mtu) :
    s.endFrame h = match (if (s.packet.toList.take s.count).length < 4 then none
        else checked (s.packet.toList.take s.count)) with
      | some packet => ({ s with count := 0 }.processPacket packet, true)
      | none => (if s.count < 4 then { s with count := 0 } else
          { s with count := 0 }.message .badCrc, false) := by
  rw [s.length_held (Nat.le_of_lt h)]
  unfold endFrame
  by_cases h4 : s.count < 4
  · simp [h4]
  · have hframe := s.held_eq h h4
    have hlen : (s.packet.toList.take (s.count - 2)).length = s.count - 2 := by
      simp
      omega
    have htake : (s.packet.toList.take s.count).take
        ((s.packet.toList.take s.count).length - 2) = s.packet.toList.take (s.count - 2) := by
      rw [s.length_held (Nat.le_of_lt h), List.take_take, Nat.min_eq_left (Nat.sub_le _ _)]
    have hcrc : s.packet.toList.take s.count = content (s.packet.toList.take (s.count - 2)) ↔
        crcOf (s.packet[s.count - 2]) (s.packet[s.count - 1]) =
          crcPacket (s.packet.toList.take (s.count - 2)) := by
      rw [← eq_content_iff, ← hframe]
    simp only [h4, if_false, checked, htake, hcrc]
    split_ifs <;> rfl

/-! ### One turn of the loop -/

theorem receive_of_not_inSync {s : Source} (hsync : s.inSync = false) (byte : UInt8) :
    (s.receive byte).1.view = (line.step 4 mtu s.view byte).1 ∧ s.Step byte := by
  have hview : s.view = .lost := by simp [view, hsync]
  unfold Step next
  rw [hview]
  by_cases hbyte : byte = syncByte
  · simp [receive, hsync, step, hbyte, line, view]
    exact ⟨rfl, rfl, rfl⟩
  · simp [receive, hsync, hview, step, hbyte, line]
    exact ⟨rfl, rfl, rfl⟩

variable {s : Source} (hsync : s.inSync = true)

include hsync

theorem view_of_inSync : s.view = .inside (s.packet.toList.take s.count) s.escaped := by
  simp [view, hsync]

theorem receive_of_full (hroom : mtu ≤ s.count) (byte : UInt8) :
    (s.receive byte).1.view = (line.step 4 mtu s.view byte).1 ∧ s.Step byte := by
  unfold Step next
  rw [view_of_inSync hsync]
  simp [receive, hsync, hroom, step]
  exact ⟨rfl, rfl, rfl, rfl⟩

theorem receive_of_escaped (hroom : s.count < mtu) (hescaped : s.escaped = true) (byte : UInt8) :
    (s.receive byte).1.view = (line.step 4 mtu s.view byte).1 ∧ s.Step byte := by
  have hnot : ¬ mtu ≤ s.count := Nat.not_le.mpr hroom
  unfold Step next
  rw [view_of_inSync hsync]
  by_cases hbyte : byte = syncByte
  · simp [receive, hsync, hnot, hescaped, step, hbyte, line, view]
    exact ⟨rfl, rfl, rfl⟩
  · simp [receive, hsync, hnot, hescaped, step, hbyte, line]
    exact ⟨view_keep { s with inSync := true, escaped := false } _ hroom rfl rfl, rfl, rfl, rfl⟩

theorem receive_of_border (hroom : s.count < mtu) (hescaped : s.escaped = false) :
    (s.receive syncByte).1.view = (line.step 4 mtu s.view syncByte).1 ∧ s.Step syncByte := by
  have hnot : ¬ mtu ≤ s.count := Nat.not_le.mpr hroom
  have hdiff : ¬ syncByte = escapeByte := by decide
  have hreceive : s.receive syncByte = s.endFrame hroom := by
    simp [receive, hsync, hnot, hescaped, hdiff]
  have hstep : line.step 4 mtu (.inside (s.packet.toList.take s.count) false) syncByte =
      (.idle, if (s.packet.toList.take s.count).length < 4 then none
        else some (s.packet.toList.take s.count)) := by
    simp [step, hnot, line, hdiff]
  have hbind : (if (s.packet.toList.take s.count).length < 4 then none
      else some (s.packet.toList.take s.count)).bind checked =
        if (s.packet.toList.take s.count).length < 4 then none
        else checked (s.packet.toList.take s.count) := by
    split_ifs <;> rfl
  have hview := view_of_inSync hsync
  have hend := s.endFrame_eq hroom
  rw [hescaped] at hview
  unfold Step next
  rw [hreceive, hview, hstep, hbind]
  refine ⟨s.view_endFrame hroom hsync hescaped, ?_⟩
  revert hend
  generalize (if (s.packet.toList.take s.count).length < 4 then none
    else checked (s.packet.toList.take s.count)) = processed
  intro hend
  cases processed with
  | none =>
      rw [hend]
      exact ⟨rfl, by split_ifs <;> exact ⟨rfl, rfl, rfl⟩⟩
  | some packet => exact hend

theorem receive_of_plain (hroom : s.count < mtu) (hescaped : s.escaped = false) (byte : UInt8) :
    (s.receive byte).1.view = (line.step 4 mtu s.view byte).1 ∧ s.Step byte := by
  by_cases hbyte : byte = syncByte
  · rw [hbyte]
    exact receive_of_border hsync hroom hescaped
  · have hnot : ¬ mtu ≤ s.count := Nat.not_le.mpr hroom
    unfold Step next
    rw [view_of_inSync hsync]
    by_cases hesc : byte = escapeByte
    · simp [receive, hsync, hnot, hescaped, step, hesc, line, view]
      exact ⟨rfl, rfl, rfl⟩
    · simp [receive, hsync, hnot, hescaped, step, hesc, hbyte, line]
      exact ⟨s.view_keep byte hroom hsync hescaped, rfl, rfl, rfl⟩

omit hsync

/-- **One turn of the loop is one step of the receiver.** -/
theorem receive_step (s : Source) (byte : UInt8) :
    (s.receive byte).1.view = (line.step 4 mtu s.view byte).1 ∧ s.Step byte := by
  cases hsync : s.inSync with
  | false => exact receive_of_not_inSync hsync byte
  | true =>
      rcases Nat.lt_or_ge s.count mtu with hroom | hroom
      · cases hescaped : s.escaped with
        | true => exact receive_of_escaped hsync hroom hescaped byte
        | false => exact receive_of_plain hsync hroom hescaped byte
      · exact receive_of_full hsync hroom byte

end Source

end IdcuIot.SerialSource
