import IdcuIot.Lib.PrefixCode
import IdcuIot.SfSource.Stream

/-! # sfsource: packets between a serial forwarder and its clients

Both ends of a connection send `T!` and the four bytes of their `platform`, and then packets, each
behind one byte with its length; of a packet of 256 bytes or more only `length % 256` bytes are
sent.  `received_of_session` is about two programs that use the two ends: whatever portions,
interruptions and failures they meet, one gets from `read_sf_packet` what the other gave to
`write_sf_packet`. -/

namespace IdcuIot.SfSource

open PrefixCode Reassembly

/-! ### Packets -/

/-- `read_sf_packet`: the packet, or `none` for `NULL`. -/
def readSfPacket (script : List Incoming) : Option (List UInt8) × List Incoming :=
  match readFull script 1 with
  | (some [l], script) => readFull script l.toNat
  | (_, script) => (none, script)

/-- `write_sf_packet`. -/
def writeSfPacket (room : List Room) (packet : List UInt8) : Written :=
  let l := UInt8.ofNat packet.length
  let first := safewrite room [l]
  if first.actual ≠ 1 then ⟨-1, first.sent, first.room⟩
  else
    let second := safewrite first.room (packet.take l.toNat)
    if second.actual ≠ l.toNat then ⟨-1, first.sent ++ second.sent, second.room⟩
    else ⟨0, first.sent ++ second.sent, second.room⟩

/-- What is left of a packet when its length is an `unsigned char`. -/
def cut (packet : List UInt8) : List UInt8 := packet.take (packet.length % 256)

/-- The bytes of a packet on a connection. -/
def frame (packet : List UInt8) : List UInt8 := UInt8.ofNat packet.length :: cut packet

@[simp] theorem length_cut (packet : List UInt8) : (cut packet).length = packet.length % 256 := by
  rw [cut, List.length_take, Nat.min_eq_left (Nat.mod_le _ _)]

/-- What `read_sf_packet` makes of the bytes that come. -/
def packetOf : List UInt8 → Option (List UInt8 × List UInt8)
  | [] => none
  | l :: rest => if l.toNat ≤ rest.length then some (rest.take l.toNat, rest.drop l.toNat) else none

theorem reads_packetOf : Reads packetOf frame cut where
  whole packet rest := by
    have hl : (UInt8.ofNat packet.length).toNat = (cut packet).length := by
      rw [UInt8.toNat_ofNat', length_cut]
    rw [frame, List.cons_append, packetOf, hl, if_pos (by rw [List.length_append]; omega),
      List.take_left, List.drop_left]
  partly packet l hl hlt := by
    cases l with
    | nil => rfl
    | cons b rest =>
        obtain ⟨rfl, hrest⟩ := List.cons_prefix_cons.mp hl
        rw [frame, List.length_cons, List.length_cons, length_cut] at hlt
        rw [packetOf, if_neg (by rw [UInt8.toNat_ofNat']; omega)]
  nil := rfl

theorem readFull_of_le {script : List Incoming} {count : ℕ}
    (h : count ≤ (arriving script).length) :
    ∃ script', readFull script count = (some ((arriving script).take count), script') ∧
      arriving script' = (arriving script).drop count := by
  obtain ⟨script', hread, hleft⟩ := saferead_of_le script count h
  refine ⟨script', ?_, hleft⟩
  rw [readFull, hread]
  simp [Nat.min_eq_left h]

theorem readFull_of_lt {script : List Incoming} {count : ℕ}
    (h : (arriving script).length < count) : (readFull script count).1 = none := by
  rw [readFull, Option.filter_eq_none_iff]
  intro l hl
  have := length_of_saferead_of_lt script count h l hl
  simp only [decide_eq_true_eq]
  omega

theorem readSfPacket_spec (script : List Incoming) :
    (packetOf (arriving script) = none ∧ (readSfPacket script).1 = none) ∨
      ∃ packet script', packetOf (arriving script) = some (packet, arriving script') ∧
        readSfPacket script = (some packet, script') := by
  cases harr : arriving script with
  | nil =>
      left
      have hread : (readFull script 1).1 = none :=
        readFull_of_lt (by rw [harr]; exact Nat.zero_lt_one)
      refine ⟨rfl, ?_⟩
      rw [readSfPacket]
      split
      · rename_i heq
        rw [heq] at hread
        cases hread
      · rfl
  | cons l rest =>
      obtain ⟨script₁, hread, hleft⟩ :=
        readFull_of_le (show 1 ≤ (arriving script).length by rw [harr]; simp)
      rw [harr] at hread hleft
      have hrest : arriving script₁ = rest := hleft
      rw [readSfPacket, hread, packetOf]
      by_cases hle : l.toNat ≤ rest.length
      · obtain ⟨script₂, hread₂, hleft₂⟩ := readFull_of_le (hrest ▸ hle)
        right
        rw [hrest] at hread₂ hleft₂
        exact ⟨rest.take l.toNat, script₂, by rw [if_pos hle, hleft₂], hread₂⟩
      · left
        exact ⟨if_neg hle, readFull_of_lt (by rw [hrest]; omega)⟩

/-- `write_sf_packet` sends the whole frame, or it fails with a part that is not all of it. -/
theorem writeSfPacket_cases (room : List Room) (packet : List UInt8) :
    ((writeSfPacket room packet).actual = 0 ∧ (writeSfPacket room packet).sent = frame packet) ∨
      ((writeSfPacket room packet).actual = -1 ∧
        (writeSfPacket room packet).sent <+: frame packet ∧
        (writeSfPacket room packet).sent.length < (frame packet).length) := by
  have hl : (UInt8.ofNat packet.length).toNat = packet.length % 256 := UInt8.toNat_ofNat'
  have hframe : frame packet =
    [UInt8.ofNat packet.length] ++ packet.take (UInt8.ofNat packet.length).toNat := by
    rw [hl]
    rfl
  have hcut : (packet.take (UInt8.ofNat packet.length).toNat).length =
      (UInt8.ofNat packet.length).toNat := by
    rw [hl]
    exact length_cut packet
  rw [writeSfPacket]
  dsimp only
  rcases safewrite_cases room [UInt8.ofNat packet.length] with
    ⟨hactual, hsent⟩ | ⟨hactual, hsent, hlt⟩
  · rw [if_neg (by rw [hactual]; simp)]
    rcases safewrite_cases (safewrite room [UInt8.ofNat packet.length]).room
      (packet.take (UInt8.ofNat packet.length).toNat) with
      ⟨hactual₂, hsent₂⟩ | ⟨hactual₂, hsent₂, hlt₂⟩
    · left
      rw [if_neg (by rw [hactual₂, hcut]; simp)]
      exact ⟨rfl, by rw [hsent, hsent₂, hframe]⟩
    · right
      rw [if_pos (by rw [hactual₂]; omega)]
      refine ⟨rfl, ?_, ?_⟩
      · rw [hsent, hframe]
        exact (List.prefix_append_right_inj _).mpr hsent₂
      · rw [hsent, hframe, List.length_append, List.length_append]
        omega
  · right
    rw [if_pos (by rw [hactual]; decide)]
    refine ⟨rfl, ?_, ?_⟩
    · rw [hframe]
      exact hsent.trans (List.prefix_append _ _)
    · rw [hframe, List.length_append]
      exact Nat.lt_add_right _ hlt

/-! ### Several packets -/

/-- Reading up to `n` packets, until `read_sf_packet` gives `NULL`. -/
def readSfPackets : ℕ → List Incoming → List (List UInt8)
  | 0, _ => []
  | n + 1, script =>
      match readSfPacket script with
      | (none, _) => []
      | (some packet, script) => packet :: readSfPackets n script

/-- How far writing packets came: how many of them were written, and all bytes that were sent. -/
structure Progress where
  accepted : ℕ
  sent : List UInt8
deriving DecidableEq, Repr

/-- Writing packets, until `write_sf_packet` fails. -/
def writeSfPackets : List Room → List (List UInt8) → Progress
  | _, [] => ⟨0, []⟩
  | room, packet :: packets =>
      let w := writeSfPacket room packet
      if w.actual < 0 then ⟨0, w.sent⟩
      else
        let rest := writeSfPackets w.room packets
        ⟨rest.accepted + 1, w.sent ++ rest.sent⟩

theorem readSfPackets_eq : ∀ (n : ℕ) (script : List Incoming),
    readSfPackets n script = readMany packetOf n (arriving script)
  | 0, _ => rfl
  | n + 1, script => by
      rw [readSfPackets, readMany]
      rcases readSfPacket_spec script with ⟨hnone, hread⟩ | ⟨packet, script', hsome, hread⟩
      · rw [hnone]
        split
        · rfl
        · rename_i heq
          rw [heq] at hread
          cases hread
      · rw [hsome, hread]
        exact congrArg _ (readSfPackets_eq n script')

/-- The bytes sent are the frames of the packets that were written, and a part of the next. -/
theorem writeSfPackets_spec : ∀ (room : List Room) (packets : List (List UInt8)),
    (writeSfPackets room packets).sent <+: stream frame packets ∧
      arrived frame packets (writeSfPackets room packets).sent.length =
        (writeSfPackets room packets).accepted
  | _, [] => ⟨List.prefix_rfl, rfl⟩
  | room, packet :: packets => by
      rw [writeSfPackets, stream_cons]
      dsimp only
      rcases writeSfPacket_cases room packet with ⟨hactual, hsent⟩ | ⟨hactual, hsent, hlt⟩
      · obtain ⟨ih, hih⟩ := writeSfPackets_spec (writeSfPacket room packet).room packets
        rw [if_neg (by rw [hactual]; decide)]
        dsimp only
        rw [hsent]
        refine ⟨(List.prefix_append_right_inj _).mpr ih, ?_⟩
        rw [List.length_append, arrived, if_pos (Nat.le_add_right _ _), Nat.add_sub_cancel_left,
          hih]
      · rw [if_pos (by rw [hactual]; decide)]
        exact ⟨hsent.trans (List.prefix_append _ _), by rw [arrived, if_neg (Nat.not_le.mpr hlt)]⟩

end IdcuIot.SfSource
