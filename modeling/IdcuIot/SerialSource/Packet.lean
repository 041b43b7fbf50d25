import IdcuIot.Lib.Stuffing
import Mathlib.Tactic

/-! # serialsource: frames on the mote serial line

`write_framed_packet` sends a packet type, a first byte, the packet's bytes and their CRC, low
byte first, between two `SYNC_BYTE`s; the escaper puts `ESCAPE_BYTE` in front of the two special
bytes and changes them by `0x20`.  What it makes is the stuffed frame of `Lib.Stuffing`
(`framedPacket_eq`), and it stays within the room that `init_escaper` asks for
(`length_framedPacket_le`). -/

namespace IdcuIot.SerialSource

/-- `MTU`, the room for a received frame. -/
def mtu : ℕ := 128

def syncByte : UInt8 := 0x7E

def escapeByte : UInt8 := 0x7D

def pAck : UInt8 := 64

def pPacketAck : UInt8 := 65

def pPacketNoAck : UInt8 := 66

/-! ### The CRC -/

/-- One turn of the loop in `crc_byte`. -/
def crcBit (crc : UInt16) : UInt16 :=
  if crc &&& 0x8000 ≠ 0 then (crc <<< 1) ^^^ 0x1021 else crc <<< 1

def crcByte (crc : UInt16) (b : UInt8) : UInt16 := crcBit^[8] (crc ^^^ (b.toUInt16 <<< 8))

def crcPacket (data : List UInt8) : UInt16 := data.foldl crcByte 0

/-- The check value of the polynomial 1021 with an empty register. -/
example : crcPacket [0x31, 0x32, 0x33, 0x34, 0x35, 0x36, 0x37, 0x38, 0x39] = 0x31C3 := by
  decide +kernel

/-- A CRC as it is sent. -/
def crcBytes (crc : UInt16) : List UInt8 := [crc.toUInt8, (crc >>> 8).toUInt8]

/-- A CRC as it is read from two bytes. -/
def crcOf (low high : UInt8) : UInt16 := low.toUInt16 ||| (high.toUInt16 <<< 8)

theorem crcOf_bytes (crc : UInt16) : crcOf crc.toUInt8 (crc >>> 8).toUInt8 = crc := by
  apply UInt16.toBitVec_inj.mp
  apply BitVec.eq_of_getLsbD_eq
  intro i hi
  simp only [crcOf, UInt16.toBitVec_or, UInt8.toBitVec_toUInt16, UInt16.toBitVec_toUInt8,
    UInt16.toBitVec_shiftLeft, UInt16.toBitVec_shiftRight, BitVec.getLsbD_or]
  interval_cases i <;> simp

/-! ### The escaper -/

/-- `send.crc` and what stands in `send.escaped` up to `send.escapeptr`. -/
structure Escaper where
  crc : UInt16
  escaped : List UInt8

namespace Escaper

/-- `init_escaper`. -/
def init : Escaper := ⟨0, [syncByte]⟩

/-- `escape_byte`. -/
def escapeByte (e : Escaper) (b : UInt8) : Escaper :=
  ⟨crcByte e.crc b,
    if b = syncByte ∨ b = SerialSource.escapeByte then
      e.escaped ++ [SerialSource.escapeByte, b ^^^ 0x20]
    else e.escaped ++ [b]⟩

/-- `terminate_escaper`. -/
def terminate (e : Escaper) : Escaper := { e with escaped := e.escaped ++ [syncByte] }

end Escaper

/-- What `write_framed_packet` hands to `source_write`. -/
def framedPacket (packetType firstByte : UInt8) (packet : List UInt8) : List UInt8 :=
  let e := packet.foldl Escaper.escapeByte
    ((Escaper.init.escapeByte packetType).escapeByte firstByte)
  (((e.escapeByte e.crc.toUInt8).escapeByte (e.crc >>> 8).toUInt8).terminate).escaped

/-- The room that `init_escaper` asks for in a packet of `count` bytes. -/
def escaperRoom (count : ℕ) : ℕ := (count + 4) * 2 + 2

/-! ### Frames -/

/-- The special bytes of the line. -/
def line : Stuffing UInt8 where
  sync := syncByte
  esc := escapeByte
  mask := (· ^^^ 0x20)
  mask_mask a := by rw [UInt8.xor_assoc, UInt8.xor_self, UInt8.xor_zero]
  esc_ne_sync := by decide
  mask_sync_ne := by decide
  mask_esc_ne := by decide

/-- The content of a frame: its bytes and their CRC. -/
def content (packet : List UInt8) : List UInt8 := packet ++ crcBytes (crcPacket packet)

@[simp] theorem length_content (packet : List UInt8) :
    (content packet).length = packet.length + 2 := by
  simp [content, crcBytes]

theorem escaped_escapeByte (e : Escaper) (b : UInt8) :
    (e.escapeByte b).escaped = e.escaped ++ line.stuff [b] := by
  unfold Escaper.escapeByte
  simp only [Stuffing.stuff_cons, Stuffing.stuff_nil, List.append_nil]
  unfold Stuffing.stuff1
  split_ifs with h h' h'
  · rfl
  · exact absurd h h'
  · exact absurd h' h
  · rfl

theorem foldl_escapeByte (l : List UInt8) (e : Escaper) :
    l.foldl Escaper.escapeByte e = ⟨l.foldl crcByte e.crc, e.escaped ++ line.stuff l⟩ := by
  induction l generalizing e with
  | nil => simp
  | cons b l ih =>
      rw [List.foldl_cons, ih, escaped_escapeByte, List.append_assoc, ← Stuffing.stuff_append]
      rfl

/-- **The escaper makes a stuffed frame** of the bytes and their CRC. -/
theorem framedPacket_eq (packetType firstByte : UInt8) (packet : List UInt8) :
    framedPacket packetType firstByte packet =
      line.frame (content (packetType :: firstByte :: packet)) := by
  have hbytes := foldl_escapeByte (packetType :: firstByte :: packet) Escaper.init
  rw [List.foldl_cons, List.foldl_cons] at hbytes
  unfold framedPacket
  simp only [hbytes, Escaper.terminate, escaped_escapeByte]
  unfold Stuffing.frame content crcBytes
  rw [show ∀ a b : UInt8, [a, b] = [a] ++ [b] from fun _ _ => rfl, Stuffing.stuff_append,
    Stuffing.stuff_append]
  simp [Escaper.init, crcPacket, line]

/-- `escape_add` never writes behind the room of the escaper. -/
theorem length_framedPacket_le (packetType firstByte : UInt8) (packet : List UInt8) :
    (framedPacket packetType firstByte packet).length ≤ escaperRoom packet.length := by
  have h := line.length_frame_le (content (packetType :: firstByte :: packet))
  rw [framedPacket_eq]
  simp only [length_content, List.length_cons] at h
  unfold escaperRoom
  omega

end IdcuIot.SerialSource
