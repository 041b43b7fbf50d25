import IdcuIot.Lib.Decimal
import IdcuIot.Lib.Words
import IdcuIot.M2MManager.PackManager

/-! # M2MManager: the replies

`getNodeData`, `getNodeStatusData` and `commandGetNodeInfo` put the rows of a query into
records of a fixed size and write them to the client in one frame.  The first two work on
global buffers, `austemSend`, `austemStatusSend` and `tlvSendBuffer`, and clear the ones they
used when the frame is written; the third has buffers of its own. -/

namespace IdcuIot.M2MManager

open Memory Decimal

/-- `Return_Selectdata`. -/
structure SelectData where
  size : ℤ
  pastResult : List Text

/-- `el1000_sqlite3_select`, and `getNodeInfo`, which has the same body.  The answer of
`sqlite3_get_table` is the names of the columns and the rows; without rows it has no columns
either. -/
def el1000Sqlite3Select : Option (List Text × List (List Text)) → SelectData
  | none => ⟨-1, []⟩
  | some (_, []) => ⟨0, []⟩
  | some (columns, rows) =>
      let nrows := rows.length
      let ncols := columns.length
      ⟨nrows * ncols + ncols, columns ++ rows.flatten⟩

/-- `data.past_result[i]`. -/
def SelectData.entry (data : SelectData) (i : ℕ) : Text := data.pastResult.getD i []

/-- The global buffers. -/
structure Buffers where
  austemSend : Mem
  austemStatusSend : Mem
  tlvSendBuffer : Mem

/-- The sum of the bytes `1` to `len` of `tlvSendBuffer`, as `_getCheckSum` forms it. -/
def getCheckSum (tlvSendBuffer : Mem) (len : ℕ) : UInt8 :=
  UInt8.ofNat ((tlvSendBuffer.slice 1 len).map UInt8.toNat).sum

/-! ### Records -/

/-- Two characters of a date, as a number in a `char`. -/
def convert (text : Text) (i : ℕ) : UInt8 :=
  UInt8.ofInt (atoi [text.getD i '\x00', text.getD (i + 1) '\x00'])

/-- `AustemSendTimeOrigin`: the century is left out. -/
def timeOrigin (text : Text) : List UInt8 :=
  [convert text 2, convert text 4, convert text 6, convert text 8, convert text 10,
    convert text 12]

/-- A value, high byte first. -/
def valueBytes (byteOrder : UInt32) : List UInt8 :=
  [((0xff000000 &&& byteOrder) >>> 24).toUInt8, ((0x00ff0000 &&& byteOrder) >>> 16).toUInt8,
    ((0x0000ff00 &&& byteOrder) >>> 8).toUInt8, ((0x000000ff &&& byteOrder) >>> 0).toUInt8]

/-- `AustemSendTime`: the time, and the milliseconds behind the dot. -/
def austemSendTime (text : Text) : List UInt8 :=
  let byteOrderSec := UInt16.ofInt
    (atoi [text.getD 15 '\x00', text.getD 16 '\x00', text.getD 17 '\x00'])
  timeOrigin text ++
    [((0xff00 &&& byteOrderSec) >>> 8).toUInt8, ((0x00ff &&& byteOrderSec) >>> 0).toUInt8]

/-- `AustemSendData` from the entries at `rowSize`. -/
def austemSendData (data : SelectData) (rowSize : ℕ) : List UInt8 :=
  [UInt8.ofInt (atoi (data.entry rowSize)), UInt8.ofInt (atoi (data.entry (rowSize + 1)))] ++
    valueBytes (UInt32.ofInt (atoi (data.entry (rowSize + 2)))) ++
    austemSendTime (data.entry (rowSize + 3))

/-- The part of `AustemStatusSendData` before the two channels that are not set. -/
def statusHead (data : SelectData) (rowSize : ℕ) : List UInt8 :=
  [UInt8.ofInt (atoi (data.entry rowSize)), UInt8.ofInt (atoi (data.entry (rowSize + 1)))] ++
    valueBytes (UInt32.ofInt (atoi (data.entry (rowSize + 2)))) ++
    valueBytes (UInt32.ofInt (atoi (data.entry (rowSize + 3)))) ++
    valueBytes (UInt32.ofInt (atoi (data.entry (rowSize + 4)))) ++
    valueBytes (UInt32.ofInt (atoi (data.entry (rowSize + 5)))) ++
    valueBytes (UInt32.ofInt (atoi (data.entry (rowSize + 6)))) ++
    valueBytes (UInt32.ofInt (atoi (data.entry (rowSize + 7))))

/-- `RTRNNODEGROUP`. -/
def rtrnNodeGroup (data : SelectData) (selectOffset : ℕ) : List UInt8 :=
  [UInt8.ofInt (atoi (data.entry selectOffset)), UInt8.ofInt (atoi (data.entry (selectOffset + 1)))]
    ++ timeOrigin (data.entry (selectOffset + 2))

/-! ### Loops over the rows

`n` rows are left, the next one being row `i`, whose entries start at `rowSize`. -/

/-- The loop of `getNodeData`. -/
def fillAustemSend (data : SelectData) : ℕ → ℕ → ℕ → Mem → Mem
  | 0, _, _, m => m
  | n + 1, i, rowSize, m =>
      fillAustemSend data n (i + 1) (rowSize + 4) (m.store (14 * i) (austemSendData data rowSize))

/-- The loop of `getNodeStatusData`: `time` lies behind the eight channels. -/
def fillAustemStatusSend (data : SelectData) : ℕ → ℕ → ℕ → Mem → Mem
  | 0, _, _, m => m
  | n + 1, i, rowSize, m =>
      fillAustemStatusSend data n (i + 1) (rowSize + 9)
        ((m.store (40 * i) (statusHead data rowSize)).store (40 * i + 34)
          (timeOrigin (data.entry (rowSize + 8))))

/-- The loop of `commandGetNodeInfo`. -/
def fillSend (data : SelectData) : ℕ → ℕ → ℕ → Mem → Mem
  | 0, _, _, m => m
  | n + 1, i, selectOffset, m =>
      fillSend data n (i + 1) (selectOffset + 3) (m.store (8 * i) (rtrnNodeGroup data selectOffset))

/-! ### Frames -/

/-- Start byte, length, type and length of a frame. -/
def frameHead (type : UInt8) (totalLength vLength : ℕ) : List UInt8 :=
  [0xFE, UInt8.ofNat (totalLength >>> 8), UInt8.ofNat totalLength, type,
    UInt8.ofNat (vLength >>> 8), UInt8.ofNat vLength]

/-- The first twelve bytes of `tlvSendBuffer`. -/
def putHead (tlvSendBuffer : Mem) (type : UInt8) (totalLength vLength : ℕ) (time : QueryTime) :
    Mem := (tlvSendBuffer.store 0 (frameHead type totalLength vLength)).store 6 time.bytes

/-- The last two bytes of the frame in `tlvSendBuffer`. -/
def putEnd (tlvSendBuffer : Mem) (vLength : ℕ) : Mem :=
  (tlvSendBuffer.store (vLength + 6) [getCheckSum tlvSendBuffer (vLength + 5)]).store (vLength + 7)
    [0xFF]

/-- `getNodeData`: what is written to the client, and the buffers afterwards. -/
def getNodeData (data : SelectData) (time : QueryTime) (b : Buffers) :
    List (List UInt8) × Buffers :=
  let filled : ℕ × Mem × Mem :=
    if 0 < data.size then
      let rowCnt := ((data.size - 4) / 4).toNat
      let austemSend := fillAustemSend data rowCnt 0 4 b.austemSend
      let vLength := 14 * rowCnt + 6
      let totalLength := vLength + 4
      let tlvSendBuffer := putHead b.tlvSendBuffer 0x03 totalLength vLength time
      (totalLength, austemSend, putEnd (tlvSendBuffer.memcpy 12 austemSend 0 vLength) vLength)
    else if data.size = -1 then (0, b.austemSend, b.tlvSendBuffer)
    else
      let vLength := 6
      let totalLength := vLength + 4
      let tlvSendBuffer := putHead b.tlvSendBuffer 0x03 totalLength vLength time
      (totalLength, b.austemSend, putEnd tlvSendBuffer vLength)
  ([filled.2.2.slice 0 (filled.1 + 4)],
    { b with
      austemSend := filled.2.1.clear 0 (14 * 2048)
      tlvSendBuffer := filled.2.2.clear 0 20480 })

/-- `getNodeStatusData`. -/
def getNodeStatusData (data : SelectData) (time : QueryTime) (b : Buffers) :
    List (List UInt8) × Buffers :=
  if 0 < data.size then
    let rowCnt := ((data.size - 9) / 9).toNat
    let austemStatusSend := fillAustemStatusSend data rowCnt 0 9 b.austemStatusSend
    let vLength := 40 * rowCnt + 6
    let totalLength := vLength + 4
    let tlvSendBuffer := putHead b.tlvSendBuffer 0x06 totalLength vLength time
    let tlvSendBuffer := putEnd (tlvSendBuffer.memcpy 12 austemStatusSend 0 vLength) vLength
    ([tlvSendBuffer.slice 0 (totalLength + 4)],
      { b with
        austemStatusSend := austemStatusSend.clear 0 (40 * 256)
        tlvSendBuffer := tlvSendBuffer.clear 0 20480 })
  else ([], b)

/-- `commandGetNodeInfo`. -/
def commandGetNodeInfo (selectData : SelectData) : List (List UInt8) :=
  if 0 < selectData.size then
    let rowCnt := ((selectData.size - 3) / 3).toNat
    let send := fillSend selectData rowCnt 0 3 (fun _ => 0)
    let vLength := 8 * rowCnt
    let totalLength := vLength + 3
    let sendBuffer : Mem := Mem.store (fun _ => 0) 0 (frameHead 0x05 totalLength vLength)
    let sendBuffer := (sendBuffer.memcpy 6 send 0 vLength).store (totalLength + 3) [0xFF]
    [sendBuffer.slice 0 (totalLength + 4)]
  else []

/-! ### One reply after the other -/

/-- The buffers at the start of the program. -/
def Buffers.start : Buffers := ⟨fun _ => 0, fun _ => 0, fun _ => 0⟩

/-- Carry out an effect of `Pack_Manager`; `data` is the answer to its query.  The reply to a
time synchronisation is put together in `tlvSendBuffer`, too. -/
def perform (b : Buffers) (effect : Effect) (data : SelectData) : List (List UInt8) × Buffers :=
  match effect with
  | .write bytes =>
      ([bytes], { b with tlvSendBuffer := (b.tlvSendBuffer.store 0 bytes).clear 0 20480 })
  | .getNodeStatusData time => getNodeStatusData data time b
  | .getNodeData time => getNodeData data time b
  | .commandGetNodeInfo => (commandGetNodeInfo data, b)
  | _ => ([], b)

/-- The buffers after any number of effects. -/
def after (history : List (Effect × SelectData)) : Buffers :=
  history.foldl (fun b h => (perform b h.1 h.2).2) Buffers.start

end IdcuIot.M2MManager
