import IdcuIot.Etri
import IdcuIot.Lib.Decimal
import IdcuIot.Lib.Delimited
import IdcuIot.TagServer

/-! # The messages to the middleware

The packed structures of `ETRI.h`, the values that the functions of `ETRI_Registration.c`,
`ETRI_Deregistration.c` and `tagServer.c` put into them, and the bytes that are sent.  Numbers
are stored with the low byte first, and `UINT32` has four bytes.

Each message says in `Length` how many bytes follow its first four.  The lengths are constants
of the source, except for the registration of a transducer and the report, whose last array is
sent only in part. -/

namespace IdcuIot.Etri

open Memory Decimal TagServer

/-! ### Packed structures -/

/-- The bytes of a number of 16 and of 32 bits. -/
def le16 (x : UInt16) : List UInt8 := [x.toUInt8, (x >>> 8).toUInt8]

def le32 (x : UInt32) : List UInt8 :=
  [x.toUInt8, (x >>> 8).toUInt8, (x >>> 16).toUInt8, (x >>> 24).toUInt8]

@[simp] theorem length_le16 (x : UInt16) : (le16 x).length = 2 := rfl

@[simp] theorem length_le32 (x : UInt32) : (le32 x).length = 4 := rfl

/-- `Struct_GateNode`. -/
structure StructGateNode where
  messageId : UInt16
  length : UInt16
  gateNodeId : UInt16

/-- `Struct_PAN`. -/
structure StructPan where
  messageId : UInt16
  length : UInt16
  gateNodeId : UInt16
  panId : UInt16

/-- `Struct_SensorNode`. -/
structure StructSensorNode where
  messageId : UInt16
  length : UInt16
  gateNodeId : UInt16
  panId : UInt16
  sensorNodeId : UInt16

/-- `Struct_Transducer`. -/
structure StructTransducer where
  messageId : UInt16
  length : UInt16
  gateNodeId : UInt16
  panId : UInt16
  sensorNodeId : UInt16
  transducerId : UInt16

/-- `Struct_GateNode_Registration`. -/
structure StructGateNodeRegistration where
  gateNode : StructGateNode
  manufacturer : Vector UInt8 20
  producNo : Vector UInt8 20
  longitude : Int32
  latitude : Int32
  altitude : Int32

/-- `Struct_PAN_Registration`. -/
structure StructPanRegistration where
  pan : StructPan
  panChannel : UInt8
  manufacturer : Vector UInt8 20
  producNo : Vector UInt8 20
  panTopology : UInt8
  panProtocolStack : UInt8

/-- `Struct_SensorNode_Registration`. -/
structure StructSensorNodeRegistration where
  sensorNode : StructSensorNode
  globalId : Vector UInt8 12
  monitoringMode : UInt8
  monitoringPeriod : Int32
  manufacturer : Vector UInt8 20
  producNo : Vector UInt8 20
  longitude : Int32
  latitude : Int32
  altitude : Int32

/-- `Struct_Transducer_Registration`. -/
structure StructTransducerRegistration where
  transducer : StructTransducer
  manufacturer : Vector UInt8 20
  producNo : Vector UInt8 20
  min : Float32
  max : Float32
  offset : Float32
  level : Float32
  transducerType : UInt8
  dataType : UInt8
  dataUnitLength : UInt8
  dataUnit : Vector UInt8 32

/-- The bytes of the structures, field after field. -/
def StructGateNode.bytes (s : StructGateNode) : List UInt8 :=
  le16 s.messageId ++ le16 s.length ++ le16 s.gateNodeId

def StructPan.bytes (s : StructPan) : List UInt8 :=
  le16 s.messageId ++ le16 s.length ++ le16 s.gateNodeId ++ le16 s.panId

def StructSensorNode.bytes (s : StructSensorNode) : List UInt8 :=
  le16 s.messageId ++ le16 s.length ++ le16 s.gateNodeId ++ le16 s.panId ++ le16 s.sensorNodeId

def StructTransducer.bytes (s : StructTransducer) : List UInt8 :=
  le16 s.messageId ++ le16 s.length ++ le16 s.gateNodeId ++ le16 s.panId ++
    le16 s.sensorNodeId ++ le16 s.transducerId

def StructGateNodeRegistration.bytes (s : StructGateNodeRegistration) : List UInt8 :=
  s.gateNode.bytes ++ s.manufacturer.toList ++ s.producNo.toList ++ le32 s.longitude.toUInt32 ++
    le32 s.latitude.toUInt32 ++ le32 s.altitude.toUInt32

def StructPanRegistration.bytes (s : StructPanRegistration) : List UInt8 :=
  s.pan.bytes ++ [s.panChannel] ++ s.manufacturer.toList ++ s.producNo.toList ++
    [s.panTopology, s.panProtocolStack]

def StructSensorNodeRegistration.bytes (s : StructSensorNodeRegistration) : List UInt8 :=
  s.sensorNode.bytes ++ s.globalId.toList ++ [s.monitoringMode] ++
    le32 s.monitoringPeriod.toUInt32 ++ s.manufacturer.toList ++ s.producNo.toList ++
    le32 s.longitude.toUInt32 ++ le32 s.latitude.toUInt32 ++ le32 s.altitude.toUInt32

def StructTransducerRegistration.bytes (s : StructTransducerRegistration) : List UInt8 :=
  s.transducer.bytes ++ s.manufacturer.toList ++ s.producNo.toList ++ le32 s.min.toBits ++
    le32 s.max.toBits ++ le32 s.offset.toBits ++ le32 s.level.toBits ++
    [s.transducerType, s.dataType, s.dataUnitLength] ++ s.dataUnit.toList

/-! ### Registration -/

/-- A row of `transducerinfo`: the texts of its columns; of the last one, what the memory holds
from its first byte on. -/
structure TransducerRow where
  transducerId : Text
  min : Text
  max : Text
  offset : Text
  level : Text
  transducerType : Text
  dataType : Text
  dataUnitLength : Text
  dataUnit : Mem

/-- `memcpy( …, array, 20 )`. -/
def copy20 (array : List UInt8) : Vector UInt8 20 := Vector.ofFn (fun i => array.getD i 0)

variable (info : ReadEnv)

/-- The packet of `GateNode_Description_Registration`. -/
def gateNodeRegistration : StructGateNodeRegistration where
  gateNode := { messageId := 0x0001, length := 0x0036, gateNodeId := info.gatenode }
  manufacturer := copy20 info.manufacturer
  producNo := copy20 info.producno
  longitude := 0
  latitude := 0
  altitude := 0

/-- The packet of `PAN_Description_Registration`. -/
def panRegistration : StructPanRegistration where
  pan := { messageId := 0x0003, length := 0x002F, gateNodeId := info.gatenode, panId := info.pan }
  panChannel := 0xFF
  manufacturer := copy20 info.manufacturer
  producNo := copy20 info.producno
  panTopology := 0x09
  panProtocolStack := 0x09

/-- The packet of `SensorNode_Description_Registration`. -/
def sensorNodeRegistration : StructSensorNodeRegistration where
  sensorNode :=
    { messageId := 0x0005
      length := 0x004B
      gateNodeId := info.gatenode
      panId := info.pan
      sensorNodeId := info.sensornode }
  globalId := Vector.ofFn (fun i => if i = 0 then 71 else 0)
  monitoringMode := 0x01
  monitoringPeriod := 0x000000FF
  manufacturer := copy20 info.manufacturer
  producNo := copy20 info.producno
  longitude := 0
  latitude := 0
  altitude := 0

/-- The packet that `Transducer_Description_Registration` makes of a row.  `DataUnit` has 32
bytes; a longer unit would be written behind it. -/
def transducerRegistration (row : TransducerRow) : StructTransducerRegistration :=
  let dataUnitLength := UInt8.ofInt (atoi row.dataUnitLength)
  { transducer :=
      { messageId := 0x0007
        length := 0x0043 + dataUnitLength.toUInt16
        gateNodeId := info.gatenode
        panId := info.pan
        sensorNodeId := info.sensornode
        transducerId := UInt16.ofInt (atoi row.transducerId) }
    manufacturer := copy20 info.manufacturer
    producNo := copy20 info.producno
    min := Float32.ofInt (atoi row.min)
    max := Float32.ofInt (atoi row.max)
    offset := Float32.ofInt (atoi row.offset)
    level := Float32.ofInt (atoi row.level)
    transducerType := UInt8.ofInt (atoi row.transducerType)
    dataType := UInt8.ofInt (atoi row.dataType)
    dataUnitLength := dataUnitLength
    dataUnit := Vector.ofFn (fun i =>
      if (i : ℕ) < dataUnitLength.toNat then row.dataUnit i else 0) }

/-- `sendSize`. -/
def StructTransducerRegistration.sendSize (s : StructTransducerRegistration) : ℕ :=
  s.transducer.length.toNat + 4

/-! ### Deregistration -/

/-- The packet of `GateNode_Description_Deregistration`. -/
def gateNodeDeregistration : StructGateNode where
  messageId := 0x0002
  length := 0x0002
  gateNodeId := info.gatenode

/-- The packet of `PAN_Description_Deregistration`. -/
def panDeregistration : StructPan where
  messageId := 0x0004
  length := 0x0004
  gateNodeId := info.gatenode
  panId := info.pan

/-- The packet of `SensorNode_Description_Deregistration`. -/
def sensorNodeDeregistration : StructSensorNode where
  messageId := 0x0006
  length := 0x0006
  gateNodeId := info.gatenode
  panId := info.pan
  sensorNodeId := info.sensornode

/-- The packet that `Transducer_Description_Deregistration` makes of a transducer id. -/
def transducerDeregistration (transducerId : Text) : StructTransducer where
  messageId := 0x0008
  length := 0x0008
  gateNodeId := info.gatenode
  panId := info.pan
  sensorNodeId := info.sensornode
  transducerId := UInt16.ofInt (atoi transducerId)

/-! ### The stream -/

/-- The bytes of a report that are sent: the head and `data_num` bytes of `Transducer_Info`. -/
def reportBytes (pac : SensingValueReport) : List UInt8 :=
  le16 pac.messageId ++ le16 pac.length ++ le32 pac.commandId ++ le16 pac.gateNodeId ++
    le16 pac.panId ++ le16 pac.sensorNodeId ++ le32 pac.transferTime ++ pac.transducerInfo

/-- A message, given by what the program makes it from. -/
inductive Message where
  | gateNodeRegistration (info : ReadEnv)
  | panRegistration (info : ReadEnv)
  | sensorNodeRegistration (info : ReadEnv)
  | transducerRegistration (info : ReadEnv) (row : TransducerRow)
  | gateNodeDeregistration (info : ReadEnv)
  | panDeregistration (info : ReadEnv)
  | sensorNodeDeregistration (info : ReadEnv)
  | transducerDeregistration (info : ReadEnv) (transducerId : Text)
  | sensingValueReport (env : ReadEnv) (transferTime : UInt32) (data : TData)

/-- The bytes given to `send`. -/
def Message.bytes : Message → List UInt8
  | .gateNodeRegistration info => (Etri.gateNodeRegistration info).bytes
  | .panRegistration info => (Etri.panRegistration info).bytes
  | .sensorNodeRegistration info => (Etri.sensorNodeRegistration info).bytes
  | .transducerRegistration info row =>
      let env := Etri.transducerRegistration info row
      env.bytes.take env.sendSize
  | .gateNodeDeregistration info => (Etri.gateNodeDeregistration info).bytes
  | .panDeregistration info => (Etri.panDeregistration info).bytes
  | .sensorNodeDeregistration info => (Etri.sensorNodeDeregistration info).bytes
  | .transducerDeregistration info transducerId =>
      (Etri.transducerDeregistration info transducerId).bytes
  | .sensingValueReport env transferTime data => reportBytes (report env transferTime data)

/-- The parts of variable length fit in their arrays. -/
def Message.Fits : Message → Prop
  | .transducerRegistration _ row => (UInt8.ofInt (atoi row.dataUnitLength)).toNat ≤ 32
  | .sensingValueReport _ _ data => data.dataNum ≤ 1024
  | _ => True

/-- The field `Length` at the front of a stream. -/
def lengthField (l : List UInt8) : ℕ := (l.getD 2 0).toNat + 256 * (l.getD 3 0).toNat

/-- The rule for the size of a message. -/
def messageSize (l : List UInt8) : ℕ := lengthField l + 4

/-! ### Every message carries its length -/

theorem toNat_le16 (x : UInt16) : x.toUInt8.toNat + 256 * (x >>> 8).toUInt8.toNat = x.toNat := by
  have hx := x.toNat_lt
  have hhigh : (x >>> 8).toNat = x.toNat / 2 ^ 8 := by
    rw [UInt16.toNat_shiftRight, Nat.shiftRight_eq_div_pow]
    rfl
  rw [UInt16.toNat_toUInt8, UInt16.toNat_toUInt8, hhigh]
  omega

theorem lengthField_header (id length : UInt16) (tail : List UInt8) :
    lengthField (le16 id ++ (le16 length ++ tail)) = length.toNat := toNat_le16 length

/-- A header, and as many bytes as its `Length` says. -/
def WellSized (bytes : List UInt8) : Prop :=
  ∃ id length tail, bytes = le16 id ++ (le16 length ++ tail) ∧ tail.length = length.toNat

theorem wellSized_header {id length : UInt16} {tail : List UInt8} (h : tail.length = length.toNat) :
    WellSized (le16 id ++ (le16 length ++ tail)) := ⟨id, length, tail, rfl, h⟩

theorem WellSized.isMessage {bytes : List UInt8} (h : WellSized bytes) :
    Delimited.IsMessage messageSize bytes := by
  obtain ⟨id, length, tail, rfl, htail⟩ := h
  refine ⟨by simp [le16], fun rest => ?_⟩
  rw [List.append_assoc, List.append_assoc, messageSize, lengthField_header]
  simp only [List.length_append, length_le16, htail]
  omega

theorem WellSized.lengthField_add {bytes : List UInt8} (h : WellSized bytes) :
    lengthField bytes + 4 = bytes.length := by
  have hsize := h.isMessage.size_eq []
  rwa [List.append_nil] at hsize

theorem wellSized_take {id length : UInt16} {tail : List UInt8} (h : length.toNat ≤ tail.length) :
    WellSized ((le16 id ++ (le16 length ++ tail)).take (length.toNat + 4)) := by
  refine ⟨id, length, tail.take length.toNat, ?_, List.length_take_of_le h⟩
  rw [List.take_append, List.take_append, List.take_of_length_le, List.take_of_length_le]
  · simp
  · simp
  · simp

theorem toNat_length_transducerRegistration (info : ReadEnv) (row : TransducerRow) :
    (transducerRegistration info row).transducer.length.toNat =
      67 + (UInt8.ofInt (atoi row.dataUnitLength)).toNat := by
  have hlt := (UInt8.ofInt (atoi row.dataUnitLength)).toNat_lt
  change (0x0043 + (UInt8.ofInt (atoi row.dataUnitLength)).toUInt16).toNat = _
  rw [UInt16.toNat_add, UInt8.toNat_toUInt16]
  change (67 + _) % 65536 = _
  omega

theorem wellSized_transducerRegistration (info : ReadEnv) (row : TransducerRow)
    (h : (UInt8.ofInt (atoi row.dataUnitLength)).toNat ≤ 32) :
    WellSized (Message.transducerRegistration info row).bytes := by
  simp only [Message.bytes, StructTransducerRegistration.bytes, StructTransducer.bytes,
    StructTransducerRegistration.sendSize, List.append_assoc]
  apply wellSized_take
  rw [toNat_length_transducerRegistration]
  simp only [List.length_append, length_le16, length_le32, Vector.length_toList, List.length_cons,
    List.length_nil]
  omega

theorem wellSized_report (env : ReadEnv) (transferTime : UInt32) (data : TData)
    (h : data.dataNum ≤ 1024) : WellSized (reportBytes (report env transferTime data)) := by
  simp only [reportBytes, report, List.append_assoc]
  apply wellSized_header
  rw [UInt16.toNat_ofNat', Nat.mod_eq_of_lt (by unfold sensingValueReportHeadSize; omega)]
  simp only [List.length_append, length_le16, length_le32, TData.bytes, Mem.length_slice,
    sensingValueReportHeadSize]
  omega

theorem wellSized_bytes {m : Message} (h : m.Fits) : WellSized m.bytes := by
  cases m with
  | transducerRegistration info row => exact wellSized_transducerRegistration info row h
  | sensingValueReport env transferTime data => exact wellSized_report env transferTime data h
  | gateNodeRegistration info =>
      simp only [Message.bytes, StructGateNodeRegistration.bytes, StructGateNode.bytes, List.append_assoc]
      apply wellSized_header
      simp [gateNodeRegistration]
  | panRegistration info =>
      simp only [Message.bytes, StructPanRegistration.bytes, StructPan.bytes, List.append_assoc]
      apply wellSized_header
      simp [panRegistration]
  | sensorNodeRegistration info =>
      simp only [Message.bytes, StructSensorNodeRegistration.bytes,
        StructSensorNode.bytes, List.append_assoc]
      apply wellSized_header
      simp [sensorNodeRegistration]
  | gateNodeDeregistration info =>
      simp only [Message.bytes, StructGateNode.bytes, List.append_assoc]
      apply wellSized_header
      simp [gateNodeDeregistration]
  | panDeregistration info =>
      simp only [Message.bytes, StructPan.bytes, List.append_assoc]
      apply wellSized_header
      simp [panDeregistration]
  | sensorNodeDeregistration info =>
      simp only [Message.bytes, StructSensorNode.bytes, List.append_assoc]
      apply wellSized_header
      simp [sensorNodeDeregistration]
  | transducerDeregistration info transducerId =>
      simp only [Message.bytes, StructTransducer.bytes, List.append_assoc]
      apply wellSized_header
      simp [transducerDeregistration]

theorem split_messages {ms : List Message} (h : ∀ m ∈ ms, m.Fits) :
    Delimited.split messageSize (ms.flatMap Message.bytes) = (ms.map Message.bytes, []) := by
  rw [List.flatMap_def]
  apply Delimited.split_flatten
  intro l hl
  obtain ⟨m, hm, rfl⟩ := List.mem_map.mp hl
  exact (wellSized_bytes (h m hm)).isMessage

/-- **The stream is self-delimiting**: the `Length` of every message is the number of bytes
after its first four, and cutting the stream by this rule gives the messages that were sent, in
their order, with nothing left. -/
theorem stream_selfDelimiting (ms : List Message) (h : ∀ m ∈ ms, m.Fits) :
    (∀ m ∈ ms, lengthField m.bytes + 4 = m.bytes.length) ∧
    Delimited.split messageSize (ms.flatMap Message.bytes) = (ms.map Message.bytes, []) :=
  ⟨fun m hm => (wellSized_bytes (h m hm)).lengthField_add, split_messages h⟩

/-- A configuration. -/
def someInfo : ReadEnv := ⟨0, 5000, [], [], 0, 1, 2, 3, 0⟩

/-- A transducer with a unit of three bytes. -/
def someRow : TransducerRow :=
  ⟨['7'], ['0'], ['9', '9'], ['0'], ['1'], ['2'], ['3'], ['3'], fun _ => 65⟩

/-- The gate node, a transducer and a report of five bytes. -/
def someMessages : List Message :=
  [.gateNodeRegistration someInfo, .transducerRegistration someInfo someRow,
    .sensingValueReport someInfo 0 ⟨1, 5, fun _ => 0⟩]

theorem stream_selfDelimiting_some :
    (∀ m ∈ someMessages, lengthField m.bytes + 4 = m.bytes.length) ∧
    Delimited.split messageSize (someMessages.flatMap Message.bytes) =
      (someMessages.map Message.bytes, []) := by
  apply stream_selfDelimiting someMessages
  intro m hm
  simp only [someMessages, List.mem_cons, List.not_mem_nil, or_false] at hm
  rcases hm with rfl | rfl | rfl
  · trivial
  · change (UInt8.ofInt (atoi ['3'])).toNat ≤ 32
    decide
  · change 5 ≤ 1024
    decide

/-! ### The stream of a registration -/

/-- What a message of the registration or the deregistration is made from. -/
def packetMessage (info : ReadEnv) (rows : ℕ → TransducerRow) : Packet → Message
  | .gateNodeRegistration => .gateNodeRegistration info
  | .panRegistration => .panRegistration info
  | .sensorNodeRegistration => .sensorNodeRegistration info
  | .transducerRegistration row => .transducerRegistration info (rows row)
  | .gateNodeDeregistration => .gateNodeDeregistration info
  | .panDeregistration => .panDeregistration info
  | .sensorNodeDeregistration => .sensorNodeDeregistration info
  | .transducerDeregistration row => .transducerDeregistration info (rows row).transducerId

theorem fits_packetMessage {info : ReadEnv} {rows : ℕ → TransducerRow}
    (hrows : ∀ k, (UInt8.ofInt (atoi (rows k).dataUnitLength)).toNat ≤ 32) (p : Packet) :
    (packetMessage info rows p).Fits := by
  cases p with
  | transducerRegistration row => exact hrows row
  | _ => trivial

/-- However far a registration or a deregistration gets, its messages are recovered. -/
theorem split_steps (procedure : StateM Conn ℤ) (info : ReadEnv) {rows : ℕ → TransducerRow}
    (hrows : ∀ k, (UInt8.ofInt (atoi (rows k).dataUnitLength)).toNat ≤ 32) :
    Delimited.split messageSize
        (((stepsOf procedure).map (fun step => packetMessage info rows step.packet)).flatMap
          Message.bytes) =
      (((stepsOf procedure).map (fun step => packetMessage info rows step.packet)).map
        Message.bytes, []) := by
  apply split_messages
  intro m hm
  obtain ⟨step, -, rfl⟩ := List.mem_map.mp hm
  exact fits_packetMessage hrows step.packet

end IdcuIot.Etri
