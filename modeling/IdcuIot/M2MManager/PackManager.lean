import IdcuIot.M2MManager.Commands

/-! # M2MManager: `Pack_Manager`

What a command makes M2MManager do, as a list of effects.  A command for a node is not
carried out here but put, as it was received, on the queue of CommManager (`m2mid`), of
EventManager (`eventid`), or of both; `Pack_Manager` puts the length it was called with into
the message. -/

namespace IdcuIot.M2MManager

open Memory Scan

/-- The command types of `M2MManager.h` that `Pack_Manager` knows. -/
inductive Command where
  | rebootNode
  | timeSync
  | getData
  | deleteNode
  | getNodeList
  | changeNodeInfo
deriving DecidableEq, Repr

/-- The values of the enumeration in `M2MManager.h`. -/
def Command.code : Command → UInt8
  | .rebootNode => 0x01
  | .timeSync => 0x02
  | .getData => 0x03
  | .deleteNode => 0x04
  | .getNodeList => 0x05
  | .changeNodeInfo => 0x12

/-- The `switch( type )`: other types fall through it. -/
def Command.ofType (type : UInt8) : Option Command :=
  [.timeSync, .getData, .getNodeList, .deleteNode, .changeNodeInfo, .rebootNode].find?
    (fun c => c.code == type)

/-- `QUERYTIME`. -/
structure QueryTime where
  year : UInt8
  month : UInt8
  day : UInt8
  hour : UInt8
  minute : UInt8
  sec : UInt8
deriving DecidableEq, Repr

/-- Six bytes of a command as a time. -/
def QueryTime.at (buffer : Mem) (i : ℕ) : QueryTime :=
  ⟨buffer i, buffer (i + 1), buffer (i + 2), buffer (i + 3), buffer (i + 4), buffer (i + 5)⟩

def QueryTime.bytes (t : QueryTime) : List UInt8 :=
  [t.year, t.month, t.day, t.hour, t.minute, t.sec]

/-- The queues with keys 2222 and 3333. -/
inductive Queue where
  | m2mid
  | eventid
deriving DecidableEq, Repr

/-- What `Pack_Manager` does. -/
inductive Effect where
  | write (bytes : List UInt8)
  | getNodeStatusData (time : QueryTime)
  | getNodeData (time : QueryTime)
  | commandGetNodeInfo
  | msgsnd (queue : Queue) (data : TData)
  | commandDeleteNode (nodeid : UInt8)
  | nodeInfoupdate (nodeid setNodeid setGroup : UInt8)

/-- What the system answers: the results of `AustemTimeSync` and of `getDiffTime`. -/
structure System where
  austemTimeSync : QueryTime → ℤ
  getDiffTime : QueryTime → ℤ

/-- `commandM2MConfig`. -/
def commandM2MConfig (buffer : Mem) (len : ℕ) : Effect :=
  .msgsnd .eventid (TData.ofBuffer 1 buffer len)

/-- `commandNodeConfig`. -/
def commandNodeConfig (buffer : Mem) (len : ℕ) : Effect :=
  .msgsnd .m2mid (TData.ofBuffer 1 buffer len)

/-- `Pack_Manager`. -/
def packManager (sys : System) (buffer : Mem) (len : ℕ) : List Effect :=
  let type := buffer 2
  let nodeid := buffer 4
  match Command.ofType type with
  | some .timeSync =>
      let callTime := QueryTime.at buffer 5
      let syncError : UInt8 := if sys.austemTimeSync callTime = 0 then 0 else 1
      [.write ([0xFE, 0x00, 0x0D, 0x0A, 0x00, 0x0A, 0x02, 0x07, 0x54] ++ callTime.bytes ++
        [syncError, 0xFF])]
  | some .getData =>
      let callTime := QueryTime.at buffer 4
      if buffer 4 = 99 ∨ sys.getDiffTime callTime < 0 then [.getNodeStatusData callTime]
      else [.getNodeData callTime]
  | some .getNodeList => [.commandGetNodeInfo]
  | some .deleteNode => [commandM2MConfig buffer len, .commandDeleteNode nodeid]
  | some .changeNodeInfo =>
      [commandNodeConfig buffer len, commandM2MConfig buffer len,
        .nodeInfoupdate (buffer 4) (buffer 5) (buffer 6)]
  | some .rebootNode =>
      if nodeid ≠ 0 then [commandNodeConfig buffer len]
      else [commandNodeConfig buffer len, commandM2MConfig buffer len]
  | none => []

/-- The messages handed to `msgsnd`, with their queues. -/
def messages (effects : List Effect) : List (Queue × TData) :=
  effects.filterMap (fun
    | .msgsnd queue data => some (queue, data)
    | _ => none)

/-- The queues on which a command with node id `nodeid` is put. -/
def queuesOf : Option Command → UInt8 → List Queue
  | some .deleteNode, _ => [.eventid]
  | some .changeNodeInfo, _ => [.m2mid, .eventid]
  | some .rebootNode, nodeid => if nodeid ≠ 0 then [.m2mid] else [.m2mid, .eventid]
  | _, _ => []

/-- A command that is forwarded is put on its queues as `Pack_Manager` got it, under the length
it got. -/
theorem messages_packManager (sys : System) (buffer : Mem) (len : ℕ) :
    messages (packManager sys buffer len) =
      (queuesOf (Command.ofType (buffer 2)) (buffer 4)).map
        (fun q => (q, TData.ofBuffer 1 buffer len)) := by
  simp only [packManager]
  cases Command.ofType (buffer 2) with
  | none => rfl
  | some c =>
      cases c with
      | timeSync | getNodeList | deleteNode | changeNodeInfo => rfl
      | getData =>
          simp only [queuesOf, List.map_nil]
          split_ifs <;> rfl
      | rebootNode =>
          simp only [queuesOf]
          split_ifs <;> rfl

end IdcuIot.M2MManager
