import IdcuIot.M2MManager.PackManager
import IdcuIot.SetupManager.Commands

/-! # SetupManager: `Pack_Manager`

Besides the commands that it shares with M2MManager, SetupManager answers with the network
configuration and replaces it.  `SETLANINFO` takes a whole `DEVINFO` out of the buffer, which is
longer than most frames. -/

namespace IdcuIot.SetupManager

open Memory
open M2MManager (Queue QueryTime)

/-- The command types of `M2MManager.h` that `Pack_Manager` knows. -/
inductive Command where
  | timeSync
  | getNodeList
  | deleteNode
  | changeNodeInfo
  | rebootNode
  | getLanInfo
  | setLanInfo
deriving DecidableEq, Repr

/-- The values of the enumeration in `M2MManager.h`. -/
def Command.code : Command → UInt8
  | .timeSync => 0x02
  | .getNodeList => 0x05
  | .deleteNode => 0x04
  | .changeNodeInfo => 0x12
  | .rebootNode => 0x01
  | .getLanInfo => 0x06
  | .setLanInfo => 0x0B

/-- The `switch( type )`: other types fall through it. -/
def Command.ofType (type : UInt8) : Option Command :=
  [.timeSync, .getNodeList, .deleteNode, .changeNodeInfo, .rebootNode, .getLanInfo,
    .setLanInfo].find? (fun c => c.code == type)

/-- `DEVINFO`: the four words of `lan_var` and of `wlan_var`, `security_var`, and two flags. -/
structure DevInfo where
  lan : List UInt8
  wlan : List UInt8
  security : List UInt8
  lanEnable : UInt8
  wlanEnable : UInt8
deriving DecidableEq

/-- `sizeof( DEVINFO )`. -/
def DevInfo.size : ℕ := 174

/-- The structure at address `i`: its fields are packed. -/
def DevInfo.at (buffer : Mem) (i : ℕ) : DevInfo :=
  { lan := buffer.slice i 16
    wlan := buffer.slice (i + 16) 16
    security := buffer.slice (i + 32) 140
    lanEnable := buffer (i + 172)
    wlanEnable := buffer (i + 173) }

/-- The bytes of the structure. -/
def DevInfo.bytes (d : DevInfo) : List UInt8 :=
  d.lan ++ d.wlan ++ d.security ++ [d.lanEnable, d.wlanEnable]

/-- The two networks, with a file in `/work/config` and a script each. -/
inductive Network where
  | eth0
  | wlan0
deriving DecidableEq, Repr

/-- What `Pack_Manager` does. -/
inductive Effect where
  | sendto (bytes : List UInt8)
  | commandGetNodeInfo
  | msgsnd (queue : Queue) (data : TData)
  | commandDeleteNode (nodeid : UInt8)
  | nodeInfoupdate (nodeid setNodeid setGroup : UInt8)
  | writeNetworkUseConfig (lan wlan : UInt8)
  | writeNetworkConfig (name : Network) (lan : List UInt8)
  /-- `WriteSecurityConfig` and `WriteSecurityScript`. -/
  | writeSecurity (security : List UInt8)
  | system (script : Network)

/-- What the system answers: the results of `AustemTimeSync` and of the scripts, and the
configuration that is read from the files. -/
structure System where
  austemTimeSync : QueryTime → ℤ
  script : Network → ℤ
  device : DevInfo

/-- `commandM2MConfig`. -/
def commandM2MConfig (buffer : Mem) (len : ℕ) : Effect :=
  .msgsnd .eventid (TData.ofBuffer 1 buffer len)

/-- `commandNodeConfig`. -/
def commandNodeConfig (buffer : Mem) (len : ℕ) : Effect :=
  .msgsnd .m2mid (TData.ofBuffer 1 buffer len)

/-- A reply of `SETLANINFO` and `GETLANINFO`: the length behind `FE` counts the type and the
length of the value. -/
def reply (type : UInt8) (value : List UInt8) : List UInt8 :=
  let totalLength := value.length + 3
  [0xFE, UInt8.ofNat (totalLength / 256), UInt8.ofNat totalLength, type,
    UInt8.ofNat (value.length / 256), UInt8.ofNat value.length] ++ value ++ [0xFF]

/-- The branch `SETLANINFO`. -/
def setLanInfo (sys : System) (saveDev : DevInfo) : List Effect :=
  let lan := saveDev.lanEnable ≠ 0
  let wlan := saveDev.wlanEnable ≠ 0
  let failed := (lan ∧ sys.script .eth0 ≠ 0) ∨ (wlan ∧ sys.script .wlan0 ≠ 0)
  .writeNetworkUseConfig saveDev.lanEnable saveDev.wlanEnable ::
    (if lan then [.writeNetworkConfig .eth0 saveDev.lan, .system .eth0] else []) ++
    (if wlan then [.writeNetworkConfig .wlan0 saveDev.wlan, .writeSecurity saveDev.security,
      .system .wlan0] else []) ++
    [.sendto (reply 0x0A [0x0B, if failed then 0x01 else 0x00])]

/-- `Pack_Manager`. -/
def packManager (sys : System) (buffer : Mem) (len : ℕ) : List Effect :=
  let type := buffer 2
  let nodeid := buffer 4
  match Command.ofType type with
  | some .timeSync =>
      let callTime := QueryTime.at buffer 5
      let syncError : UInt8 := if sys.austemTimeSync callTime = 0 then 0 else 1
      [.sendto ([0xFE, 0x00, 0x0D, 0x0A, 0x00, 0x0A, 0x02, 0x07, 0x54] ++ callTime.bytes ++
        [syncError, 0xFF])]
  | some .getNodeList => [.commandGetNodeInfo]
  | some .deleteNode => [commandM2MConfig buffer len, .commandDeleteNode nodeid]
  | some .changeNodeInfo =>
      [commandNodeConfig buffer len, commandM2MConfig buffer len,
        .nodeInfoupdate (buffer 4) (buffer 5) (buffer 6)]
  | some .rebootNode =>
      if nodeid ≠ 0 then [commandNodeConfig buffer len]
      else [commandNodeConfig buffer len, commandM2MConfig buffer len]
  | some .getLanInfo => [.sendto (reply 0x06 sys.device.bytes)]
  | some .setLanInfo => setLanInfo sys (DevInfo.at buffer 4)
  | none => []

end IdcuIot.SetupManager
