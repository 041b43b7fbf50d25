import IdcuIot.CommManager.CommandTlv
import IdcuIot.Lib.MessageQueue
import IdcuIot.SetTime
import IdcuIot.SetupManager.SecurityConfig

/-! # Commands for the nodes, from the managers to the serial line

M2MManager and SetupManager put the commands of their clients on the queue with key 2222, and
CommManager takes them there and writes to the serial line of the nodes.  The three programs take
steps in any order; a `msgsnd` that finds no place is not repeated.  A command with which its
manager (`Contained`) or CommManager (`InArrays`) would leave its arrays has no step.

`line_of_run` says what reaches the nodes: of every command that found a place, in the order in
which they were queued, the whole frame or the configuration of 29 bytes made of it, or nothing;
never a part of a command and nothing that no command asked for. -/

namespace IdcuIot.RemoteCommand

open Memory
open M2MManager (PackCall Queue)

/-- The programs that take commands from clients. -/
inductive Manager where
  | m2m
  | setup
deriving DecidableEq, Repr

/-- Their receive loops. -/
def Manager.socketManager : Manager → RecvLoop PackCall
  | .m2m => M2MManager.socketManager
  | .setup => SetupManager.socketManager

/-- The messages handed to `msgsnd` by SetupManager, with their queues. -/
def setupMessages (effects : List SetupManager.Effect) : List (Queue × TData) :=
  effects.filterMap (fun
    | .msgsnd queue data => some (queue, data)
    | _ => none)

/-- What the system answers to `Pack_Manager` of the two programs. -/
structure Answers where
  m2m : M2MManager.System
  setup : SetupManager.System

/-- A call of `msgsnd`, and the call of `Pack_Manager` that it belongs to. -/
structure Sending where
  call : PackCall
  queue : Queue
  data : TData

/-- The calls of `msgsnd` in a call of `Pack_Manager`. -/
def sendings (answers : Answers) (m : Manager) (c : PackCall) : List Sending :=
  let messages := match m with
    | .m2m => M2MManager.messages (M2MManager.packManager answers.m2m c.setBuffer c.len)
    | .setup => setupMessages (SetupManager.packManager answers.setup c.setBuffer c.len)
  messages.map (fun p => ⟨c, p.1, p.2⟩)

/-- A `msgsnd` on the queue with key 2222 that was made, and whether there was a place. -/
structure Sent where
  manager : Manager
  call : PackCall
  queued : Bool

/-- The receive loops of the managers and the calls of `msgsnd` that are still to be made in them,
the queues, what CommManager wrote to the serial line, all calls of `Pack_Manager`, and the calls of
`msgsnd` that were made on the queue of CommManager. -/
structure State (capacity : ℕ) where
  loop : Manager → RecvState PackCall
  sending : Manager → List Sending
  queues : Queue → MessageQueue TData capacity
  line : List (List UInt8)
  calls : List (Manager × PackCall)
  sent : List Sent

/-- The text that `AustemTimeSync` of a manager prints. -/
def Manager.settime : Manager → M2MManager.QueryTime → Decimal.Text
  | .m2m => M2MManager.settime
  | .setup => SetupManager.settime

/-- The `security_var` of `SETLANINFO` and the two flags behind it. -/
def securityOf (saveDev : SetupManager.DevInfo) : Mem :=
  Mem.store (fun _ => 0) 0 (saveDev.security ++ [saveDev.lanEnable, saveDev.wlanEnable])

/-- `Pack_Manager` stays in its arrays with what it prints and splits of a command: it does not set
the time, and the strings that `WriteSecurityConfig` splits end in the structure. -/
def Contained (m : Manager) (c : PackCall) : Prop :=
  match m with
  | .m2m => M2MManager.Command.ofType (c.setBuffer 2) ≠ some .timeSync
  | .setup =>
      let saveDev := SetupManager.DevInfo.at c.setBuffer 4
      SetupManager.Command.ofType (c.setBuffer 2) ≠ some .timeSync ∧
        (SetupManager.Command.ofType (c.setBuffer 2) = some .setLanInfo → saveDev.wlanEnable ≠ 0 →
          (SetupManager.writeSecurityConfig (securityOf saveDev)).isSome)

instance (m : Manager) (c : PackCall) : Decidable (Contained m c) :=
  match m with
  | .m2m => inferInstanceAs (Decidable (_ ≠ _))
  | .setup => inferInstanceAs (Decidable (_ ∧ _))

/-- Every time that is set runs over `settime`. -/
theorem settime_not_contained (m : Manager) (time : M2MManager.QueryTime) :
    ¬ Mem.KeepsFrom SetTime.settimeSize (SetTime.sprintf (m.settime time)) := by
  cases m <;> exact SetTime.not_keepsFrom_dateText _ _ _ _ _ _

/-- CommManager stays in its arrays with a message: the end byte lies in `data_buff`, the bytes that
are copied fit in `cmdTlv.value`, and `remoteNodeCommand` looks at no byte behind `DataBuf[len]`. -/
def InArrays (data : TData) : Prop :=
  (0 < data.dataNum ∧ data.dataNum ≤ CommManager.dataSize) ∧
    ∀ run ∈ CommManager.receiveCommand data,
      run.cmdTlv.length.toNat ≤ CommManager.valueSize ∧
        (if run.rtrn = 0 ∧ run.cmdTlv.type = CommManager.Command.changeNodeInfo.code then 7
          else 3) ≤ data.dataNum

instance (data : TData) : Decidable (InArrays data) := inferInstanceAs (Decidable (_ ∧ _))

/-- A safe copy also stays within the bytes of the message; `InArrays` lets it read on in
`data_buff`. -/
theorem inArrays_of_commandSafe {data : TData} (h : CommManager.CommandSafe data)
    (hthree : 3 ≤ data.dataNum) (hseven : CommManager.Accepts data →
      data.dataBuff 2 = CommManager.Command.changeNodeInfo.code → 7 ≤ data.dataNum) :
    InArrays data := by
  refine ⟨h.endByte, fun run hrun => ?_⟩
  have hcopy : run.cmdTlv.value.length ≤ CommManager.valueSize :=
    (Mem.keepsFrom_store_zero_iff (f := id) (fun _ _ _ => rfl)).mp (h.copy run hrun).1
  have hfields : run.cmdTlv.value.length = run.cmdTlv.length.toNat ∧
      run.cmdTlv.type = data.dataBuff 2 := by
    unfold CommManager.receiveCommand at hrun
    split_ifs at hrun
    · cases hrun
      exact ⟨Mem.length_slice _ _ _, rfl⟩
    · cases hrun
  rw [hfields.1] at hcopy
  refine ⟨hcopy, ?_⟩
  split_ifs with hchange
  · exact hseven ⟨run, hrun, hchange.1⟩ (hfields.2.symm.trans hchange.2)
  · exact hthree

/-- The steps of the programs: a client connects to M2MManager, whose buffers then hold what the
stack held; bytes arrive at a manager; a manager makes its next `msgsnd`, which the system may
refuse; CommManager looks for a command. -/
inductive Event where
  | connect (receiveBuffer : Mem)
  | receive (m : Manager) (answers : Answers) (r : Read)
  | msgsnd (m : Manager) (allowed : Bool)
  | command

variable {capacity : ℕ}

namespace State

/-- Before any client. -/
def start (receiveBuffer : Manager → Mem) : State capacity :=
  ⟨fun m => .start (receiveBuffer m), fun _ => [], fun _ => .empty, [], [], []⟩

/-- `Socket_Manager`: one read, when `Pack_Manager` has returned; `none` where C leaves the
behaviour undefined. -/
def receive (s : State capacity) (m : Manager) (answers : Answers) (r : Read) :
    Option (State capacity) :=
  if s.sending m = [] then
    (m.socketManager.receive (s.loop m) r).bind (fun l =>
      let new := l.calls.drop (s.loop m).calls.length
      if ∀ c ∈ new, Contained m c then
        some { s with
          loop := Function.update s.loop m l
          sending := Function.update s.sending m (new.flatMap (sendings answers m))
          calls := s.calls ++ new.map (fun c => (m, c)) }
      else none)
  else some s

/-- The next `msgsnd`, in `commandM2MConfig` or `commandNodeConfig`. -/
def msgsnd (s : State capacity) (m : Manager) (allowed : Bool) : State capacity :=
  match s.sending m with
  | [] => s
  | x :: rest =>
      let r := if allowed then (s.queues x.queue).msgsnd x.data else none
      { s with
        sending := Function.update s.sending m rest
        queues := match r with
          | none => s.queues
          | some q => Function.update s.queues x.queue q
        sent := match x.queue with
          | .m2mid => s.sent ++ [⟨m, x.call, r.isSome⟩]
          | .eventid => s.sent }

/-- The command branch in the loop of CommManager; `none` where it leaves its arrays. -/
def command (s : State capacity) : Option (State capacity) :=
  match (s.queues .m2mid).msgrcv TData.dataType 1 with
  | none => some s
  | some (data, q) =>
      if InArrays data then
        some { s with
          queues := Function.update s.queues .m2mid q
          line := s.line ++
            ((CommManager.receiveCommand data).map CommManager.CommandRun.writes).getD [] }
      else none

def step (s : State capacity) : Event → Option (State capacity)
  | .connect receiveBuffer =>
      if s.sending .m2m = [] then
        some { s with loop := Function.update s.loop .m2m (.start receiveBuffer) }
      else some s
  | .receive m answers r => s.receive m answers r
  | .msgsnd m allowed => some (s.msgsnd m allowed)
  | .command => s.command

/-- The steps of the programs, in whatever order they are made. -/
def run : State capacity → List Event → Option (State capacity)
  | s, [] => some s
  | s, e :: es => (s.step e).bind (fun s => run s es)

end State

end IdcuIot.RemoteCommand
