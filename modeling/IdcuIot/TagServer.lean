import IdcuIot.Lib.Hoare
import IdcuIot.Shared

/-! # tagServer

`main` takes messages from the queue of the drivers and sends each as a Sensing Value Report
to the middleware.  `init` connects and registers, with up to three tries for the
registration; at start-up `main` calls it up to three times, and calls it again whenever a
`send` fails.

The state is the socket and what was read from `env.reg`; `trace` records what happened on
the sockets.  The outcomes of the system calls are parameters: of one call of `init`
(`InitOutcome`) and of one turn of the main loop (`Turn`). -/

namespace IdcuIot.TagServer

open Hoare

/-- `Struct_SensingValueReport`; `transducerInfo` lists the `data_num` bytes that are sent of
`Transducer_Info`. -/
structure SensingValueReport where
  messageId : UInt16
  length : UInt16
  commandId : UInt32
  gateNodeId : UInt16
  panId : UInt16
  sensorNodeId : UInt16
  transferTime : UInt32
  transducerInfo : List UInt8
deriving DecidableEq

/-- `SENSING_VALUE_REPORT_HEAD_SIZE`. -/
def sensingValueReportHeadSize : ℕ := 18

/-- What happens on the sockets. -/
inductive SocketEvent where
  /-- `TCPClient` returned. -/
  | connect (tcp : ℤ)
  /-- `ETRI_Registration` returned `rtrn` on a socket. -/
  | register (tcp rtrn : ℤ)
  | close (tcp : ℤ)
  /-- `send` of a report returned `rtrn`. -/
  | send (tcp : ℤ) (pac : SensingValueReport) (rtrn : ℤ)

/-- The globals of `tagServer.c`, and what happened so far. -/
structure State where
  tcp : ℤ
  env : ReadEnv
  trace : List SocketEvent

/-- What the system answers to one call of `init`. -/
structure InitOutcome where
  /-- What `ReadEnvConfig` makes of `env`. -/
  config : ReadEnv → ReadEnv
  /-- Results of `TCPClient` and of `ETRI_Registration` when `reTry` tries are left. -/
  tcpClient : ℕ → ℤ
  registration : ℕ → ℤ

/-- Append to the trace. -/
def record (e : SocketEvent) : StateM State Unit :=
  modify (fun s => { s with trace := s.trace ++ [e] })

/-- `tcp = value`. -/
def setTcp (value : ℤ) : StateM State Unit := modify (fun s => { s with tcp := value })

/-- `close( tcp ); tcp = -1;` -/
def closeTcp : StateM State Unit := do
  record (.close (← get).tcp)
  setTcp (-1)

/-- The loop of `init`, `reTry` tries being left. -/
def initLoop (o : InitOutcome) : ℕ → StateM State ℤ
  | 0 => return 0
  | reTry + 1 => do
      if ¬ 0 < (← get).tcp then
        setTcp (o.tcpClient reTry)
        record (.connect (o.tcpClient reTry))
        if o.tcpClient reTry < 0 then return -1
      record (.register (← get).tcp (o.registration reTry))
      if o.registration reTry = -1 then
        if reTry = 0 then
          closeTcp
          return -1
        else initLoop o reTry
      else return 0

/-- `init`. -/
def init (o : InitOutcome) : StateM State ℤ := do
  modify (fun s => { s with env := o.config s.env })
  initLoop o 3

/-- The start-up loop of `main`, `reTry` tries being left: whether the main loop is reached. -/
def startUp (outcomes : ℕ → InitOutcome) : ℕ → StateM State Bool
  | 0 => return false
  | reTry + 1 => do
      if (← init (outcomes reTry)) = -1 then
        if reTry = 0 then return false else startUp outcomes reTry
      else return true

/-- One turn of the main loop: the message that `msgrcv` takes from the queue, the time, the
result of `send`, and the outcome of the call of `init` if there is one. -/
structure Turn where
  message : Option TData
  transferTime : UInt32
  send : ℤ
  init : InitOutcome

/-- The report `pac` for a message. -/
def report (env : ReadEnv) (transferTime : UInt32) (data : TData) : SensingValueReport :=
  { messageId := 0x09
    length := UInt16.ofNat (sensingValueReportHeadSize - 4 + data.dataNum)
    commandId := 0xFFFFFFFF
    gateNodeId := env.gatenode
    panId := env.pan
    sensorNodeId := env.sensornode
    transferTime := transferTime
    transducerInfo := data.bytes }

/-- What the main loop does with a message of type 1: the message is sent once; the result of
`init` is not looked at. -/
def sendReport (t : Turn) (data : TData) : StateM State Unit := do
  let s ← get
  record (.send s.tcp (report s.env t.transferTime data) t.send)
  if t.send = -1 then
    closeTcp
    let _ ← TagServer.init t.init

/-- The main loop for one turn; what `recv` reads is only printed. -/
def mainLoop (t : Turn) : StateM State Unit :=
  match t.message with
  | none => return ()
  | some data => if data.dataType = 1 then sendReport t data else return ()

/-- Several turns. -/
def run (s : State) (turns : List Turn) : State := turns.foldl (fun s t => ((mainLoop t).run s).2) s

/-- The globals at the start of the program. -/
def start : State := ⟨0, ⟨0, 0, [], [], 0, 0, 0, 0, 0⟩, []⟩

/-- `main`: `none` when the start-up gives up. -/
def main (outcomes : ℕ → InitOutcome) (turns : List Turn) : Option State :=
  let r := (startUp outcomes 3).run start
  if r.1 then some (run r.2 turns) else none

/-! ### What is delivered -/

/-- The payloads of the successful sends. -/
def delivered (trace : List SocketEvent) : List (List UInt8) :=
  trace.filterMap (fun
    | .send _ pac rtrn => if rtrn = -1 then none else some pac.transducerInfo
    | _ => none)

/-- The payloads of the messages of type 1 taken from the queue. -/
def dequeued (turns : List Turn) : List (List UInt8) :=
  turns.filterMap (fun t => t.message.bind (fun d => if d.dataType = 1 then some d.bytes else none))

theorem delivered_append (trace trace' : List SocketEvent) :
    delivered (trace ++ trace') = delivered trace ++ delivered trace' := List.filterMap_append

section
variable {d : List (List UInt8)}

theorem keeps_record {e : SocketEvent} (he : delivered [e] = []) :
    Keeps (fun s => delivered s.trace = d) (record e) :=
  Keeps.modify (fun s hs => by rw [delivered_append, he, List.append_nil, hs])

theorem keeps_setTcp (value : ℤ) : Keeps (fun s => delivered s.trace = d) (setTcp value) :=
  Keeps.modify fun _ h => h

theorem keeps_closeTcp : Keeps (fun s => delivered s.trace = d) closeTcp :=
  Keeps.bind Keeps.get (fun _ => Keeps.bind (keeps_record rfl) (fun _ => keeps_setTcp _))

theorem keeps_initLoop (o : InitOutcome) (reTry : ℕ) :
    Keeps (fun s => delivered s.trace = d) (initLoop o reTry) := by
  induction reTry with
  | zero => exact Keeps.pure _
  | succ reTry ih =>
      have hregister : Keeps (fun s => delivered s.trace = d) (do
          record (.register (← get).tcp (o.registration reTry))
          if o.registration reTry = -1 then
            if reTry = 0 then
              closeTcp
              return -1
            else initLoop o reTry
          else return 0) := by
        apply Keeps.bind Keeps.get
        intro s
        apply Keeps.bind (keeps_record rfl)
        intro _
        refine Keeps.ite (Keeps.ite ?_ ih) (Keeps.pure _)
        exact Keeps.bind keeps_closeTcp (fun _ => Keeps.pure _)
      apply Keeps.bind Keeps.get
      intro s
      refine Keeps.ite ?_ hregister
      apply Keeps.bind (keeps_setTcp _)
      intro _
      exact Keeps.bind (keeps_record rfl) (fun _ => Keeps.ite (Keeps.pure _) hregister)

theorem keeps_init (o : InitOutcome) : Keeps (fun s => delivered s.trace = d) (init o) :=
  Keeps.bind (Keeps.modify fun _ h => h) (fun _ => keeps_initLoop o 3)

theorem keeps_startUp (outcomes : ℕ → InitOutcome) (reTry : ℕ) :
    Keeps (fun s => delivered s.trace = d) (startUp outcomes reTry) := by
  induction reTry with
  | zero => exact Keeps.pure _
  | succ reTry ih =>
      apply Keeps.bind (keeps_init _)
      intro rtrn
      exact Keeps.ite (Keeps.ite (Keeps.pure _) ih) (Keeps.pure _)

end

/-- What one turn delivers. -/
def Turn.delivery (t : Turn) : Option (List UInt8) :=
  t.message.bind (fun d =>
    if d.dataType = 1 then if t.send = -1 then none else some d.bytes else none)

theorem delivered_send (tcp : ℤ) (pac : SensingValueReport) (rtrn : ℤ) :
    delivered [.send tcp pac rtrn] = if rtrn = -1 then [] else [pac.transducerInfo] := by
  unfold delivered
  split_ifs with h <;> simp [h]

theorem delivered_sendReport (t : Turn) (data : TData) (d : List (List UInt8)) :
    Triple (fun s => delivered s.trace = d) (sendReport t data) (fun _ s =>
      delivered s.trace = d ++ if t.send = -1 then [] else [data.bytes]) := by
  refine Triple.bind Triple.get (fun s => ?_)
  have hsend : Triple (fun s' => s = s' ∧ delivered s'.trace = d)
      (record (.send s.tcp (report s.env t.transferTime data) t.send)) (fun _ s' =>
        delivered s'.trace = d ++ if t.send = -1 then [] else [data.bytes]) := by
    apply Triple.modify
    rintro s' ⟨-, hs'⟩
    rw [delivered_append, delivered_send, hs', report]
  refine Triple.bind hsend (fun _ => Keeps.ite ?_ (Keeps.pure ()))
  exact Keeps.bind keeps_closeTcp (fun _ => Keeps.bind (keeps_init _) (fun _ => Keeps.pure ()))

theorem delivered_mainLoop (t : Turn) (s : State) :
    delivered ((mainLoop t).run s).2.trace = delivered s.trace ++ t.delivery.toList := by
  unfold mainLoop Turn.delivery
  cases t.message with
  | none => exact (List.append_nil _).symm
  | some data =>
      by_cases htype : data.dataType = 1
      · have hsend := delivered_sendReport t data _ s rfl
        simp only [htype, if_true, Option.bind_some]
        rw [hsend]
        split_ifs <;> rfl
      · simp only [htype, if_false, Option.bind_some]
        exact (List.append_nil _).symm

theorem delivered_run (s : State) (turns : List Turn) :
    delivered (run s turns).trace = delivered s.trace ++ turns.filterMap Turn.delivery := by
  induction turns generalizing s with
  | nil => exact (List.append_nil _).symm
  | cons t turns ih =>
      rw [run, List.foldl_cons, ← run, ih, delivered_mainLoop, List.append_assoc,
        List.filterMap_cons]
      cases t.delivery <;> rfl

theorem delivered_main {outcomes : ℕ → InitOutcome} {turns : List Turn} {s : State}
    (h : main outcomes turns = some s) : delivered s.trace = turns.filterMap Turn.delivery := by
  have hstart : delivered ((startUp outcomes 3).run start).2.trace = [] :=
    keeps_startUp outcomes 3 start rfl
  simp only [main] at h
  split_ifs at h
  obtain rfl := Option.some.inj h
  rw [delivered_run, hstart, List.nil_append]

/-- The message of a turn is one to be reported. -/
def Turn.Reports (t : Turn) : Prop := ∃ data, t.message = some data ∧ data.dataType = 1

theorem dequeued_cons (t : Turn) (turns : List Turn) :
    (t.Reports ∧ ∃ data, dequeued (t :: turns) = data :: dequeued turns ∧
        t.delivery = if t.send = -1 then none else some data) ∨
      (¬ t.Reports ∧ dequeued (t :: turns) = dequeued turns ∧ t.delivery = none) := by
  unfold Turn.Reports Turn.delivery dequeued
  cases hm : t.message with
  | none => simp [hm]
  | some data =>
      by_cases htype : data.dataType = 1 <;> simp [hm, htype]

theorem delivery_sublist (turns : List Turn) :
    (turns.filterMap Turn.delivery).Sublist (dequeued turns) := by
  induction turns with
  | nil => exact List.Sublist.slnil
  | cons t turns ih =>
      rw [List.filterMap_cons]
      rcases dequeued_cons t turns with ⟨-, data, hd, hdel⟩ | ⟨-, hd, hdel⟩
      · rw [hd, hdel]
        split_ifs with hsend
        · exact ih.cons data
        · exact ih.cons_cons data
      · rw [hd, hdel]
        exact ih

theorem delivery_eq_iff (turns : List Turn) :
    turns.filterMap Turn.delivery = dequeued turns ↔ ∀ t ∈ turns, t.Reports → t.send ≠ -1 := by
  induction turns with
  | nil => simp [dequeued]
  | cons t turns ih =>
      rw [List.filterMap_cons, List.forall_mem_cons, ← ih]
      rcases dequeued_cons t turns with ⟨ht, data, hd, hdel⟩ | ⟨ht, hd, hdel⟩
      · rw [hd, hdel]
        by_cases hsend : t.send = -1
        · have hlen := (delivery_sublist turns).length_le
          simp only [hsend, if_true, ht, true_imp_iff, ne_eq, not_true_eq_false, false_and,
            iff_false]
          intro heq
          have := congrArg List.length heq
          rw [List.length_cons] at this
          omega
        · simp [hsend, ht]
      · rw [hd, hdel]
        simp [ht]

/-- **When no report is lost**: the payloads of the successful sends are those of the messages
of type 1 taken from the queue, in their order, exactly when no `send` of a report fails. -/
theorem delivered_eq_dequeued_iff (outcomes : ℕ → InitOutcome) (turns : List Turn) (s : State)
    (h : main outcomes turns = some s) :
    delivered s.trace = dequeued turns ↔ ∀ t ∈ turns, t.Reports → t.send ≠ -1 := by
  rw [delivered_main h, delivery_eq_iff]

/-- A connection and a registration that succeed at once. -/
def connects : InitOutcome := ⟨id, fun _ => 5, fun _ => 0⟩

/-- One report; its `send` fails and the connection is set up again. -/
def brokenTurn : Turn := ⟨some (TData.ofBuffer 1 (fun _ => 7) 1), 0, -1, connects⟩

theorem delivered_eq_dequeued_broken : ∃ s, main (fun _ => connects) [brokenTurn] = some s ∧
    (delivered s.trace = dequeued [brokenTurn] ↔
      ∀ t ∈ [brokenTurn], t.Reports → t.send ≠ -1) :=
  ⟨_, rfl, delivered_eq_dequeued_iff (fun _ => connects) [brokenTurn] _ rfl⟩

/-- The report whose `send` failed is never sent again. -/
theorem delivered_lost : ¬ ∀ (outcomes : ℕ → InitOutcome) (turns : List Turn) (s : State),
    main outcomes turns = some s → delivered s.trace = dequeued turns := by
  intro h
  have hlost := h (fun _ => connects) [brokenTurn] _ rfl
  revert hlost
  decide

end IdcuIot.TagServer
