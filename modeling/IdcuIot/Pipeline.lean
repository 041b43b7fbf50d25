import IdcuIot.Driver.IdcuMessages
import IdcuIot.Driver.Poller
import IdcuIot.IoTManager.IoStatus
import IdcuIot.IoTManager.Tcp
import IdcuIot.Lib.MessageQueue
import IdcuIot.TagServer
import IdcuIot.Transport

/-! # From the bridge to the middleware

The counts of the bridge go through three programs.  IoTManager saves those of a report in the
database and sends them to the driver of iDCU_IoT when that asks for them; the driver puts the
difference to the count before on the queue; tagServer takes the messages from the queue and sends
them to the middleware.

A `Pipeline` is these programs and what is between them: the replies on the connection, one of them
for each `recv` of the driver, and the queue.  Reports, requests, replies and turns of tagServer come
in any order, and everything may fail: the statements of a transaction, the queries, the connection,
`msgsnd` and `send`.  Other drivers use the same queue. -/

namespace IdcuIot

open Memory Transaction SqliteManager Driver

/-- What a payload tells the middleware to add. -/
def payloadQuantity (payload : List UInt8) : ℤ := quantity (message payload)

/-- The three programs, what is between them, and what happened so far. -/
structure Pipeline (capacity : ℕ) where
  manager : IoTManager.State
  /-- The replies that IoTManager has sent and the driver has not read. -/
  inFlight : List (List UInt8)
  tag : TagState
  queue : MessageQueue TData capacity
  server : TagServer.State
  /-- The counts of the first port that IoTManager has taken in: from the table when it starts, and
  from reports. -/
  known : List UInt32
  /-- The counts that the driver was given. -/
  seen : List UInt32
  /-- The messages that were put on the queue, and those taken from it. -/
  queued : List TData
  taken : List TData

namespace Pipeline

/-- What happens next. -/
inductive Event where
  /-- IoTManager receives a report of the bridge. -/
  | report (r : IoTManager.Report)
  /-- IoTManager starts again; `rc` is the outcome of its query. -/
  | restart (rc : Rc)
  /-- IoTManager receives a request of the driver, in buffers that hold anything. -/
  | request (setBuffer cvalue : Mem) (sendType : Bool) (rc : Rc)
  /-- The driver receives the next reply, in buffers that hold anything. -/
  | reply (byteBuffer cvalue : Mem) (sensingTime : UInt32)
  /-- The connection breaks. -/
  | reconnect
  /-- The driver starts again. -/
  | driverStart
  /-- Another driver sends a message, about something else. -/
  | other (data : TData) (quiet : payloadQuantity data.bytes = 0)
  /-- One turn of tagServer; its message is the first of the queue. -/
  | turn (t : TagServer.Turn)

variable {capacity : ℕ}

/-- The counts of the first port in a table. -/
def counts (rows : List Row) : List UInt32 :=
  rows.map (fun row => count ((List.ofFn row).headD []))

theorem counts_singleton (row : Row) : counts [row] = [count (row 0)] := rfl

/-- The count of the first port in a reply. -/
def countsIn (reply : List UInt8) : List UInt32 :=
  if reply.getD 7 0 = 4 then [countOf (fun k => reply.getD (9 + k) 0)] else []

/-- `msgsnd` with `IPC_NOWAIT`: a message for a full queue is lost. -/
def put (s : Pipeline capacity) (data : TData) : Pipeline capacity :=
  match s.queue.msgsnd data with
  | none => s
  | some queue => { s with queue := queue, queued := s.queued ++ [data] }

/-- What IoTManager writes to the connection for a command; the clearing of a count goes to the
bridge. -/
def answer (manager : IoTManager.State) (rc : Rc) : IoTManager.TcpCommand → List (List UInt8)
  | .getIOStatus => [IoTManager.getIOStatus manager.io]
  | .getCommStatus => (IoTManager.getCommStatus manager.db rc).toList
  | .setCountClear _ => []

/-- A call of `selectTag_iDCU_IoT` as a reading. -/
def reading (s : Pipeline capacity) (sensingTime : UInt32) (c : SelectCall) : Reading :=
  ⟨c.type, c.byteBuffer, sensingTime, decide s.queue.HasRoom⟩

/-- `selectTag_iDCU_IoT`, with its `msgsnd`. -/
def select (sensingTime : UInt32) (s : Pipeline capacity) (c : SelectCall) : Pipeline capacity :=
  let r := s.reading sensingTime c
  let seen := s.seen ++ if r.type = 4 then [r.count] else []
  (s.tag.message r).toList.foldl put { s with tag := s.tag.next r, seen := seen }

/-- One step; a step that is not possible changes nothing. -/
def step (s : Pipeline capacity) : Event → Pipeline capacity
  | .report r =>
      match IoTManager.receiveEvent s.manager r with
      | none => s
      | some manager =>
          { s with
            manager := manager
            known := s.known ++ if r.Counts then [IoTManager.cntAt r.buffer 4] else [] }
  | .restart rc =>
      { s with
        manager := (IoTManager.init (IoTManager.boot ⟨s.manager.db.store.restart, []⟩) rc).2
        known := s.known ++ counts s.manager.db.store.committed }
  | .request setBuffer cvalue sendType rc =>
      let sendBuf := Polling.idcuIot.sendBuf sendType
      let p := IoTManager.parsingReceiveValue setBuffer (cvalue.store 0 sendBuf) sendBuf.length 0
      { s with
        inFlight := s.inFlight ++ p.calls.flatMap (fun c =>
          (IoTManager.commandProcess c.setBuffer).elim [] (answer s.manager rc)) }
  | .reply byteBuffer cvalue sensingTime =>
      match s.inFlight with
      | [] => s
      | reply :: inFlight =>
          let p := Driver.parsingReceiveValue byteBuffer (cvalue.store 0 reply) reply.length 0
          p.calls.foldl (select sensingTime) { s with inFlight := inFlight }
  | .reconnect => { s with inFlight := [] }
  | .driverStart => { s with inFlight := [], tag := .start }
  | .other data _ => s.put data
  | .turn t =>
      match s.queue.msgrcvFirst with
      | none => s
      | some (data, queue) =>
          { s with
            queue := queue
            taken := s.taken ++ [data]
            server := ((TagServer.mainLoop { t with message := some data }).run s.server).2 }

/-- The start of the programs, with one row in the table and an empty queue: `none` when tagServer
gives up. -/
def start (capacity : ℕ) (row : Row) (outcomes : ℕ → TagServer.InitOutcome) :
    Option (Pipeline capacity) :=
  let r := (TagServer.startUp outcomes 3).run TagServer.start
  if r.1 then
    some
      { manager := (IoTManager.init (IoTManager.boot ⟨⟨[row], none⟩, []⟩) .ok).2
        inFlight := []
        tag := .start
        queue := .empty
        server := r.2
        known := counts [row]
        seen := []
        queued := []
        taken := [] }
  else none

/-- The pipeline after a sequence of steps. -/
def run (s : Pipeline capacity) (events : List Event) : Pipeline capacity := events.foldl step s

/-- The payloads that reached the middleware. -/
def delivered (s : Pipeline capacity) : List (List UInt8) := TagServer.delivered s.server.trace

/-- What the middleware was told to add. -/
def told (s : Pipeline capacity) : ℤ := (s.delivered.map payloadQuantity).sum

end Pipeline

end IdcuIot
