import IdcuIot.Lib.Hoare
import IdcuIot.TcpSocket

/-! # ETRI registration

`ETRI_Registration` announces the gate node, the PAN, the sensor node and the transducers of
the driver database to the middleware, one message at a time; `ETRI_Deregistration` takes
them back in the opposite order.  Every message goes through `sender`, and the first one
that fails ends the procedure.

The programs run over a connection (`Conn`) that records each call of `sender` with the
answer of the system to it, and counts the database handles that are open. -/

namespace IdcuIot.Etri

open TcpSocket Hoare

/-- The messages; a transducer is given by its row in `transducerinfo`. -/
inductive Packet where
  | gateNodeRegistration
  | panRegistration
  | sensorNodeRegistration
  | transducerRegistration (row : ℕ)
  | gateNodeDeregistration
  | panDeregistration
  | sensorNodeDeregistration
  | transducerDeregistration (row : ℕ)
deriving DecidableEq, Repr

/-- One call of `sender`. -/
structure Step where
  packet : Packet
  answer : Answer
  rtrn : ℤ

/-- The connection: the calls of `sender` so far, and the number of open database handles. -/
structure Conn where
  steps : List Step
  handles : ℕ

/-- What the system answers. -/
structure System where
  /-- Result of `IoT_sqlite3_open`. -/
  openRc : ℤ
  /-- Whether `select count(*)` gives a result; the count is the number of rows. -/
  counted : Bool
  /-- Number of rows that the other `select` gives, unless it fails or gives none. -/
  rows : Option ℕ
  /-- What an uninitialised local variable holds. -/
  uninitialised : ℤ
  /-- The answer to the `k`-th call of `sender`. -/
  answers : ℕ → Answer

variable (sys : System)

/-- `sender( tcp, packet, size )`. -/
def senderTo (p : Packet) : StateM Conn ℤ := do
  let a := sys.answers (← get).steps.length
  modify (fun c => { c with steps := c.steps ++ [⟨p, a, sender a⟩] })
  return sender a

/-- `IoT_sqlite3_open` and `IoT_sqlite3_close`. -/
def sqlite3Open : StateM Conn ℤ := do
  if sys.openRc = 0 then modify (fun c => { c with handles := c.handles + 1 })
  return sys.openRc

def sqlite3Close : StateM Conn Unit := modify (fun c => { c with handles := c.handles - 1 })

/-! ### Registration -/

/-- `GateNode_Description_Registration`. -/
def gateNodeDescriptionRegistration : StateM Conn ℤ := senderTo sys .gateNodeRegistration

/-- `PAN_Description_Registration`. -/
def panDescriptionRegistration : StateM Conn ℤ := senderTo sys .panRegistration

/-- `SensorNode_Description_Registration`. -/
def sensorNodeDescriptionRegistration : StateM Conn ℤ := senderTo sys .sensorNodeRegistration

/-- The loop `while( selectCount )` of `Transducer_Description_Registration`. -/
def registerTransducers : ℕ → ℤ → StateM Conn ℤ
  | 0, rtrn => return rtrn
  | selectCount + 1, _ => do
      let rtrn ← senderTo sys (.transducerRegistration selectCount)
      if rtrn = 0 then registerTransducers selectCount rtrn else return -1

/-- `Transducer_Description_Registration`: without rows `rtrn` is never assigned. -/
def transducerDescriptionRegistration : StateM Conn ℤ :=
  let selectCount := if sys.counted then sys.rows.getD 0 else 0
  registerTransducers sys selectCount sys.uninitialised

/-- `ETRI_Registration`. -/
def etriRegistration : StateM Conn ℤ := do
  let rc ← sqlite3Open sys
  if rc ≠ 0 then return -1
  if (← gateNodeDescriptionRegistration sys) = -1 then return -1
  if (← panDescriptionRegistration sys) = -1 then return -1
  if (← sensorNodeDescriptionRegistration sys) = -1 then return -1
  if (← transducerDescriptionRegistration sys) = -1 then return -1
  sqlite3Close
  return 0

/-! ### Deregistration -/

/-- `GateNode_Description_Deregistration`. -/
def gateNodeDescriptionDeregistration : StateM Conn ℤ := senderTo sys .gateNodeDeregistration

/-- `PAN_Description_Deregistration`. -/
def panDescriptionDeregistration : StateM Conn ℤ := senderTo sys .panDeregistration

/-- `SensorNode_Description_Deregistration`. -/
def sensorNodeDescriptionDeregistration : StateM Conn ℤ := senderTo sys .sensorNodeDeregistration

/-- The loop `while( count )` of `Transducer_Description_Deregistration`; `rtrn` is unsigned and
has 16 bits. -/
def deregisterTransducers : ℕ → UInt16 → StateM Conn UInt16
  | 0, rtrn => return rtrn
  | count + 1, _ => do
      let rtrn := UInt16.ofInt (← senderTo sys (.transducerDeregistration count))
      if rtrn = 0 then deregisterTransducers count rtrn else return UInt16.ofInt (-1)

/-- `Transducer_Description_Deregistration`. -/
def transducerDescriptionDeregistration : StateM Conn ℤ := do
  let count := sys.rows.getD 0
  let rtrn ← deregisterTransducers sys count (UInt16.ofInt sys.uninitialised)
  return rtrn.toNat

/-- `ETRI_Deregistration`. -/
def etriDeregistration : StateM Conn ℤ := do
  let rc ← sqlite3Open sys
  if rc ≠ 0 then return -1
  if (← transducerDescriptionDeregistration sys) = -1 then return -1
  if (← sensorNodeDescriptionDeregistration sys) = -1 then return -1
  if (← panDescriptionDeregistration sys) = -1 then return -1
  if (← gateNodeDescriptionDeregistration sys) = -1 then return -1
  sqlite3Close
  return 0

/-! ### What the steps report -/

/-- No call of `sender` breaks the property. -/
def Steady (I : Conn → Prop) : Prop :=
  ∀ c p a, I c → I { c with steps := c.steps ++ [⟨p, a, sender a⟩] }

section
variable {I : Conn → Prop} (hI : Steady I)
include hI

theorem Steady.senderTo (p : Packet) : Keeps I (senderTo sys p) := fun c hc => hI c p _ hc

theorem Steady.registerTransducers (selectCount : ℕ) (rtrn : ℤ) :
    Keeps I (registerTransducers sys selectCount rtrn) := by
  induction selectCount generalizing rtrn with
  | zero => exact Keeps.pure rtrn
  | succ selectCount ih =>
      apply Keeps.bind (hI.senderTo sys _)
      intro rtrn'
      exact Keeps.ite (ih rtrn') (Keeps.pure _)

theorem Steady.deregisterTransducers (count : ℕ) (rtrn : UInt16) :
    Keeps I (deregisterTransducers sys count rtrn) := by
  induction count generalizing rtrn with
  | zero => exact Keeps.pure rtrn
  | succ count ih =>
      apply Keeps.bind (hI.senderTo sys _)
      intro r
      exact Keeps.ite (ih _) (Keeps.pure _)

theorem Steady.transducerDescriptionDeregistration :
    Keeps I (transducerDescriptionDeregistration sys) :=
  Keeps.bind (hI.deregisterTransducers sys _ _) (fun _ => Keeps.pure _)

end

/-- The result recorded for a step is that of `sender`. -/
def Faithful (c : Conn) : Prop := ∀ step ∈ c.steps, step.rtrn = sender step.answer

theorem steady_faithful : Steady Faithful := by
  intro c p a hc step hstep
  rcases List.mem_append.mp hstep with h | h
  · exact hc step h
  · rw [List.mem_singleton.mp h]

theorem keeps_sqlite3Open : Keeps Faithful (sqlite3Open sys) := by
  unfold sqlite3Open
  have hopen : Keeps Faithful
      (modify (fun c : Conn => { c with handles := c.handles + 1 }) : StateM Conn Unit) :=
    Keeps.modify fun _ h => h
  exact Keeps.ite (Keeps.bind hopen (fun _ => Keeps.pure _)) (Keeps.pure _)

theorem keeps_sqlite3Close : Keeps Faithful sqlite3Close := Keeps.modify fun _ h => h

/-- A step that ends the procedure with `-1` when it fails. -/
theorem keeps_step {m : StateM Conn ℤ} {p : ℤ → Prop} [DecidablePred p] {rest : StateM Conn ℤ}
    (hm : Keeps Faithful m) (hrest : Keeps Faithful rest) :
    Keeps Faithful (do
      let rtrn ← m
      if p rtrn then return -1
      rest) := by
  apply Keeps.bind hm
  intro rtrn
  exact Keeps.ite (Keeps.pure _) hrest

theorem keeps_close : Keeps Faithful (do
    sqlite3Close
    return (0 : ℤ)) := by
  apply Keeps.bind keeps_sqlite3Close
  intro _
  exact Keeps.pure _

theorem keeps_etriRegistration : Keeps Faithful (etriRegistration sys) := by
  apply keeps_step (keeps_sqlite3Open sys)
  apply keeps_step (steady_faithful.senderTo sys _)
  apply keeps_step (steady_faithful.senderTo sys _)
  apply keeps_step (steady_faithful.senderTo sys _)
  apply keeps_step (steady_faithful.registerTransducers sys _ _)
  exact keeps_close

theorem keeps_etriDeregistration : Keeps Faithful (etriDeregistration sys) := by
  apply keeps_step (keeps_sqlite3Open sys)
  apply keeps_step (steady_faithful.transducerDescriptionDeregistration sys)
  apply keeps_step (steady_faithful.senderTo sys _)
  apply keeps_step (steady_faithful.senderTo sys _)
  apply keeps_step (steady_faithful.senderTo sys _)
  exact keeps_close

/-- The steps that a procedure takes on a new connection. -/
def stepsOf (procedure : StateM Conn ℤ) : List Step := (procedure.run ⟨[], 0⟩).2.steps

/-- Every step that is reported as successful was answered by the peer. -/
def Acknowledged (steps : List Step) : Prop :=
  ∀ step ∈ steps, step.rtrn = 0 → Answered step.answer

theorem acknowledged_iff {procedure : StateM Conn ℤ} (h : Keeps Faithful procedure) :
    Acknowledged (stepsOf procedure) ↔ ∀ step ∈ stepsOf procedure, ¬ Silent step.answer := by
  have hsteps : Faithful (procedure.run ⟨[], 0⟩).2 := h _ (fun step hstep => by cases hstep)
  apply forall₂_congr
  intro step hstep
  rw [hsteps step hstep]
  exact answered_of_sender_iff step.answer

/-- **When acknowledgements are real**: `sender` returns `0` only for answered messages, and in
a registration or a deregistration the steps reported as successful were answered, exactly when
no answer is silent. -/
theorem acknowledged_iff_not_silent (a : Answer) (sys : System) :
    ((sender a = 0 → Answered a) ↔ ¬ Silent a) ∧
    (Acknowledged (stepsOf (etriRegistration sys)) ↔
      ∀ step ∈ stepsOf (etriRegistration sys), ¬ Silent step.answer) ∧
    (Acknowledged (stepsOf (etriDeregistration sys)) ↔
      ∀ step ∈ stepsOf (etriDeregistration sys), ¬ Silent step.answer) :=
  ⟨answered_of_sender_iff a, acknowledged_iff (keeps_etriRegistration sys),
    acknowledged_iff (keeps_etriDeregistration sys)⟩

/-- A message of 58 bytes is sent, and the middleware closes the connection. -/
def closedByPeer : Answer := ⟨58, 1, 0, by decide⟩

/-- The message counts as acknowledged although nothing was received. -/
theorem acknowledged_wrong : ¬
    ((∀ a : Answer, sender a = 0 → Answered a) ∧
    (∀ sys : System, Acknowledged (stepsOf (etriRegistration sys))) ∧
    ∀ sys : System, Acknowledged (stepsOf (etriDeregistration sys))) := by
  rintro ⟨h, -⟩
  have hclosed := h closedByPeer (by decide)
  exact absurd hclosed.2.2 (by decide)

end IdcuIot.Etri
