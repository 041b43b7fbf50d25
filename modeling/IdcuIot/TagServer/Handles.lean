import IdcuIot.Etri.Result
import IdcuIot.TagServer

/-! # The database handles of tagServer

`ETRI_Registration` and `ETRI_Deregistration` open the driver database first and close it last,
and each has four returns in between, for messages that fail.  `init` calls the registration up to
three times, and is called again and again while the middleware is out of reach, so that the
handles left open add up (`left_startUp`).

A `Process` is the state of `tagServer` with its open handles and the calls of
`ETRI_Registration` made so far; without these it runs as before (`simulates_main`). -/

namespace IdcuIot.Etri

open Hoare

/-! ### One call -/

/-- The open handles after a procedure. -/
def handlesAfter (procedure : StateM Conn ℤ) (handles : ℕ) : ℕ :=
  (procedure.run ⟨[], handles⟩).2.handles

/-- The database is not opened, or every message of the registration is confirmed, and the
variable that is returned without transducers does not hold `-1`. -/
def System.ClosesRegistration (sys : System) : Prop :=
  sys.openRc ≠ 0 ∨ ¬ Stray sys ∧ Succeed sys 0 (3 + sys.selected)

/-- The database is not opened, or the three messages that follow those for the transducers are
confirmed. -/
def System.ClosesDeregistration (sys : System) : Prop :=
  sys.openRc ≠ 0 ∨ Succeed sys
    (attempts sys (transducers .transducerDeregistration (sys.rows.getD 0)) 0).length 3

/-- The procedure closes one handle when it returns `0`, and none otherwise. -/
def Closing (m : StateM Conn ℤ) : Prop :=
  ∀ c, (m.run c).2.handles = if (m.run c).1 = 0 then c.handles - 1 else c.handles

section
variable {sys : System} {m rest : StateM Conn ℤ}

theorem steady_handles (n : ℕ) : Steady (fun c => c.handles = n) := fun _ _ _ h => h

theorem closing_close : Closing (do
    sqlite3Close
    return 0) := fun _ => rfl

theorem Closing.andThen (hm : ∀ n, Keeps (fun c => c.handles = n) m) (hrest : Closing rest) :
    Closing (andThen m rest) := by
  intro c
  have hkeeps : (m.run c).2.handles = c.handles := hm c.handles c rfl
  rw [andThen_run]
  split_ifs with hfailed hzero
  · cases hzero
  · exact hkeeps
  · rw [hrest, if_pos (by assumption), hkeeps]
  · rw [hrest, if_neg (by assumption), hkeeps]

theorem closing_registration (sys : System) : Closing (registration sys) :=
  .andThen (fun n => (steady_handles n).senderTo sys _) <|
  .andThen (fun n => (steady_handles n).senderTo sys _) <|
  .andThen (fun n => (steady_handles n).senderTo sys _) <|
  .andThen (fun n => (steady_handles n).registerTransducers sys _ _) closing_close

theorem closing_deregistration (sys : System) : Closing (deregistration sys) :=
  .andThen (fun n => (steady_handles n).senderTo sys _) <|
  .andThen (fun n => (steady_handles n).senderTo sys _) <|
  .andThen (fun n => (steady_handles n).senderTo sys _) closing_close

/-- The result of a registration once the database is open. -/
theorem registration_eq_zero_iff (n : ℕ) : ((registration sys).run ⟨[], n⟩).1 = 0 ↔
    ¬ Stray sys ∧ Succeed sys 0 (3 + sys.selected) := by
  by_cases hstray : Stray sys
  · obtain ⟨-, hdone, hfailed⟩ := performs_registration_of_stray hstray ⟨[], n⟩
    have hresult := (em _).elim hdone hfailed
    simp [hstray, hresult]
  · obtain ⟨-, hdone, hfailed⟩ := performs_registration hstray ⟨[], n⟩
    have hlen : (nodes ++ transducers .transducerRegistration sys.selected).length =
        3 + sys.selected := by
      rw [List.length_append, transducers_length]
      rfl
    rw [hlen] at hdone hfailed
    simp only [hstray, not_false_eq_true, true_and]
    refine ⟨fun hzero => ?_, hdone⟩
    by_contra hnot
    rw [hfailed hnot] at hzero
    cases hzero

/-- **One registration**: it closes the database when it should, and otherwise leaves one handle
more. -/
theorem handlesAfter_registration (sys : System) (n : ℕ) :
    (sys.ClosesRegistration → handlesAfter (etriRegistration sys) n = n) ∧
      (¬ sys.ClosesRegistration → handlesAfter (etriRegistration sys) n = n + 1) := by
  unfold handlesAfter System.ClosesRegistration
  rw [etriRegistration_run, ← registration_eq_zero_iff (n + 1)]
  by_cases hopen : sys.openRc = 0
  · rw [if_pos hopen, closing_registration]
    simp +contextual [hopen]
  · simp [hopen]

/-- **One deregistration**: a transducer that fails does not keep it from the end. -/
theorem handlesAfter_deregistration_iff (sys : System) (n : ℕ) :
    handlesAfter (etriDeregistration sys) n = n ↔ sys.ClosesDeregistration := by
  unfold handlesAfter System.ClosesDeregistration
  rw [etriDeregistration_run]
  by_cases hopen : sys.openRc = 0
  · rw [if_pos hopen, andThen_transducers_run, closing_deregistration]
    have hhandles : ((transducerDescriptionDeregistration sys).run ⟨[], n + 1⟩).2.handles = n + 1 :=
      (steady_handles (n + 1)).transducerDescriptionDeregistration sys ⟨[], n + 1⟩ rfl
    obtain ⟨-, hdone, hfailed⟩ :=
      performs_deregistration sys ((transducerDescriptionDeregistration sys).run ⟨[], n + 1⟩).2
    rw [steps_deregistration] at hdone hfailed
    rw [hhandles]
    by_cases hback : Succeed sys
        (attempts sys (transducers .transducerDeregistration (sys.rows.getD 0)) 0).length 3
    · simp [hopen, hback, hdone hback]
    · simp [hopen, hback, hfailed hback]
  · simp [hopen]

theorem etriRegistration_of_left (h : ¬ sys.ClosesRegistration) (n : ℕ) :
    ((etriRegistration sys).run ⟨[], n⟩).1 = -1 := by
  unfold System.ClosesRegistration at h
  rw [not_or, not_not, ← registration_eq_zero_iff (n + 1)] at h
  have hresult : ((etriRegistration sys).run ⟨[], n⟩).1 = 0 ∨
      ((etriRegistration sys).run ⟨[], n⟩).1 = -1 := etriRegistration_eq ⟨[], n⟩
  rw [etriRegistration_run, if_pos h.1] at hresult ⊢
  exact hresult.resolve_left h.2

/-- The result of a registration does not depend on the open handles. -/
theorem run_registration_fst (sys : System) (n : ℕ) :
    ((etriRegistration sys).run ⟨[], n⟩).1 = resultOf (etriRegistration sys) := by
  have hiff : ((etriRegistration sys).run ⟨[], n⟩).1 = 0 ↔
      resultOf (etriRegistration sys) = 0 := by
    unfold resultOf
    rw [etriRegistration_run, etriRegistration_run]
    split_ifs
    · rw [registration_eq_zero_iff, registration_eq_zero_iff]
    · rfl
  have hn : ((etriRegistration sys).run ⟨[], n⟩).1 = 0 ∨
      ((etriRegistration sys).run ⟨[], n⟩).1 = -1 := etriRegistration_eq ⟨[], n⟩
  have hone : resultOf (etriRegistration sys) = 0 ∨ resultOf (etriRegistration sys) = -1 :=
    etriRegistration_eq ⟨[], 0⟩
  omega

end

end IdcuIot.Etri

namespace IdcuIot.TagServer

open Hoare

/-! ### The process -/

/-- What the system answers to one call of `init`. -/
structure InitSystem where
  /-- What `ReadEnvConfig` makes of `env`. -/
  config : ReadEnv → ReadEnv
  /-- Result of `TCPClient`, and the answers to `ETRI_Registration`, when `reTry` tries are left. -/
  tcpClient : ℕ → ℤ
  registration : ℕ → Etri.System

/-- The results that follow from the answers. -/
def InitSystem.outcome (o : InitSystem) : InitOutcome where
  config := o.config
  tcpClient := o.tcpClient
  registration reTry := Etri.resultOf (Etri.etriRegistration (o.registration reTry))

/-- A call of `ETRI_Registration`, and the open handles when it returned. -/
structure Call where
  sys : Etri.System
  handles : ℕ

/-- The state of `tagServer`, the open database handles, and the calls so far. -/
structure Process where
  state : State
  handles : ℕ
  calls : List Call

namespace Process

/-- What has nothing to do with the database. -/
def onState {α : Type} (m : StateM State α) : StateM Process α := do
  let p ← get
  let r := m.run p.state
  set { p with state := r.2 }
  return r.1

/-- `ETRI_Registration( &tcp, &env )`. -/
def etriRegistration (sys : Etri.System) : StateM Process ℤ := do
  let p ← get
  let r := (Etri.etriRegistration sys).run ⟨[], p.handles⟩
  set { p with handles := r.2.handles, calls := p.calls ++ [Call.mk sys r.2.handles] }
  return r.1

/-- The loop of `init`, `reTry` tries being left. -/
def initLoop (o : InitSystem) : ℕ → StateM Process ℤ
  | 0 => return 0
  | reTry + 1 => do
      if ¬ 0 < (← onState get).tcp then
        onState (setTcp (o.tcpClient reTry))
        onState (record (.connect (o.tcpClient reTry)))
        if o.tcpClient reTry < 0 then return -1
      let rtrn ← etriRegistration (o.registration reTry)
      onState (record (.register (← onState get).tcp rtrn))
      if rtrn = -1 then
        if reTry = 0 then
          onState closeTcp
          return -1
        else initLoop o reTry
      else return 0

/-- `init`. -/
def init (o : InitSystem) : StateM Process ℤ := do
  onState (modify (fun s => { s with env := o.config s.env }))
  initLoop o 3

/-- The start-up loop of `main`, `reTry` tries being left. -/
def startUp (outcomes : ℕ → InitSystem) : ℕ → StateM Process Bool
  | 0 => return false
  | reTry + 1 => do
      if (← init (outcomes reTry)) = -1 then
        if reTry = 0 then return false else startUp outcomes reTry
      else return true

/-- One turn of the main loop. -/
structure Turn where
  message : Option TData
  transferTime : UInt32
  send : ℤ
  init : InitSystem

/-- The turn with the results of the calls. -/
def Turn.outcome (t : Turn) : TagServer.Turn :=
  ⟨t.message, t.transferTime, t.send, t.init.outcome⟩

/-- What the main loop does with a message of type 1. -/
def sendReport (t : Turn) (data : TData) : StateM Process Unit := do
  let s ← onState get
  onState (record (.send s.tcp (report s.env t.transferTime data) t.send))
  if t.send = -1 then
    onState closeTcp
    let _ ← init t.init

/-- The main loop for one turn. -/
def mainLoop (t : Turn) : StateM Process Unit :=
  match t.message with
  | none => return ()
  | some data => if data.dataType = 1 then sendReport t data else return ()

/-- Several turns. -/
def run (p : Process) (turns : List Turn) : Process :=
  turns.foldl (fun p t => ((mainLoop t).run p).2) p

/-- The process at the start of the program. -/
def start : Process := ⟨TagServer.start, 0, []⟩

/-- `main`: the process when the start-up gives up, or after some turns. -/
def main (outcomes : ℕ → InitSystem) (turns : List Turn) : Process :=
  let r := (startUp outcomes 3).run start
  if r.1 then run r.2 turns else r.2

/-- What the loop of `init` does with a connection; `again` are the tries that are left. -/
def register (o : InitSystem) (reTry : ℕ) (again : StateM Process ℤ) : StateM Process ℤ := do
  let rtrn ← etriRegistration (o.registration reTry)
  onState (record (.register (← onState get).tcp rtrn))
  if rtrn = -1 then
    if reTry = 0 then
      onState closeTcp
      return -1
    else again
  else return 0

theorem initLoop_succ (o : InitSystem) (reTry : ℕ) : initLoop o (reTry + 1) = (do
    if ¬ 0 < (← onState get).tcp then
      onState (setTcp (o.tcpClient reTry))
      onState (record (.connect (o.tcpClient reTry)))
      if o.tcpClient reTry < 0 then return -1
    register o reTry (initLoop o reTry)) := rfl

/-! ### The same runs as before -/

theorem simulates_onState {α : Type} (m : StateM State α) : Simulates state (onState m) m :=
  fun _ => ⟨rfl, rfl⟩

theorem simulates_etriRegistration {α : Type} {sys : Etri.System} {f : ℤ → StateM Process α}
    {m : StateM State α}
    (h : Simulates state (f (Etri.resultOf (Etri.etriRegistration sys))) m) :
    Simulates state (etriRegistration sys >>= f) m := by
  intro p
  have hrun : (etriRegistration sys >>= f).run p =
      (f ((Etri.etriRegistration sys).run ⟨[], p.handles⟩).1).run
        ((etriRegistration sys).run p).2 := rfl
  rw [hrun, Etri.run_registration_fst]
  exact h _

theorem simulates_register (o : InitSystem) (reTry : ℕ) {again : StateM Process ℤ}
    {again' : StateM State ℤ} (h : Simulates state again again') :
    Simulates state (register o reTry again) (do
      record (.register (← get).tcp (o.outcome.registration reTry))
      if o.outcome.registration reTry = -1 then
        if reTry = 0 then
          closeTcp
          return -1
        else again'
      else return 0) := by
  apply simulates_etriRegistration
  apply Simulates.bind (simulates_onState get)
  intro s
  apply Simulates.bind (simulates_onState _)
  intro _
  refine Simulates.ite (Simulates.ite ?_ h) (Simulates.pure _)
  exact Simulates.bind (simulates_onState _) (fun _ => Simulates.pure _)

theorem simulates_initLoop (o : InitSystem) (reTry : ℕ) :
    Simulates state (initLoop o reTry) (TagServer.initLoop o.outcome reTry) := by
  induction reTry with
  | zero => exact Simulates.pure 0
  | succ reTry ih =>
      rw [initLoop_succ]
      apply Simulates.bind (simulates_onState get)
      intro s
      refine Simulates.ite ?_ (simulates_register o reTry ih)
      apply Simulates.bind (simulates_onState _)
      intro _
      apply Simulates.bind (simulates_onState _)
      intro _
      exact Simulates.ite (Simulates.pure _) (simulates_register o reTry ih)

theorem simulates_init (o : InitSystem) :
    Simulates state (init o) (TagServer.init o.outcome) :=
  Simulates.bind (simulates_onState _) (fun _ => simulates_initLoop o 3)

theorem simulates_startUp (outcomes : ℕ → InitSystem) (reTry : ℕ) :
    Simulates state (startUp outcomes reTry)
      (TagServer.startUp (fun k => (outcomes k).outcome) reTry) := by
  induction reTry with
  | zero => exact Simulates.pure _
  | succ reTry ih =>
      apply Simulates.bind (simulates_init _)
      intro rtrn
      exact Simulates.ite (Simulates.ite (Simulates.pure _) ih) (Simulates.pure _)

theorem simulates_mainLoop (t : Turn) :
    Simulates state (mainLoop t) (TagServer.mainLoop t.outcome) := by
  unfold mainLoop TagServer.mainLoop Turn.outcome
  cases t.message with
  | none => exact Simulates.pure _
  | some data =>
      refine Simulates.ite ?_ (Simulates.pure _)
      apply Simulates.bind (simulates_onState get)
      intro s
      apply Simulates.bind (simulates_onState _)
      intro _
      refine Simulates.ite ?_ (Simulates.pure _)
      apply Simulates.bind (simulates_onState _)
      intro _
      exact Simulates.bind (simulates_init _) (fun _ => Simulates.pure _)

theorem state_run (p : Process) (turns : List Turn) :
    (run p turns).state = TagServer.run p.state (turns.map Turn.outcome) := by
  induction turns generalizing p with
  | nil => rfl
  | cons t turns ih =>
      rw [run, List.foldl_cons, ← run, ih, (simulates_mainLoop t p).2, List.map_cons,
        TagServer.run, TagServer.run, List.foldl_cons]

/-- **The process is `tagServer`**: where the start-up succeeds its runs are those of `main`. -/
theorem simulates_main (outcomes : ℕ → InitSystem) (turns : List Turn) {s : State}
    (h : TagServer.main (fun k => (outcomes k).outcome) (turns.map Turn.outcome) = some s) :
    (main outcomes turns).state = s := by
  obtain ⟨hreached, hstate⟩ := simulates_startUp outcomes 3 start
  unfold TagServer.main at h
  dsimp only at h
  rw [show start.state = TagServer.start from rfl] at hreached hstate
  rw [← hreached, ← hstate] at h
  unfold main
  dsimp only
  split_ifs at h ⊢ with hok
  rw [state_run]
  exact Option.some.inj h

/-! ### Open handles -/

/-- No handle is open, and none was when a call of `ETRI_Registration` returned. -/
def Balanced (p : Process) : Prop := p.handles = 0 ∧ ∀ call ∈ p.calls, call.handles = 0

/-- That depends on nothing but what the calls met. -/
def Accounted (p : Process) : Prop :=
  Balanced p ↔ ∀ call ∈ p.calls, call.sys.ClosesRegistration

theorem keeps_onState {α : Type} (m : StateM State α) : Keeps Accounted (onState m) :=
  fun _ hp => hp

/-- A call that leaves a handle open is one that does not close the database. -/
theorem keeps_etriRegistration (sys : Etri.System) :
    Keeps Accounted (etriRegistration sys) := by
  intro p hp
  obtain ⟨hcloses, hleaves⟩ := Etri.handlesAfter_registration sys p.handles
  change Accounted { p with
    handles := Etri.handlesAfter (Etri.etriRegistration sys) p.handles
    calls := p.calls ++ [⟨sys, Etri.handlesAfter (Etri.etriRegistration sys) p.handles⟩] }
  unfold Accounted Balanced at hp ⊢
  simp only [List.forall_mem_append, List.forall_mem_singleton, ← hp]
  by_cases h : sys.ClosesRegistration
  · simp only [hcloses h, h]
    tauto
  · simp [hleaves h, h]

theorem keeps_register (o : InitSystem) (reTry : ℕ) {again : StateM Process ℤ}
    (h : Keeps Accounted again) : Keeps Accounted (register o reTry again) := by
  apply Keeps.bind (keeps_etriRegistration _)
  intro rtrn
  apply Keeps.bind (keeps_onState get)
  intro s
  apply Keeps.bind (keeps_onState _)
  intro _
  refine Keeps.ite (Keeps.ite ?_ h) (Keeps.pure _)
  exact Keeps.bind (keeps_onState _) (fun _ => Keeps.pure _)

theorem keeps_initLoop (o : InitSystem) (reTry : ℕ) : Keeps Accounted (initLoop o reTry) := by
  induction reTry with
  | zero => exact Keeps.pure _
  | succ reTry ih =>
      rw [initLoop_succ]
      apply Keeps.bind (keeps_onState get)
      intro s
      refine Keeps.ite ?_ (keeps_register o reTry ih)
      apply Keeps.bind (keeps_onState _)
      intro _
      apply Keeps.bind (keeps_onState _)
      intro _
      exact Keeps.ite (Keeps.pure _) (keeps_register o reTry ih)

theorem keeps_init (o : InitSystem) : Keeps Accounted (init o) :=
  Keeps.bind (keeps_onState _) (fun _ => keeps_initLoop o 3)

theorem keeps_startUp (outcomes : ℕ → InitSystem) (reTry : ℕ) :
    Keeps Accounted (startUp outcomes reTry) := by
  induction reTry with
  | zero => exact Keeps.pure _
  | succ reTry ih =>
      apply Keeps.bind (keeps_init _)
      intro rtrn
      exact Keeps.ite (Keeps.ite (Keeps.pure _) ih) (Keeps.pure _)

theorem keeps_mainLoop (t : Turn) : Keeps Accounted (mainLoop t) := by
  unfold mainLoop
  cases t.message with
  | none => exact Keeps.pure _
  | some data =>
      refine Keeps.ite ?_ (Keeps.pure _)
      apply Keeps.bind (keeps_onState get)
      intro s
      apply Keeps.bind (keeps_onState _)
      intro _
      refine Keeps.ite ?_ (Keeps.pure _)
      apply Keeps.bind (keeps_onState _)
      intro _
      exact Keeps.bind (keeps_init _) (fun _ => Keeps.pure _)

theorem accounted_run {p : Process} (hp : Accounted p) (turns : List Turn) :
    Accounted (run p turns) := by
  induction turns generalizing p with
  | nil => exact hp
  | cons t turns ih =>
      rw [run, List.foldl_cons, ← run]
      exact ih (keeps_mainLoop t p hp)

theorem accounted_start : Accounted start := by
  simp [Accounted, Balanced, start]

theorem accounted_main (outcomes : ℕ → InitSystem) (turns : List Turn) :
    Accounted (main outcomes turns) := by
  have hstart := keeps_startUp outcomes 3 start accounted_start
  unfold main
  dsimp only
  split_ifs
  · exact accounted_run hstart turns
  · exact hstart

/-- **When handles are left open**: one call of either procedure closes the database it opened
exactly when none of the messages it returns for fails, and in a run of `tagServer` no handle is
open between two calls exactly when this holds for every call made. -/
theorem handles_iff (sys : Etri.System) (n : ℕ) (outcomes : ℕ → InitSystem) (turns : List Turn) :
    (Etri.handlesAfter (Etri.etriRegistration sys) n = n ↔ sys.ClosesRegistration) ∧
    (Etri.handlesAfter (Etri.etriDeregistration sys) n = n ↔ sys.ClosesDeregistration) ∧
    (Balanced (main outcomes turns) ↔
      ∀ call ∈ (main outcomes turns).calls, call.sys.ClosesRegistration) := by
  refine ⟨?_, Etri.handlesAfter_deregistration_iff sys n, accounted_main outcomes turns⟩
  obtain ⟨hcloses, hleaves⟩ := Etri.handlesAfter_registration sys n
  refine ⟨fun h => ?_, hcloses⟩
  by_contra hnot
  rw [hleaves hnot] at h
  exact absurd h (Nat.succ_ne_self n)

/-! ### An outage -/

/-- The server takes the connection, but a registration leaves the database open. -/
def Outage (o : InitSystem) : Prop :=
  ∀ reTry, 0 ≤ o.tcpClient reTry ∧ ¬ (o.registration reTry).ClosesRegistration

theorem left_etriRegistration {sys : Etri.System} (h : ¬ sys.ClosesRegistration) (n : ℕ) :
    Triple (fun p => p.handles = n) (etriRegistration sys)
      (fun rtrn p => rtrn = -1 ∧ p.handles = n + 1) := by
  rintro p rfl
  exact ⟨Etri.etriRegistration_of_left h _, (Etri.handlesAfter_registration sys _).2 h⟩

/-- A registration leaves a handle open and fails, and so do the tries that are left. -/
theorem left_register {o : InitSystem} (ho : Outage o) {reTry n : ℕ} {again : StateM Process ℤ}
    (hagain : reTry ≠ 0 → Triple (fun p => p.handles = n + 1) again
      (fun rtrn p => rtrn = -1 ∧ p.handles = n + 1 + reTry)) :
    Triple (fun p => p.handles = n) (register o reTry again)
      (fun rtrn p => rtrn = -1 ∧ p.handles = n + (reTry + 1)) := by
  refine Triple.bind (left_etriRegistration (ho reTry).2 n) (fun rtrn => ?_)
  refine Triple.bind (Q := fun _ p => rtrn = -1 ∧ p.handles = n + 1) (fun _ hp => hp)
    (fun s => ?_)
  refine Triple.bind (Q := fun _ p => rtrn = -1 ∧ p.handles = n + 1) (fun _ hp => hp)
    (fun _ => ?_)
  refine Triple.ite (fun _ => Triple.ite (fun hlast => ?_) (fun hmore => ?_)) (fun hne => ?_)
  · refine Triple.bind (Q := fun _ p => p.handles = n + 1) (fun _ hp => hp.2) (fun _ => ?_)
    exact Triple.pure fun p hp => ⟨rfl, by omega⟩
  · intro p hp
    obtain ⟨hrtrn, hhandles⟩ := hagain hmore p hp.2
    exact ⟨hrtrn, by omega⟩
  · intro p hp
    exact absurd hp.1 hne

theorem left_try {o : InitSystem} (ho : Outage o) (reTry n : ℕ)
    (hagain : reTry ≠ 0 → Triple (fun p => p.handles = n + 1) (initLoop o reTry)
      (fun rtrn p => rtrn = -1 ∧ p.handles = n + 1 + reTry)) :
    Triple (fun p => p.handles = n) (initLoop o (reTry + 1))
      (fun rtrn p => rtrn = -1 ∧ p.handles = n + (reTry + 1)) := by
  rw [initLoop_succ]
  refine Triple.bind (Q := fun _ p => p.handles = n) (fun _ hp => hp) (fun s => ?_)
  refine Triple.ite (fun _ => ?_) (fun _ => left_register ho hagain)
  refine Triple.bind (Q := fun _ p => p.handles = n) (fun _ hp => hp) (fun _ => ?_)
  refine Triple.bind (Q := fun _ p => p.handles = n) (fun _ hp => hp) (fun _ => ?_)
  exact Triple.ite (fun hrefused => absurd hrefused (not_lt.mpr (ho reTry).1))
    (fun _ => left_register ho hagain)

theorem left_initLoop {o : InitSystem} (ho : Outage o) (reTry n : ℕ) :
    Triple (fun p => p.handles = n) (initLoop o (reTry + 1))
      (fun rtrn p => rtrn = -1 ∧ p.handles = n + (reTry + 1)) := by
  induction reTry generalizing n with
  | zero => exact left_try ho 0 n (fun h => absurd rfl h)
  | succ reTry ih => exact left_try ho (reTry + 1) n (fun _ => ih (n + 1))

theorem left_init {o : InitSystem} (ho : Outage o) (n : ℕ) :
    Triple (fun p => p.handles = n) (init o) (fun rtrn p => rtrn = -1 ∧ p.handles = n + 3) :=
  Triple.bind (Q := fun _ p => p.handles = n) (fun _ hp => hp) (fun _ => left_initLoop ho 2 n)

/-- **A start-up during an outage**: every call of `init` leaves three handles open. -/
theorem left_startUp {outcomes : ℕ → InitSystem} (ho : ∀ reTry, Outage (outcomes reTry))
    (reTry n : ℕ) :
    Triple (fun p => p.handles = n) (startUp outcomes reTry)
      (fun reached p => reached = false ∧ p.handles = n + 3 * reTry) := by
  induction reTry generalizing n with
  | zero => exact Triple.pure fun _ hp => ⟨rfl, hp⟩
  | succ reTry ih =>
      refine Triple.bind (left_init (ho reTry) n) (fun rtrn => ?_)
      refine Triple.ite (fun _ => Triple.ite (fun hlast => ?_) (fun _ => ?_)) (fun hne => ?_)
      · exact Triple.pure fun p hp => ⟨rfl, by omega⟩
      · intro p hp
        obtain ⟨hreached, hhandles⟩ := ih (n + 3) p hp.2
        exact ⟨hreached, by omega⟩
      · intro p hp
        exact absurd hp.1 hne

/-- A call in which the database opens and no message is answered. -/
def unanswered : Etri.System := ⟨0, true, some 1, 0, fun _ => Etri.timedOut⟩

theorem unanswered_left : ¬ unanswered.ClosesRegistration := by
  rintro (hopen | ⟨-, hall⟩)
  · exact hopen rfl
  · exact absurd (hall 0 (by simp)) (by decide)

/-- A call of `init` in which the server takes the connection and answers nothing. -/
def silent : InitSystem := ⟨id, fun _ => 5, fun _ => unanswered⟩

theorem outage_silent : Outage silent := fun _ => ⟨show (0 : ℤ) ≤ 5 by decide, unanswered_left⟩

/-- A start-up that gives up leaves handles open. -/
theorem handles_left : ¬ ∀ (sys : Etri.System) (n : ℕ) (outcomes : ℕ → InitSystem)
    (turns : List Turn),
    Etri.handlesAfter (Etri.etriRegistration sys) n = n ∧
    Etri.handlesAfter (Etri.etriDeregistration sys) n = n ∧ Balanced (main outcomes turns) := by
  intro h
  obtain ⟨-, -, hnone, -⟩ := h unanswered 0 (fun _ => silent) []
  obtain ⟨hreached, hhandles⟩ := left_startUp (fun _ => outage_silent) 3 0 start rfl
  unfold main at hnone
  dsimp only at hnone
  rw [hreached, if_neg Bool.false_ne_true, hhandles] at hnone
  cases hnone

end Process
end IdcuIot.TagServer
