import Mathlib.Data.Finset.Insert
import IdcuIot.Lib.History

/-! # The poller threads of the drivers

iDCU_IoT, GN1200 and PLCS_12ex connect to their device with `TCPClient`, start a thread that sends
a request every `basescanrate` milliseconds, and read the replies until the connection ends.  Then
they close the socket, wait and connect again.

The thread keeps the number of the socket and ends when a `send` on it fails.  When it sleeps while
the number is closed and given to the next connection, it goes on there beside the new thread.
`onePoller_iff` says in which runs that does not happen. -/

namespace IdcuIot.Driver

open History

/-- The drivers that poll their device. -/
inductive Polling where
  | idcuIot
  | gn1200
  | plcs12ex
deriving DecidableEq, Repr

/-- `SendBuf[sendType]` of iDCU_IoT, which alternates, and `SendBuf` of the two others. -/
def Polling.sendBuf : Polling → Bool → List UInt8
  | .idcuIot, false => [0x01, 0x02, 0x00, 0x00, 0x00, 0x06, 0x01, 0x02, 0x00, 0x10, 0x00, 0x08]
  | .idcuIot, true => [0x01, 0x02, 0x00, 0x00, 0x00, 0x06, 0x01, 0x04, 0x00, 0x10, 0x00, 0x10]
  | .gn1200, _ => [0x01, 0x03, 0x00, 0x00, 0x00, 0x04, 0x44, 0x09]
  | .plcs12ex, _ => [0x22, 0x3a, 0x22, 0x2c, 0x33, 0x35, 0x2c, 0x63, 0x30, 0x0d]

/-- A thread in `thread_main`: it has not yet copied the number out of `th_data`, is about to send,
sleeps in `usleep`, or has left the loop. -/
inductive Poller where
  | starting
  | awake (fd : ℕ) (sendType : Bool)
  | asleep (fd : ℕ) (sendType : Bool)
  | exited
deriving DecidableEq, Repr

/-- The loop of the driver: it sleeps for two seconds, is inside `TCPClient` with a socket, or is
inside `Socket_Manager` with a connection. -/
inductive Main where
  | waiting
  | connecting (fd : ℕ)
  | connected (fd : ℕ)
deriving DecidableEq, Repr

/-- The process: the loop of the driver, the buffer through which a thread gets its number, all
threads that were created, the descriptors that the rest of the process has open, and what the
threads have sent. -/
structure Process where
  main : Main
  thData : ℕ
  pollers : List Poller
  others : Finset ℕ
  sent : List (ℕ × List UInt8)

/-- What happens next. -/
inductive Event where
  /-- `socket` in `TCPClient`. -/
  | socket (fd : ℕ)
  /-- `connect` or `fcntl` fails, and `TCPClient` closes the socket. -/
  | refused
  /-- `TCPClient` returns a connection, and `pthread_create` succeeds or not. -/
  | connect (created : Bool)
  /-- `Socket_Manager` closes the connection. -/
  | disconnect
  /-- A thread begins. -/
  | start (i : ℕ)
  /-- A thread calls `send`. -/
  | send (i : ℕ) (ok : Bool)
  /-- `usleep` of a thread returns. -/
  | expire (i : ℕ)
  /-- The rest of the process opens a descriptor. -/
  | opens (fd : ℕ)
  /-- The rest of the process closes a descriptor. -/
  | closes (fd : ℕ)
deriving DecidableEq

/-- Descriptor `fd` is open. -/
def Process.Open (s : Process) (fd : ℕ) : Prop :=
  fd ∈ s.others ∨ s.main = .connecting fd ∨ s.main = .connected fd

instance (s : Process) (fd : ℕ) : Decidable (s.Open fd) := inferInstanceAs (Decidable (_ ∨ _))

/-- The number that a new descriptor gets is the lowest free one. -/
def Process.Lowest (s : Process) (fd : ℕ) : Prop := ¬ s.Open fd ∧ ∀ n < fd, s.Open n

instance (s : Process) (fd : ℕ) : Decidable (s.Lowest fd) := inferInstanceAs (Decidable (_ ∧ _))

/-- `Fd` is copied. -/
def Poller.start (thData : ℕ) : Poller → Poller
  | .starting => .awake thData false
  | p => p

/-- `send`, and `usleep` or `break`; it fails when the number is closed. -/
def Poller.send (s : Process) (ok : Bool) : Poller → Poller
  | .awake fd sendType => if ok ∧ s.Open fd then .asleep fd (!sendType) else .exited
  | p => p

/-- The time is over. -/
def Poller.expire : Poller → Poller
  | .asleep fd sendType => .awake fd sendType
  | p => p

/-- The bytes that a thread sends. -/
def Poller.request (d : Polling) (s : Process) (ok : Bool) : Poller → List (ℕ × List UInt8)
  | .awake fd sendType => if ok ∧ s.Open fd then [(fd, d.sendBuf sendType)] else []
  | _ => []

/-- One step; a step that is not possible changes nothing. -/
def step (d : Polling) (s : Process) : Event → Process
  | .socket fd =>
      if s.main = .waiting ∧ s.Lowest fd then { s with main := .connecting fd } else s
  | .refused =>
      match s.main with
      | .connecting _ => { s with main := .waiting }
      | _ => s
  | .connect created =>
      match s.main with
      | .connecting fd =>
          if 0 < fd then
            { s with
              main := .connected fd
              thData := fd
              pollers := s.pollers ++ if created then [.starting] else [] }
          else { s with main := .waiting }
      | _ => s
  | .disconnect =>
      match s.main with
      | .connected _ => { s with main := .waiting }
      | _ => s
  | .start i => { s with pollers := s.pollers.modify i (Poller.start s.thData) }
  | .send i ok =>
      { s with
        pollers := s.pollers.modify i (Poller.send s ok)
        sent := s.sent ++ (s.pollers.getD i .exited).request d s ok }
  | .expire i => { s with pollers := s.pollers.modify i Poller.expire }
  | .opens fd => if s.Lowest fd then { s with others := insert fd s.others } else s
  | .closes fd => { s with others := s.others.erase fd }

/-- The driver is started in a process that has the descriptors `others`. -/
def Process.initial (others : Finset ℕ) (thData : ℕ) : Process := ⟨.waiting, thData, [], others, []⟩

/-- The process after a sequence of steps. -/
def run (d : Polling) (s : Process) (events : List Event) : Process := events.foldl (step d) s

/-! ### Who sends on the connection -/

/-- The number on which a live thread sends next. -/
def Poller.target (thData : ℕ) : Poller → Option ℕ
  | .starting => some thData
  | .awake fd _ | .asleep fd _ => some fd
  | .exited => none

/-- Number of live threads that send on `fd`, when those that are starting find `thData`. -/
def polls (pollers : List Poller) (thData fd : ℕ) : ℕ :=
  pollers.countP (fun p => p.target thData == some fd)

/-- At most one live thread sends on the current connection. -/
def OnePoller (s : Process) : Prop :=
  match s.main with
  | .connected fd => polls s.pollers s.thData fd ≤ 1
  | _ => True

instance (s : Process) : Decidable (OnePoller s) := by
  unfold OnePoller
  split <;> infer_instance

/-- When a connection is made, no thread of an earlier one is left that sends on the number of the
new one: each has ended or keeps another number, and none is still starting.  (One may be left when
the new thread cannot be created.) -/
def Unpolled (s : Process) : Event → Prop
  | .connect created =>
      match s.main with
      | .connecting fd => 0 < fd → polls s.pollers fd fd + (if created then 1 else 0) ≤ 1
      | _ => True
  | _ => True

section
variable {d : Polling} {s s' : Process} {e : Event} {pollers : List Poller} {thData fd : ℕ}

theorem countP_modify_le {α : Type*} {p : α → Bool} {f : α → α} (hf : ∀ a, p (f a) → p a)
    (l : List α) (i : ℕ) : (l.modify i f).countP p ≤ l.countP p := by
  induction l generalizing i with
  | nil => rw [List.modify_nil]
  | cons a l ih =>
      cases i with
      | zero =>
          rw [List.modify_zero_cons, List.countP_cons, List.countP_cons]
          have := hf a
          split_ifs <;> simp_all
      | succ i =>
          rw [List.modify_succ_cons, List.countP_cons, List.countP_cons]
          exact Nat.add_le_add_right (ih i) _

/-- A thread that keeps its number or ends does not add to those that send on one. -/
theorem polls_modify_le {f : Poller → Poller}
    (hf : ∀ p : Poller, (f p).target thData = p.target thData ∨ (f p).target thData = none)
    (i : ℕ) : polls (pollers.modify i f) thData fd ≤ polls pollers thData fd := by
  refine countP_modify_le (fun p hp => ?_) pollers i
  rcases hf p with h | h
  · rwa [h] at hp
  · rw [h] at hp
    cases hp

theorem Poller.target_start (p : Poller) : (p.start thData).target thData = p.target thData := by
  cases p <;> rfl

theorem Poller.target_send (s : Process) (ok : Bool) (p : Poller) :
    (p.send s ok).target thData = p.target thData ∨ (p.send s ok).target thData = none := by
  cases p with
  | starting | asleep | exited => exact Or.inl rfl
  | awake fd sendType =>
      simp only [Poller.send]
      split_ifs
      · exact Or.inl rfl
      · exact Or.inr rfl

theorem Poller.target_expire (p : Poller) : p.expire.target thData = p.target thData := by
  cases p <;> rfl

theorem polls_connect (pollers : List Poller) (fd : ℕ) (created : Bool) :
    polls (pollers ++ if created then [.starting] else []) fd fd =
      polls pollers fd fd + if created then 1 else 0 := by
  unfold polls
  rw [List.countP_append]
  cases created with
  | false => rfl
  | true => simp [Poller.target]

/-- The property is kept as long as the same connection has no more threads. -/
theorem OnePoller.of_le (h : OnePoller s) (hmain : s'.main = s.main)
    (hle : ∀ fd, polls s'.pollers s'.thData fd ≤ polls s.pollers s.thData fd) : OnePoller s' := by
  unfold OnePoller at h ⊢
  rw [hmain]
  cases hm : s.main with
  | waiting | connecting => trivial
  | connected fd =>
      rw [hm] at h
      exact (hle fd).trans h

theorem onePoller_of_main (h : ∀ fd, s.main ≠ .connected fd) : OnePoller s := by
  unfold OnePoller
  cases hm : s.main with
  | waiting | connecting => trivial
  | connected fd => exact absurd hm (h fd)

/-- One step: a connection gets a second thread only when it is made. -/
theorem onePoller_step_iff (h : OnePoller s) : OnePoller (step d s e) ↔ Unpolled s e := by
  cases e with
  | socket fd =>
      refine iff_of_true ?_ trivial
      simp only [step]
      split_ifs
      · exact onePoller_of_main (fun _ => Main.noConfusion)
      · exact h
  | refused =>
      refine iff_of_true ?_ trivial
      simp only [step]
      cases hm : s.main with
      | waiting | connected => exact h
      | connecting fd => exact onePoller_of_main (fun _ => Main.noConfusion)
  | connect created =>
      simp only [step, Unpolled]
      cases hm : s.main with
      | waiting | connected => exact iff_of_true h trivial
      | connecting fd =>
          by_cases hpos : 0 < fd
          · simp only [hpos, if_true, forall_const]
            rw [← polls_connect]
            rfl
          · simp only [if_neg hpos]
            exact iff_of_true (onePoller_of_main (fun _ => Main.noConfusion))
              (fun hpos' => absurd hpos' hpos)
  | disconnect =>
      refine iff_of_true ?_ trivial
      simp only [step]
      cases hm : s.main with
      | waiting | connecting => exact h
      | connected fd => exact onePoller_of_main (fun _ => Main.noConfusion)
  | start i =>
      exact iff_of_true (h.of_le rfl (fun _ =>
        polls_modify_le (fun p => Or.inl p.target_start) i)) trivial
  | send i ok =>
      exact iff_of_true (h.of_le rfl (fun _ =>
        polls_modify_le (fun p => p.target_send s ok) i)) trivial
  | expire i =>
      exact iff_of_true (h.of_le rfl (fun _ =>
        polls_modify_le (fun p => Or.inl p.target_expire) i)) trivial
  | opens fd =>
      refine iff_of_true ?_ trivial
      simp only [step]
      split_ifs
      · exact h.of_le rfl (fun _ => le_rfl)
      · exact h
  | closes fd => exact iff_of_true (h.of_le rfl (fun _ => le_rfl)) trivial

end

/-! ### Runs -/

theorem run_append_singleton (d : Polling) (s : Process) (events : List Event) (e : Event) :
    run d s (events ++ [e]) = step d (run d s events) e := by
  unfold run
  rw [List.foldl_append, List.foldl_cons, List.foldl_nil]

/-- **When each connection has one poller**: in a run of one of the drivers, with any order of
connects, disconnects, timers and sends, at most one live thread sends on the current connection in
every state that is reached exactly when no connection is made on a number on which a thread of an
earlier one still sends. -/
theorem onePoller_iff (d : Polling) (others : Finset ℕ) (thData : ℕ) (events : List Event) :
    (∀ pre, pre <+: events → OnePoller (run d (Process.initial others thData) pre)) ↔
      AtEvery (fun pre e => Unpolled (run d (Process.initial others thData) pre) e) events := by
  refine forall_prefix_iff trivial (fun pre e h => ?_) events
  rw [run_append_singleton]
  exact onePoller_step_iff h

/-- The number 3 is given to both connections; the first thread sleeps in between. -/
def reconnect : List Event :=
  [.socket 3, .connect true, .start 0, .send 0 true, .disconnect, .socket 3, .connect true,
    .start 1, .send 1 true, .expire 0, .send 0 true]

/-- Two threads poll the second connection. -/
theorem onePoller_wrong : ¬ ∀ (d : Polling) (others : Finset ℕ) (thData : ℕ) (events : List Event),
    OnePoller (run d (Process.initial others thData) events) := by
  intro h
  have h2 := h .idcuIot {0, 1, 2} 0 reconnect
  revert h2
  decide

end IdcuIot.Driver
