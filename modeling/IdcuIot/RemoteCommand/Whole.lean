import IdcuIot.RemoteCommand.Line

/-! # Clients that send one command at a time

A read that brings one whole command of at most 255 bytes leaves nothing over, and `Pack_Manager` is
called for just this command (`receive_whole`).  When all reads are of this kind, and no command for
the nodes asks CommManager to leave its arrays (`Fits`), no program leaves its defined behaviour,
and the nodes get what the clients sent (`line_of_whole`).  Commands that set the time or the
network are left out: the first never stay in the arrays, and the second take strings from what lies
behind the frame. -/

namespace IdcuIot.RemoteCommand

open Memory Scan Reassembly
open M2MManager (PackCall Queue)

/-- The frame of a command that CommManager can take: of a command for the nodes, byte 3 counts no
more bytes than `cmdTlv.value` has, and a new configuration has its bytes 4 to 6. -/
def Fits (frame : List UInt8) : Prop :=
  frame.getD 2 0 = 0x01 ∨ frame.getD 2 0 = 0x12 →
    (frame.getD 3 0).toNat ≤ CommManager.valueSize ∧ (frame.getD 2 0 = 0x12 → 7 ≤ frame.length)

instance (frame : List UInt8) : Decidable (Fits frame) := inferInstanceAs (Decidable (_ → _))

/-- A read of one whole command, which is not to set the time or the network. -/
def WholeRead (r : Read) : Prop :=
  (∃ f : Frame, f.bytes = r.data ∧ f.body.length ≤ 252) ∧ Fits r.data ∧
    r.data.getD 2 0 ≠ M2MManager.Command.timeSync.code ∧
    r.data.getD 2 0 ≠ SetupManager.Command.setLanInfo.code

def Whole : Event → Prop
  | .receive _ _ r => WholeRead r
  | _ => True

/-- A call of `Pack_Manager` that is passed on to the nodes as it is. -/
def Plain (c : PackCall) : Prop := c.start = 0 ∧ (c.setBuffer 1).toNat ≤ 252

theorem nodeBytes_of_plain {c : PackCall} (h : Plain c) : nodeBytes c = nodeWrites c.frame :=
  if_pos h

theorem inArrays_message {c : PackCall} (h : IsCommand c) (hplain : Plain c)
    (hforward : Forwarded c) (hfits : Fits c.frame) : InArrays (message c) := by
  obtain ⟨hlen, h0, hsize, hlast⟩ := h
  obtain ⟨hstart, hle⟩ := hplain
  have hnum : (message c).dataNum = c.size := by
    change c.len = c.size
    omega
  have hbyte : ∀ k < c.size, (message c).dataBuff k = c.setBuffer k := fun k hk =>
    TData.dataBuff_ofBuffer 1 c.setBuffer (by omega)
  have hlength : c.frame.length = c.size := Mem.length_slice _ _ _
  -- a frame of three bytes ends in its byte 2
  have hfour : 4 ≤ c.size := by
    by_contra hshort
    rw [show c.size - 1 = 2 by omega] at hlast
    unfold Forwarded at hforward
    rw [hlast] at hforward
    revert hforward
    decide
  unfold Fits at hfits
  rw [getD_frame (k := 2) (by omega), getD_frame (k := 3) (by omega), hlength] at hfits
  obtain ⟨hvalue, hseven⟩ := hfits hforward
  unfold InArrays
  rw [hnum]
  refine ⟨⟨by omega, (show c.size ≤ 1024 by omega)⟩, fun run hrun => ?_⟩
  unfold CommManager.receiveCommand at hrun
  split_ifs at hrun
  · obtain rfl := Option.some.inj hrun
    dsimp only
    rw [hbyte 2 (by omega), hbyte 3 (by omega)]
    refine ⟨hvalue, ?_⟩
    split_ifs with hchange
    · exact hseven hchange.2
    · omega
  · cases hrun

/-- A manager stays in its arrays with a command that sets neither the time nor the network. -/
theorem contained_of_whole {c : PackCall} {r : Read} (hr : WholeRead r) (hframe : c.frame = r.data)
    (hsize : 2 < c.size) (m : Manager) : Contained m c := by
  obtain ⟨-, -, htime, hlan⟩ := hr
  rw [← hframe, getD_frame hsize] at htime hlan
  cases m with
  | m2m => exact fun h => htime (code_of_find? h).symm
  | setup =>
      have hsetup : SetupManager.Command.ofType (c.setBuffer 2) ≠ some .timeSync :=
        fun h => htime (code_of_find? h).symm
      exact ⟨hsetup, fun h => absurd (code_of_find? h).symm hlan⟩

/-- **A command in a read of its own.** -/
theorem receive_whole {loop : RecvState PackCall} {r : Read} (hloop : loop.receiveSize = 0)
    (hr : WholeRead r) : ∃ l c, M2MManager.socketManager.receive loop r = some l ∧
      l.receiveSize = 0 ∧ l.calls = loop.calls ++ [c] ∧ Plain c ∧ c.frame = r.data ∧
        ∀ m, Contained m c := by
  obtain ⟨f, hf, hshort⟩ := hr.1
  have hlength : r.data.length = f.body.length + 3 := by rw [← hf, f.length_bytes]
  have hleft : RecvLoop.leftover loop = [] := by
    rw [RecvLoop.leftover, hloop]
    rfl
  have hbuffered : (RecvLoop.buffered loop r).slice 0 r.data.length = r.data := by
    have h := RecvLoop.slice_buffered loop r
    rwa [hloop, Nat.zero_add, hleft, List.nil_append] at h
  have hskip : M2MManager.socketManager.skips loop.receiveSize r.data.length = false :=
    decide_eq_false (by rw [hlength, M2MManager.bufferSize]; omega)
  have hfit : loop.receiveSize + r.data.length ≤ M2MManager.socketManager.bufferSize := by
    rw [hloop, hlength]
    change _ ≤ 1024
    omega
  have hscan : Scans (M2MManager.socketManager.probe (RecvLoop.buffered loop r)
      (loop.receiveSize + r.data.length)) (loop.receiveSize + r.data.length) 0
      (tiles 0 [r.data.length] ++ []) false := by
    refine M2MManager.socketManager_eager.scans_frames [r.data] 0 ?_ ?_ ?_ (.done ?_)
    · exact fun l hl => ⟨f, hf.trans (List.mem_singleton.mp hl).symm⟩
    · simpa using hbuffered
    · simp [hloop]
    · simp [hloop]
  obtain ⟨l, hl, hcalls, hrest⟩ := M2MManager.socketManager.receive_scanned hskip hfit
    (M2MManager.parser_advances _ _) hscan (M2MManager.socketManager_eager.no_overrun hscan)
    (k := r.data.length) (by simp [tiles, Parser.endOf, lastStop, Cut.stop]) (by omega)
  have hsize : l.receiveSize = 0 := by
    have h := congrArg List.length hrest
    rw [hleft, List.nil_append, List.drop_length] at h
    simpa [RecvLoop.leftover] using h
  have hframe := (M2MManager.socketManager_eager.reports (RecvLoop.buffered loop r) r.setBuffer
    ⟨0, r.data.length⟩).trans hbuffered
  refine ⟨l, _, hl, hsize, hcalls, ⟨rfl, ?_⟩, hframe,
    contained_of_whole hr hframe (show 2 < r.data.length by omega)⟩
  have hone := Mem.eq_getElem_of_slice (hframe.trans hf.symm)
    (show 1 < f.bytes.length by rw [f.length_bytes]; omega)
  rw [Nat.zero_add, f.getElem_bytes_one] at hone
  rw [hone, f.toNat_length]
  exact hshort

/-! ### A run -/

/-- The bytes that one manager reads in a step. -/
def readIn (m : Manager) (s : State capacity) : Event → List (List UInt8)
  | .receive m' _ r => if m' = m ∧ s.sending m' = [] then [r.data] else []
  | _ => []

/-- The reads of one manager in a run. -/
def reads (m : Manager) : State capacity → List Event → List (List UInt8)
  | _, [] => []
  | s, e :: es =>
      readIn m s e ++
        match s.step e with
        | none => []
        | some s => reads m s es

/-- Nothing is left over in the loops, and every command was alone in its read. -/
structure Ready (s : State capacity) : Prop where
  loop : ∀ m, (s.loop m).receiveSize = 0
  calls : ∀ p ∈ s.calls, Plain p.2 ∧ Fits p.2.frame

section
variable {s : State capacity}

theorem msgsnd_same (m : Manager) (allowed : Bool) :
    (s.msgsnd m allowed).loop = s.loop ∧ (s.msgsnd m allowed).calls = s.calls := by
  unfold State.msgsnd
  split <;> exact ⟨rfl, rfl⟩

theorem command_same {s' : State capacity} (h : s.command = some s') :
    s'.loop = s.loop ∧ s'.calls = s.calls := by
  unfold State.command at h
  split at h
  · exact Option.some.inj h ▸ ⟨rfl, rfl⟩
  · split_ifs at h
    exact Option.some.inj h ▸ ⟨rfl, rfl⟩

theorem exists_command (hconserved : Conserved s) (h : Ready s) :
    ∃ s', s.command = some s' := by
  obtain ⟨taken, waiting, hqueued, -, hmessages⟩ := hconserved.line
  have hin : ∀ d ∈ (s.queues .m2mid).messages, InArrays d := by
    intro d hd
    rw [hmessages] at hd
    obtain ⟨c, hc, rfl⟩ := List.mem_map.mp hd
    have hmem : c ∈ queued s.sent := by
      rw [hqueued]
      exact List.mem_append_right taken hc
    obtain ⟨hforward, p, hp, rfl⟩ := exists_call_of_queued hconserved hmem
    obtain ⟨hplain, hfits⟩ := h.calls p hp
    exact inArrays_message (mem_of_queued hconserved.sent _ hmem) hplain hforward hfits
  unfold State.command
  cases hrcv : (s.queues .m2mid).msgrcv TData.dataType 1 with
  | none => exact ⟨s, rfl⟩
  | some p =>
      obtain ⟨-, l, l', heq, -⟩ := MessageQueue.messages_of_msgrcv hrcv
      dsimp only
      rw [if_pos (hin p.1 (by rw [heq]; simp))]
      exact ⟨_, rfl⟩

theorem Ready.of_same {s' : State capacity} (h : Ready s)
    (hsame : s'.loop = s.loop ∧ s'.calls = s.calls) : Ready s' :=
  ⟨fun m => hsame.1 ▸ h.loop m, fun p hp => h.calls p (hsame.2 ▸ hp)⟩

/-- A read of a whole command is one call of `Pack_Manager`; the other steps call it not at all. -/
theorem step_whole (hconserved : Conserved s) (h : Ready s) {e : Event} (he : Whole e) :
    ∃ s', s.step e = some s' ∧ Ready s' ∧ ∀ m,
      (callsOf m s'.calls).map PackCall.frame =
        (callsOf m s.calls).map PackCall.frame ++ readIn m s e := by
  cases e with
  | connect receiveBuffer =>
      unfold State.step
      dsimp only
      split_ifs
      · refine ⟨_, rfl, ⟨fun m => ?_, h.calls⟩, fun m => (List.append_nil _).symm⟩
        dsimp only
        cases m with
        | m2m =>
            rw [Function.update_self]
            rfl
        | setup =>
            rw [Function.update_of_ne (by decide)]
            exact h.loop .setup
      · exact ⟨s, rfl, h, fun m => (List.append_nil _).symm⟩
  | receive m answers r =>
      unfold State.step State.receive readIn
      dsimp only
      by_cases hempty : s.sending m = []
      · obtain ⟨l, c, hl, hsize, hcalls, hplain, hframe, hcontained⟩ := receive_whole (h.loop m) he
        have hloop : m.socketManager.receive (s.loop m) r = some l := by
          cases m <;> exact hl
        rw [if_pos hempty, hloop, Option.bind_some, hcalls, List.drop_left,
          if_pos (List.forall_mem_singleton.mpr (hcontained m))]
        refine ⟨_, rfl, ⟨fun m' => ?_, fun p hp => ?_⟩, fun m' => ?_⟩
        · dsimp only
          by_cases hm : m' = m
          · subst hm
            rw [Function.update_self, hsize]
          · rw [Function.update_of_ne hm, h.loop m']
        · rcases List.mem_append.mp hp with hp | hp
          · exact h.calls p hp
          · obtain rfl := List.mem_singleton.mp hp
            exact ⟨hplain, hframe ▸ he.2.1⟩
        · dsimp only
          rw [callsOf_append, callsOf_map, List.map_append]
          by_cases hm : m = m'
          · rw [if_pos hm, if_pos ⟨hm, hempty⟩, ← hframe]
            rfl
          · rw [if_neg hm, if_neg (fun h => hm h.1)]
            rfl
      · rw [if_neg hempty]
        refine ⟨s, rfl, h, fun m' => ?_⟩
        rw [if_neg (fun h => hempty h.2), List.append_nil]
  | msgsnd m allowed =>
      have hsame := msgsnd_same (s := s) m allowed
      refine ⟨s.msgsnd m allowed, rfl, h.of_same hsame, fun m' => ?_⟩
      rw [hsame.2]
      exact (List.append_nil _).symm
  | command =>
      obtain ⟨s', hs'⟩ := exists_command hconserved h
      have hsame := command_same hs'
      refine ⟨s', hs', h.of_same hsame, fun m' => ?_⟩
      rw [hsame.2]
      exact (List.append_nil _).symm

theorem run_whole {events : List Event} (hwhole : ∀ e ∈ events, Whole e)
    (hconserved : Conserved s) (h : Ready s) :
    ∃ s', s.run events = some s' ∧ Ready s' ∧ ∀ m,
      (callsOf m s'.calls).map PackCall.frame =
        (callsOf m s.calls).map PackCall.frame ++ reads m s events := by
  induction events generalizing s with
  | nil => exact ⟨s, rfl, h, fun m => (List.append_nil _).symm⟩
  | cons e events ih =>
      obtain ⟨s₁, hstep, hready, hcalls⟩ := step_whole hconserved h (hwhole e List.mem_cons_self)
      obtain ⟨s', hrun, hready', hcalls'⟩ :=
        ih (fun e he => hwhole e (List.mem_cons_of_mem _ he))
          (conserved_step hconserved e hstep) hready
      refine ⟨s', by rw [State.run, hstep, Option.bind_some, hrun], hready', fun m => ?_⟩
      rw [hcalls', hcalls, reads, hstep, List.append_assoc]

end

/-- **What the nodes get from clients that send one command at a time**, none to set the time or the
network, and each with a byte 3 that CommManager has room for: in every order of the steps no program
leaves its defined behaviour, every command is handed to `Pack_Manager` once and in order, and
CommManager writes, in the order of the commands that found a place, what belongs to their
frames. -/
theorem line_of_whole (receiveBuffer : Manager → Mem) {events : List Event}
    (hwhole : ∀ e ∈ events, Whole e) : ∃ s,
    (State.start receiveBuffer : State capacity).run events = some s ∧
      (∀ m, (callsOf m s.calls).map PackCall.frame =
        reads m (State.start receiveBuffer : State capacity) events) ∧
      s.line <+: ((queued s.sent).map PackCall.frame).flatMap nodeWrites ∧
      ((s.queues .m2mid).messages = [] →
        s.line = ((queued s.sent).map PackCall.frame).flatMap nodeWrites) := by
  have hstart : Ready (State.start receiveBuffer : State capacity) :=
    ⟨fun _ => rfl, fun p hp => absurd hp List.not_mem_nil⟩
  obtain ⟨s, hrun, hready, hcalls⟩ := run_whole hwhole (conserved_start receiveBuffer) hstart
  have hconserved := conserved_run (conserved_start receiveBuffer) hrun
  obtain ⟨taken, waiting, hqueued, hline, hmessages⟩ := hconserved.line
  have hplain : ∀ c ∈ queued s.sent, Plain c := by
    intro c hc
    obtain ⟨-, p, hp, rfl⟩ := exists_call_of_queued hconserved hc
    exact (hready.calls p hp).1
  have hbytes : ((queued s.sent).map PackCall.frame).flatMap nodeWrites =
      (queued s.sent).flatMap nodeBytes := by
    rw [List.flatMap_map]
    exact List.flatMap_congr (fun c hc => (nodeBytes_of_plain (hplain c hc)).symm)
  refine ⟨s, hrun, hcalls, ?_, fun hempty => ?_⟩
  · rw [hbytes, hqueued, hline, List.flatMap_append]
    exact List.prefix_append _ _
  · rw [hmessages, List.map_eq_nil_iff] at hempty
    rw [hbytes, hqueued, hline, hempty, List.append_nil]

theorem line_of_whole_two : ∃ s : State 2,
    (State.start fun _ _ => 0).run twoEvents = some s ∧
      s.line = ((queued s.sent).map PackCall.frame).flatMap nodeWrites := by
  have hwhole : ∀ e ∈ twoEvents, Whole e := by
    simp only [twoEvents, List.forall_mem_cons, List.not_mem_nil, false_imp_iff, implies_true,
      and_true, Whole, true_and]
    exact ⟨⟨⟨⟨[1, 5], by decide⟩, rfl, by decide⟩, by decide⟩,
      ⟨⟨⟨[0x12, 3, 7, 8, 1], by decide⟩, rfl, by decide⟩, by decide⟩,
      ⟨⟨⟨[4, 0x11, 5, 0], by decide⟩, rfl, by decide⟩, by decide⟩⟩
  have hempty : (two.queues .m2mid).messages = [] :=
    List.eq_nil_of_length_eq_zero (by decide +kernel)
  obtain ⟨s, hrun, -, -, hall⟩ := @line_of_whole 2 (fun _ _ => 0) _ hwhole
  obtain rfl := Option.some.inj (run_two.symm.trans hrun)
  exact ⟨two, hrun, hall hempty⟩

end IdcuIot.RemoteCommand
