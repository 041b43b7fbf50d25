import IdcuIot.Lib.MessageQueue
import IdcuIot.M2MManager.PackManager

/-! # M2MManager: commands that remove a node

For `DELETENODE` and `CHANGENODEINFO` the command is put on one queue or two, and then the row of
the node is deleted from `tb_comm_status`.  Every step has a result, and `Pack_Manager` looks at
none of them (`carryOut`), so the row is deleted also when a queue is full.
`nodeCommand_whole_iff` says when a command is not half done. -/

namespace IdcuIot.M2MManager

open Memory

variable {capacity : ℕ}

/-- The two queues, and the column `nodeid` of `tb_comm_status`. -/
structure Gateway (capacity : ℕ) where
  queues : Queue → MessageQueue TData capacity
  tbCommStatus : List ℤ

/-- Whether the system lets a call succeed: a `msgsnd` on a queue with room, the `DELETE`. -/
structure Calls where
  msgsnd : Queue → Bool
  delete : Bool

namespace Gateway

/-- The `msgsnd` in `commandM2MConfig` and `commandNodeConfig`. -/
def msgsnd (calls : Calls) (g : Gateway capacity) (queue : Queue) (data : TData) :
    ℤ × Gateway capacity :=
  match if calls.msgsnd queue then (g.queues queue).msgsnd data else none with
  | none => (-1, g)
  | some q => (0, { g with queues := Function.update g.queues queue q })

/-- `DELETE FROM TB_COMM_STATUS WHERE nodeid = …`; the two functions it stands in return 0 in any
case. -/
def deleteNode (calls : Calls) (g : Gateway capacity) (nodeid : UInt8) : ℤ × Gateway capacity :=
  (0, if calls.delete then
      { g with tbCommStatus := g.tbCommStatus.filter (· ≠ (nodeid.toNat : ℤ)) }
    else g)

/-- One effect of `Pack_Manager`, and what it returns. -/
def perform (calls : Calls) (g : Gateway capacity) : Effect → ℤ × Gateway capacity
  | .msgsnd queue data => g.msgsnd calls queue data
  | .commandDeleteNode nodeid => g.deleteNode calls nodeid
  | .nodeInfoupdate nodeid _ _ => g.deleteNode calls nodeid
  | _ => (0, g)

/-- All effects, one after the other, whatever they return. -/
def carryOut (calls : Calls) (g : Gateway capacity) (effects : List Effect) : Gateway capacity :=
  effects.foldl (fun g effect => (g.perform calls effect).2) g

end Gateway

/-- A message is put on its queue. -/
def Queued (g g' : Gateway capacity) (m : Queue × TData) : Prop :=
  (g'.queues m.1).messages = (g.queues m.1).messages ++ [m.2]

/-- The row of the node was there and is no longer. -/
def Deleted (g g' : Gateway capacity) (nodeid : UInt8) : Prop :=
  (nodeid.toNat : ℤ) ∈ g.tbCommStatus ∧ (nodeid.toNat : ℤ) ∉ g'.tbCommStatus

/-- The row of the node is deleted only if every message of the command was queued. -/
def NotHalfDone (g g' : Gateway capacity) (effects : List Effect) (nodeid : UInt8) : Prop :=
  Deleted g g' nodeid → ∀ m ∈ messages effects, Queued g g' m

/-! ### One effect -/

section
variable (calls : Calls) (g : Gateway capacity) (queue : Queue) (data : TData) (nodeid : UInt8)

/-- The calls of the system and the queue let a message through. -/
def Passes : Prop := calls.msgsnd queue = true ∧ (g.queues queue).HasRoom

instance : Decidable (Passes calls g queue) := inferInstanceAs (Decidable (_ ∧ _))

@[simp] theorem tbCommStatus_msgsnd :
    (g.msgsnd calls queue data).2.tbCommStatus = g.tbCommStatus := by
  unfold Gateway.msgsnd
  split <;> rfl

theorem queues_msgsnd (q : Queue) :
    ((g.msgsnd calls queue data).2.queues q).messages =
      (g.queues q).messages ++ if q = queue ∧ Passes calls g queue then [data] else [] := by
  unfold Gateway.msgsnd Passes
  by_cases hcall : calls.msgsnd queue = true
  · rw [if_pos hcall]
    by_cases hroom : (g.queues queue).HasRoom
    · obtain ⟨queue', hsent, hmessages⟩ := MessageQueue.msgsnd_of_hasRoom hroom data
      rw [hsent]
      by_cases hq : q = queue
      · subst hq
        simp only [Function.update_self, hmessages, hcall, hroom, and_self, if_true]
      · simp only [Function.update_of_ne hq, hq, false_and, if_false, List.append_nil]
    · rw [MessageQueue.msgsnd_of_full hroom]
      simp only [hroom, and_false, if_false, List.append_nil]
  · rw [if_neg hcall]
    simp only [hcall, Bool.false_eq_true, false_and, and_false, if_false, List.append_nil]

@[simp] theorem queues_deleteNode : (g.deleteNode calls nodeid).2.queues = g.queues := by
  unfold Gateway.deleteNode
  dsimp only
  split_ifs <;> rfl

theorem deleted_deleteNode : Deleted g (g.deleteNode calls nodeid).2 nodeid ↔
    (nodeid.toNat : ℤ) ∈ g.tbCommStatus ∧ calls.delete = true := by
  unfold Deleted Gateway.deleteNode
  refine and_congr_right (fun hmem => ?_)
  cases calls.delete with
  | false => simpa using hmem
  | true => simp

end

/-! ### All messages of a command -/

section
variable (calls : Calls) (g : Gateway capacity) (data : TData)

/-- The effects that put a message on the queues `queues`. -/
def sends (queues : List Queue) : List Effect := queues.map (fun queue => .msgsnd queue data)

theorem carryOut_sends_cons (queue : Queue) (queues : List Queue) :
    g.carryOut calls (sends data (queue :: queues)) =
      (g.msgsnd calls queue data).2.carryOut calls (sends data queues) := rfl

theorem tbCommStatus_sends (queues : List Queue) :
    (g.carryOut calls (sends data queues)).tbCommStatus = g.tbCommStatus := by
  induction queues generalizing g with
  | nil => rfl
  | cons queue queues ih => rw [carryOut_sends_cons, ih, tbCommStatus_msgsnd]

theorem queues_sends {queues : List Queue} (h : queues.Nodup) (q : Queue) :
    ((g.carryOut calls (sends data queues)).queues q).messages =
      (g.queues q).messages ++ if q ∈ queues ∧ Passes calls g q then [data] else [] := by
  induction queues generalizing g with
  | nil => simp [sends, Gateway.carryOut]
  | cons queue queues ih =>
      obtain ⟨hnot, hnodup⟩ := List.nodup_cons.mp h
      rw [carryOut_sends_cons, ih _ hnodup, queues_msgsnd]
      by_cases hq : q = queue
      · subst hq
        simp only [hnot, false_and, if_false, List.append_nil, List.mem_cons, true_or, true_and]
      · have hpasses : Passes calls (g.msgsnd calls queue data).2 q ↔ Passes calls g q := by
          unfold Passes MessageQueue.HasRoom
          rw [queues_msgsnd, if_neg (fun hc => hq hc.1), List.append_nil]
        simp only [hq, false_and, if_false, List.append_nil, List.mem_cons, false_or, hpasses]

end

theorem carryOut_packManager (calls : Calls) (g : Gateway capacity) (sys : System) (buffer : Mem)
    (len : ℕ) (h : Command.ofType (buffer 2) = some .deleteNode ∨
      Command.ofType (buffer 2) = some .changeNodeInfo) :
    g.carryOut calls (packManager sys buffer len) =
      ((g.carryOut calls (sends (TData.ofBuffer 1 buffer len)
        (queuesOf (Command.ofType (buffer 2)) (buffer 4)))).deleteNode calls (buffer 4)).2 := by
  rcases h with h | h
  · simp only [packManager, h]
    rfl
  · simp only [packManager, h]
    rfl

theorem nodup_queuesOf (command : Option Command) (nodeid : UInt8) :
    (queuesOf command nodeid).Nodup := by
  unfold queuesOf
  split
  · decide
  · decide
  · split_ifs <;> decide
  · exact List.nodup_nil

/-- **When a command is not half done**: when the row of the node is not there or is kept, or when
every queue takes its message. -/
theorem nodeCommand_whole_iff (calls : Calls) (g : Gateway capacity) (sys : System) (buffer : Mem)
    (len : ℕ) (h : Command.ofType (buffer 2) = some .deleteNode ∨
      Command.ofType (buffer 2) = some .changeNodeInfo) :
    NotHalfDone g (g.carryOut calls (packManager sys buffer len)) (packManager sys buffer len)
        (buffer 4) ↔
      ((((buffer 4).toNat : ℤ) ∈ g.tbCommStatus ∧ calls.delete = true) →
        ∀ q ∈ queuesOf (Command.ofType (buffer 2)) (buffer 4), Passes calls g q) := by
  have hqueued : ∀ q ∈ queuesOf (Command.ofType (buffer 2)) (buffer 4),
      (Queued g (g.carryOut calls (packManager sys buffer len)) (q, TData.ofBuffer 1 buffer len) ↔
        Passes calls g q) := by
    intro q hq
    unfold Queued
    rw [carryOut_packManager calls g sys buffer len h, queues_deleteNode,
      queues_sends calls g _ (nodup_queuesOf _ _), List.append_cancel_left_eq]
    by_cases hpasses : Passes calls g q
    · simp [hq, hpasses]
    · simp [hpasses]
  have hdeleted : Deleted g (g.carryOut calls (packManager sys buffer len)) (buffer 4) ↔
      ((buffer 4).toNat : ℤ) ∈ g.tbCommStatus ∧ calls.delete = true := by
    rw [carryOut_packManager calls g sys buffer len h, ← tbCommStatus_sends calls g
      (TData.ofBuffer 1 buffer len) (queuesOf (Command.ofType (buffer 2)) (buffer 4)),
      ← deleted_deleteNode]
    unfold Deleted
    rw [tbCommStatus_sends]
  unfold NotHalfDone
  rw [hdeleted, messages_packManager, List.forall_mem_map]
  exact imp_congr_right (fun _ => forall₂_congr hqueued)

/-- Delete node 5. -/
def deleteFive : Mem := Mem.store (fun _ => 0) 0 [0xFE, 0x04, 0x04, 0x00, 0x05, 0x00, 0xFF]

theorem nodeCommand_whole_five :
    NotHalfDone (⟨fun _ => .empty, [5]⟩ : Gateway 1)
      (Gateway.carryOut ⟨fun _ => true, true⟩ ⟨fun _ => .empty, [5]⟩
        (packManager ⟨fun _ => 0, fun _ => 0⟩ deleteFive 8))
      (packManager ⟨fun _ => 0, fun _ => 0⟩ deleteFive 8) 5 :=
  (nodeCommand_whole_iff ⟨fun _ => true, true⟩ ⟨fun _ => .empty, [5]⟩ ⟨fun _ => 0, fun _ => 0⟩
    deleteFive 8 (Or.inl rfl)).mpr (fun _ => by decide)

/-- A queue with one place, which is taken. -/
def fullQueue : MessageQueue TData 1 := ⟨[TData.ofBuffer 1 deleteFive 8], le_rfl⟩

/-- With the queue of EventManager full, the node is forgotten without having been told. -/
theorem nodeCommand_half : ¬ ∀ (capacity : ℕ) (calls : Calls) (g : Gateway capacity)
    (sys : System) (buffer : Mem) (len : ℕ), (Command.ofType (buffer 2) = some .deleteNode ∨
      Command.ofType (buffer 2) = some .changeNodeInfo) →
    NotHalfDone g (g.carryOut calls (packManager sys buffer len)) (packManager sys buffer len)
      (buffer 4) := by
  intro h
  have hwhole := h 1 ⟨fun _ => true, true⟩ ⟨fun _ => fullQueue, [5]⟩
    ⟨fun _ => 0, fun _ => 0⟩ deleteFive 8 (Or.inl rfl)
  have hqueued := hwhole (by unfold Deleted; decide) (.eventid, TData.ofBuffer 1 deleteFive 8)
    (List.mem_singleton.mpr rfl)
  have hlength := congrArg List.length hqueued
  revert hlength
  decide

end IdcuIot.M2MManager
