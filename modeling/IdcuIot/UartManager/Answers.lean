import IdcuIot.Lib.MessageQueue
import IdcuIot.M2MManager.PackManager

/-! # UartManager: the answers on the command queue

M2MManager puts a command for a node on the queue with key 2222 as a message of type 1.  The main
loop of UartManager takes it there and answers with a message of type 2 on the same queue, which
no program receives; neither side waits for a place.  `hasRoom_iff_answers` says until when there
is room for commands, and `run_of_full` that it never comes back. -/

namespace IdcuIot.UartManager

open Memory

/-- `di`: for each of the `DI_PORT` ports a type, a length and four bytes.  Nothing in the program
writes to it. -/
def di : Mem := fun _ => 0

/-- The answer. -/
def data2 : TData := TData.ofBuffer 2 di (6 * 6)

/-- The test on a command: its first byte is `FE` and its last one is `FF`.  For an empty command
the code looks at `data_buff[-1]`, a byte of `data_num` that is `0`; the verdict is the same. -/
def isFrame (data : TData) : Bool :=
  data.dataBuff 0 == 0xFE && data.dataBuff (data.dataNum - 1) == 0xFF

/-- The queue, and whether `main` has taken a command that it is about to answer. -/
structure State (capacity : ℕ) where
  m2mid : MessageQueue TData capacity
  answering : Bool

/-- The steps of the two programs: a call of `commandNodeConfig` in M2MManager, and the `msgrcv` and
the `msgsnd` in the loop of UartManager. -/
inductive Event where
  | command (buffer : Mem) (len : ℕ)
  | receive
  | answer

variable {capacity : ℕ}

/-- The queue after an effect of M2MManager: with `IPC_NOWAIT` a message that finds no place is
dropped. -/
def perform (q : MessageQueue TData capacity) : M2MManager.Effect → MessageQueue TData capacity
  | .msgsnd .m2mid data => (q.msgsnd data).getD q
  | _ => q

/-- One step. -/
def step (s : State capacity) : Event → State capacity
  | .command buffer len =>
      { s with m2mid := perform s.m2mid (M2MManager.commandNodeConfig buffer len) }
  | .receive =>
      if s.answering then s
      else
        match s.m2mid.msgrcv TData.dataType 1 with
        | none => s
        | some (data, q) => ⟨q, isFrame data⟩
  | .answer => if s.answering then ⟨(s.m2mid.msgsnd data2).getD s.m2mid, false⟩ else s

/-- The queue is made empty. -/
def start : State capacity := ⟨.empty, false⟩

/-- The state after the steps of the two programs, in whatever order they are made. -/
def run (s : State capacity) (events : List Event) : State capacity := events.foldl step s

theorem run_append (s : State capacity) (l l' : List Event) :
    run s (l ++ l') = run (run s l) l' := List.foldl_append

/-- An answer is sent and finds a place. -/
def FindsRoom (s : State capacity) : Event → Prop
  | .answer => s.answering = true ∧ s.m2mid.HasRoom
  | _ => False

instance (s : State capacity) : ∀ e, Decidable (FindsRoom s e)
  | .answer => inferInstanceAs (Decidable (_ ∧ _))
  | .command _ _ | .receive => inferInstanceAs (Decidable False)

/-- Number of answers that found a place. -/
def answers : State capacity → List Event → ℕ
  | _, [] => 0
  | s, e :: es => (if FindsRoom s e then 1 else 0) + answers (step s e) es

/-! ### One step -/

section
variable {s : State capacity} {q : MessageQueue TData capacity} {data : TData}

/-- A queue with commands and answers only. -/
def Inv (q : MessageQueue TData capacity) : Prop := q.Only TData.dataType 1 2

theorem inv_getD (hq : Inv q) (hdata : data.dataType = 1 ∨ data.dataType = 2) :
    Inv ((q.msgsnd data).getD q) := by
  cases h : q.msgsnd data with
  | none => exact hq
  | some q' => exact hq.msgsnd hdata h

/-- Every step keeps the queue one of commands and answers. -/
theorem inv_step (hs : Inv s.m2mid) (e : Event) : Inv (step s e).m2mid := by
  cases e with
  | command buffer len => exact inv_getD hs (Or.inl rfl)
  | receive =>
      unfold step
      split_ifs
      · exact hs
      · cases h : s.m2mid.msgrcv TData.dataType 1 with
        | none => exact hs
        | some p => exact hs.msgrcv h
  | answer =>
      unfold step
      split_ifs
      · exact inv_getD hs (Or.inr rfl)
      · exact hs

theorem count_getD (q : MessageQueue TData capacity) (data : TData) (t : ℕ) :
    ((q.msgsnd data).getD q).count TData.dataType t =
      q.count TData.dataType t + if data.dataType = t ∧ q.HasRoom then 1 else 0 := by
  by_cases hroom : q.HasRoom
  · obtain ⟨q', h, -⟩ := MessageQueue.msgsnd_of_hasRoom hroom data
    rw [h, Option.getD_some, MessageQueue.count_of_msgsnd h]
    simp only [hroom, and_true]
  · rw [MessageQueue.msgsnd_of_full hroom, Option.getD_none, if_neg (fun h => hroom h.2),
      Nat.add_zero]

/-- Only an answer that finds a place changes the number of answers on the queue. -/
theorem count_step (s : State capacity) (e : Event) :
    (step s e).m2mid.count TData.dataType 2 =
      s.m2mid.count TData.dataType 2 + if FindsRoom s e then 1 else 0 := by
  cases e with
  | command buffer len =>
      refine (count_getD s.m2mid (TData.ofBuffer 1 buffer len) 2).trans ?_
      rw [if_neg (fun h => absurd h.1 (by decide : (1 : ℕ) ≠ 2)),
        if_neg (show ¬ FindsRoom s (.command buffer len) from id)]
  | receive =>
      unfold step
      rw [if_neg (show ¬ FindsRoom s .receive from id), Nat.add_zero]
      split_ifs
      · rfl
      · cases h : s.m2mid.msgrcv TData.dataType 1 with
        | none => rfl
        | some p =>
            rw [MessageQueue.count_of_msgrcv h, if_neg (by decide), Nat.add_zero]
  | answer =>
      by_cases h : s.answering = true
      · have hstep : step s .answer = ⟨(s.m2mid.msgsnd data2).getD s.m2mid, false⟩ := if_pos h
        have hiff : (data2.dataType = 2 ∧ s.m2mid.HasRoom) ↔ FindsRoom s .answer :=
          and_congr_left' (iff_of_true rfl h)
        rw [hstep]
        refine (count_getD s.m2mid data2 2).trans ?_
        simp only [hiff]
      · have hstep : step s .answer = s := if_neg h
        rw [hstep, if_neg (fun hr : FindsRoom s .answer => h hr.1), Nat.add_zero]

/-! ### Runs -/

theorem inv_run (events : List Event) : ∀ {s : State capacity}, Inv s.m2mid →
    Inv (run s events).m2mid := by
  induction events with
  | nil => intro s hs; exact hs
  | cons e es ih => intro s hs; exact ih (inv_step hs e)

theorem count_run (events : List Event) : ∀ s : State capacity,
    (run s events).m2mid.count TData.dataType 2 =
      s.m2mid.count TData.dataType 2 + answers s events := by
  induction events with
  | nil => intro s; rfl
  | cons e es ih =>
      intro s
      refine (ih (step s e)).trans ?_
      rw [count_step, answers, Nat.add_assoc]

/-- **Until when there is room for commands**: whatever the capacity of the queue and the order of
the steps, in the state that is reached a command can be put on the queue once all pending
commands are taken exactly when fewer answers have found a place than the queue has places. -/
theorem hasRoom_iff_answers (capacity : ℕ) (events : List Event) :
    ((run (start : State capacity) events).m2mid.count TData.dataType 1 = 0 →
      (run (start : State capacity) events).m2mid.HasRoom) ↔
        answers (start : State capacity) events < capacity := by
  have hcount := count_run events (start : State capacity)
  rw [show (start : State capacity).m2mid.count TData.dataType 2 = 0 from rfl,
    Nat.zero_add] at hcount
  rw [← hcount]
  exact MessageQueue.hasRoom_iff_count (inv_run events MessageQueue.only_empty) (by decide)

/-- A queue full of answers stays as it is: every later command is dropped. -/
theorem run_of_full (events : List Event) : ∀ {s : State capacity}, ¬ s.m2mid.HasRoom →
    s.m2mid.count TData.dataType 1 = 0 → (run s events).m2mid = s.m2mid := by
  induction events with
  | nil => intro s _ _; rfl
  | cons e es ih =>
      intro s hfull hnone
      have hdropped : ∀ data, (s.m2mid.msgsnd data).getD s.m2mid = s.m2mid := fun data => by
        rw [MessageQueue.msgsnd_of_full hfull, Option.getD_none]
      have hstep : (step s e).m2mid = s.m2mid := by
        cases e with
        | command buffer len => exact hdropped _
        | receive =>
            unfold step
            rw [MessageQueue.msgrcv_eq_none_iff.mpr hnone, ite_self]
        | answer =>
            unfold step
            split_ifs
            · exact hdropped data2
            · rfl
      exact (ih (hstep ▸ hfull) (hstep ▸ hnone)).trans hstep

end

/-! ### Commands one at a time -/

/-- The command `FE 00 FF`. -/
def shortest : Mem := Mem.store (fun _ => 0) 0 [0xFE, 0, 0xFF]

/-- Commands that are answered before the next one comes. -/
def rounds : ℕ → List Event
  | 0 => []
  | k + 1 => rounds k ++ [.command shortest 3, .receive, .answer]

/-- They leave nothing but their answers, as long as these find a place. -/
theorem run_rounds {k : ℕ} (hk : k ≤ capacity) :
    (run (start : State capacity) (rounds k)).m2mid.messages = List.replicate k data2 ∧
      (run (start : State capacity) (rounds k)).answering = false := by
  induction k with
  | zero => exact ⟨rfl, rfl⟩
  | succ k ih =>
      obtain ⟨hmessages, hanswering⟩ := ih (by omega)
      rw [rounds, run_append]
      generalize run (start : State capacity) (rounds k) = s at hmessages hanswering
      have hroom : ∀ q : MessageQueue TData capacity, q.messages = List.replicate k data2 →
          q.HasRoom := fun q hq => by
        unfold MessageQueue.HasRoom
        rw [hq, List.length_replicate]
        omega
      obtain ⟨q₁, hsent, hq₁⟩ :=
        MessageQueue.msgsnd_of_hasRoom (hroom s.m2mid hmessages) (TData.ofBuffer 1 shortest 3)
      obtain ⟨q₂, htaken, hq₂⟩ : ∃ q₂, q₁.msgrcv TData.dataType 1 =
          some (TData.ofBuffer 1 shortest 3, q₂) ∧ q₂.messages = List.replicate k data2 :=
        MessageQueue.msgrcv_of_last (hmessages ▸ hq₁) rfl (fun b hb => by
          rw [List.eq_of_mem_replicate hb]
          decide)
      obtain ⟨q₃, hanswer, hq₃⟩ := MessageQueue.msgsnd_of_hasRoom (hroom q₂ hq₂) data2
      have h1 : step s (.command shortest 3) = ⟨q₁, false⟩ := by
        change State.mk ((s.m2mid.msgsnd (TData.ofBuffer 1 shortest 3)).getD s.m2mid) s.answering = _
        rw [hsent, Option.getD_some, hanswering]
      have h2 : step ⟨q₁, false⟩ .receive = ⟨q₂, true⟩ := by
        unfold step
        simp only [htaken]
        rfl
      have h3 : step ⟨q₂, true⟩ .answer = ⟨q₃, false⟩ := by
        change State.mk ((q₂.msgsnd data2).getD q₂) false = _
        rw [hanswer, Option.getD_some]
      have hrun : run s [.command shortest 3, .receive, .answer] = ⟨q₃, false⟩ := by
        unfold run
        rw [List.foldl_cons, h1, List.foldl_cons, h2, List.foldl_cons, h3, List.foldl_nil]
      rw [hrun]
      exact ⟨by rw [hq₃, hq₂, List.replicate_succ'], rfl⟩

/-- With any capacity the queue is full of answers after as many commands. -/
theorem not_hasRoom_rounds (capacity : ℕ) :
    (run (start : State capacity) (rounds capacity)).m2mid.count TData.dataType 1 = 0 ∧
      ¬ (run (start : State capacity) (rounds capacity)).m2mid.HasRoom := by
  obtain ⟨hmessages, -⟩ := run_rounds (le_refl capacity)
  unfold MessageQueue.count MessageQueue.HasRoom
  rw [hmessages, List.length_replicate]
  exact ⟨List.countP_eq_zero.mpr (fun a ha => by rw [List.eq_of_mem_replicate ha]; decide),
    lt_irrefl capacity⟩

/-- The 16384 bytes that a queue holds by default are 15 messages of 1028 bytes. -/
theorem hasRoom_wrong : ¬ ∀ events : List Event,
    (run (start : State 15) events).m2mid.count TData.dataType 1 = 0 →
      (run (start : State 15) events).m2mid.HasRoom := by
  intro h
  obtain ⟨hnone, hfull⟩ := not_hasRoom_rounds 15
  exact hfull (h (rounds 15) hnone)

end IdcuIot.UartManager
