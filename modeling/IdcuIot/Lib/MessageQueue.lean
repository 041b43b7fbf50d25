import Mathlib.Data.List.Count
import Mathlib.Tactic

/-! # Message queues

A System V message queue holds at most `capacity` messages, each with a type.  `msgsnd` puts a
message at its end, or fails when it is full; `msgrcv` takes the first message of a given type.
Both with `IPC_NOWAIT`: neither waits.

`count` is the number of messages of one type.  A queue that holds messages of two types, of which
only one is ever received, is full for good when the other one has taken all places
(`hasRoom_iff_count`). -/

/-- A queue of messages with a finite number of places. -/
structure MessageQueue (α : Type*) (capacity : ℕ) where
  messages : List α
  length_le : messages.length ≤ capacity

namespace MessageQueue

variable {α : Type*} {capacity : ℕ}

/-- A queue that was just made. -/
def empty : MessageQueue α capacity := ⟨[], Nat.zero_le _⟩

/-- Another message can be put on the queue. -/
def HasRoom (q : MessageQueue α capacity) : Prop := q.messages.length < capacity

instance (q : MessageQueue α capacity) : Decidable q.HasRoom := inferInstanceAs (Decidable (_ < _))

/-- `msgsnd`: `none` when the queue is full. -/
def msgsnd (q : MessageQueue α capacity) (a : α) : Option (MessageQueue α capacity) :=
  if h : q.HasRoom then
    some ⟨q.messages ++ [a], by rw [List.length_append]; exact h⟩
  else none

section
variable (type : α → ℕ)

/-- `msgrcv`: the first message of type `t`, or `none` when there is no such message. -/
def msgrcv (q : MessageQueue α capacity) (t : ℕ) : Option (α × MessageQueue α capacity) :=
  (q.messages.find? (fun a => type a == t)).map (fun a =>
    (a, ⟨q.messages.eraseP (fun a => type a == t), (List.length_eraseP_le).trans q.length_le⟩))

/-- `msgrcv` with type 0: the first message, whatever its type. -/
def msgrcvFirst : MessageQueue α capacity → Option (α × MessageQueue α capacity)
  | ⟨[], _⟩ => none
  | ⟨a :: messages, h⟩ => some (a, ⟨messages, (Nat.le_succ _).trans h⟩)

/-- Number of messages of type `t`. -/
def count (q : MessageQueue α capacity) (t : ℕ) : ℕ := q.messages.countP (fun a => type a == t)

end

variable {type : α → ℕ} {q q' : MessageQueue α capacity} {a : α} {t u : ℕ}

@[simp] theorem count_empty : (empty : MessageQueue α capacity).count type t = 0 := rfl

/-! ### Sending -/

theorem msgsnd_of_hasRoom (h : q.HasRoom) (a : α) :
    ∃ q', q.msgsnd a = some q' ∧ q'.messages = q.messages ++ [a] :=
  ⟨_, dif_pos h, rfl⟩

theorem msgsnd_of_full (h : ¬ q.HasRoom) (a : α) : q.msgsnd a = none := dif_neg h

theorem messages_of_msgsnd (h : q.msgsnd a = some q') :
    q.HasRoom ∧ q'.messages = q.messages ++ [a] := by
  by_cases hroom : q.HasRoom
  · obtain ⟨q'', hq, hmessages⟩ := msgsnd_of_hasRoom hroom a
    obtain rfl := Option.some.inj (hq.symm.trans h)
    exact ⟨hroom, hmessages⟩
  · rw [msgsnd_of_full hroom] at h
    cases h

theorem count_of_msgsnd (h : q.msgsnd a = some q') :
    q'.count type t = q.count type t + if type a = t then 1 else 0 := by
  unfold count
  rw [(messages_of_msgsnd h).2, List.countP_append, List.countP_singleton]
  simp only [beq_iff_eq]

/-! ### Receiving -/

/-- The message that is taken has the type that was asked for, and the others keep their
places. -/
theorem messages_of_msgrcv (h : q.msgrcv type t = some (a, q')) :
    type a = t ∧ ∃ l l', q.messages = l ++ a :: l' ∧ q'.messages = l ++ l' := by
  obtain ⟨b, hfind, hb⟩ := Option.map_eq_some_iff.mp h
  obtain ⟨rfl, rfl⟩ := Prod.mk.inj hb
  obtain ⟨hp, l, l', heq, hnot⟩ := List.find?_eq_some_iff_append.mp hfind
  refine ⟨beq_iff_eq.mp hp, l, l', heq, ?_⟩
  change q.messages.eraseP _ = _
  rw [heq, List.eraseP_append_right _ (fun c hc => by simpa using hnot c hc),
    List.eraseP_cons_of_pos (p := fun a => type a == t) hp]

theorem messages_of_msgrcvFirst (h : q.msgrcvFirst = some (a, q')) :
    q.messages = a :: q'.messages := by
  obtain ⟨messages, hle⟩ := q
  cases messages with
  | nil => cases h
  | cons b messages =>
      obtain ⟨rfl, rfl⟩ := Prod.mk.inj (Option.some.inj h)
      rfl

theorem messages_of_msgrcv_of_forall (hall : ∀ b ∈ q.messages, type b = t)
    (h : q.msgrcv type t = some (a, q')) : q.messages = a :: q'.messages := by
  obtain ⟨b, hfind, hb⟩ := Option.map_eq_some_iff.mp h
  obtain ⟨rfl, rfl⟩ := Prod.mk.inj hb
  obtain ⟨messages, hle⟩ := q
  cases messages with
  | nil => cases hfind
  | cons c messages =>
      have hc : (type c == t) = true := beq_iff_eq.mpr (hall c List.mem_cons_self)
      rw [List.find?_cons_of_pos (p := fun a => type a == t) hc] at hfind
      obtain rfl := Option.some.inj hfind
      change c :: messages = c :: (c :: messages).eraseP (fun a => type a == t)
      rw [List.eraseP_cons_of_pos (p := fun a => type a == t) hc]

theorem msgrcv_eq_none_iff : q.msgrcv type t = none ↔ q.count type t = 0 := by
  unfold msgrcv count
  rw [Option.map_eq_none_iff, List.find?_eq_none, List.countP_eq_zero]

theorem count_of_msgrcv (h : q.msgrcv type t = some (a, q')) :
    q.count type u = q'.count type u + if t = u then 1 else 0 := by
  obtain ⟨rfl, l, l', heq, heq'⟩ := messages_of_msgrcv h
  unfold count
  rw [heq, heq', List.countP_append, List.countP_append, List.countP_cons, Nat.add_assoc]
  simp only [beq_iff_eq]

theorem msgrcv_of_last {l : List α} (h : q.messages = l ++ [a]) (ha : type a = t)
    (hl : ∀ b ∈ l, type b ≠ t) : ∃ q', q.msgrcv type t = some (a, q') ∧ q'.messages = l := by
  have hfind : q.messages.find? (fun b => type b == t) = some a := by
    rw [h, List.find?_append, List.find?_eq_none.mpr (fun b hb => by simpa using hl b hb)]
    simp [ha]
  refine ⟨_, congrArg (Option.map _) hfind, ?_⟩
  change q.messages.eraseP _ = l
  rw [h, List.eraseP_append_right _ (fun b hb => by simpa using hl b hb)]
  simp [ha]

/-! ### Two types -/

/-- Every message is of type `t` or of type `u`. -/
def Only (type : α → ℕ) (t u : ℕ) (q : MessageQueue α capacity) : Prop :=
  ∀ a ∈ q.messages, type a = t ∨ type a = u

theorem only_empty : Only type t u (empty : MessageQueue α capacity) := List.forall_mem_nil _

theorem Only.msgsnd (hq : Only type t u q) (ha : type a = t ∨ type a = u)
    (h : q.msgsnd a = some q') : Only type t u q' := by
  unfold Only
  rw [(messages_of_msgsnd h).2]
  exact List.forall_mem_append.mpr ⟨hq, List.forall_mem_singleton.mpr ha⟩

theorem Only.msgrcv {v : ℕ} (hq : Only type t u q) (h : q.msgrcv type v = some (a, q')) :
    Only type t u q' := by
  obtain ⟨-, l, l', heq, heq'⟩ := messages_of_msgrcv h
  intro b hb
  apply hq b
  rw [heq', List.mem_append] at hb
  rw [heq, List.mem_append, List.mem_cons]
  exact hb.imp id Or.inr

theorem Only.length_eq (hq : Only type t u q) (htu : t ≠ u) :
    q.messages.length = q.count type t + q.count type u := by
  unfold count
  rw [List.length_eq_countP_add_countP (fun a => type a == t)]
  refine congrArg (_ + ·) (List.countP_congr (fun a ha => ?_))
  rcases hq a ha with h | h
  · simp [h, htu]
  · simp [h, htu.symm]

/-- **When a queue fills with messages that nobody takes**: with messages of types `t` and `u`
only, there is room once those of type `t` are gone exactly when those of type `u` have not taken
every place. -/
theorem hasRoom_iff_count (hq : Only type t u q) (htu : t ≠ u) :
    (q.count type t = 0 → q.HasRoom) ↔ q.count type u < capacity := by
  have hlength := hq.length_eq htu
  have hle := q.length_le
  unfold HasRoom
  constructor
  · intro h
    by_contra hlt
    have := h (by omega)
    omega
  · intro hlt h0
    omega

end MessageQueue
