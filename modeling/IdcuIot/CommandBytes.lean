import IdcuIot.SetupManager.PackManager

/-! # What a command takes from its frame

`Pack_Manager` of M2MManager and of SetupManager reads each command at its own offsets, out of a
buffer that is longer than the frame, and never looks at the length byte.  `needs` is the address
behind the last byte that a command reads: `actsOnFrame_iff_needs` says that a command acts on what
was sent exactly when the frame reaches that far. -/

namespace IdcuIot

open Memory

/-- A command acts on its frame only: what `Pack_Manager` does is the same for every buffer with
the same frame at its front, and nothing when the frame is shorter than what the command needs. -/
structure ActsOnFrame {α : Type} (acts : Mem → List α) (needs size : ℕ) (setBuffer : Mem) : Prop where
  own : ∀ m, Mem.AgreeBelow size setBuffer m → acts m = acts setBuffer
  short : size < needs → acts setBuffer = []

/-- It does when the frame has the bytes that are needed, and the last of them matters. -/
theorem actsOnFrame_iff {α : Type} {acts : Mem → List α} {needs size : ℕ} {setBuffer : Mem}
    (h : (∀ m, Mem.AgreeBelow size setBuffer m → acts m = acts setBuffer) ↔ needs ≤ size) :
    ActsOnFrame acts needs size setBuffer ↔ needs ≤ size :=
  ⟨fun hacts => h.mp hacts.own, fun hle => ⟨h.mpr hle, fun hlt => absurd hlt (Nat.not_lt.mpr hle)⟩⟩

namespace M2MManager

/-- An effect without the bytes of the message it queues. -/
def Effect.forget : Effect → Effect
  | .msgsnd queue _ => .msgsnd queue (TData.ofBuffer 1 (fun _ => 0) 0)
  | e => e

/-- What `Pack_Manager` does with a frame, the bytes of its messages apart. -/
def acts (sys : System) (len : ℕ) (buffer : Mem) : List Effect :=
  (packManager sys buffer len).map Effect.forget

/-- Address behind the last byte that a command reads. -/
def needs : Option Command → ℕ
  | some .timeSync => 11
  | some .getData => 10
  | some .deleteNode => 5
  | some .changeNodeInfo => 7
  | some .rebootNode => 5
  | some .getNodeList | none => 3

theorem QueryTime.at_congr {m m' : Mem} {i : ℕ} (h : ∀ k < 6, m (i + k) = m' (i + k)) :
    QueryTime.at m i = QueryTime.at m' i := by
  unfold QueryTime.at
  rw [← h 1 (by decide), ← h 2 (by decide), ← h 3 (by decide), ← h 4 (by decide),
    ← h 5 (by decide), show m i = m' i from h 0 (by decide)]

theorem exists_ne_byte (b : UInt8) : ∃ b', b' ≠ b :=
  ⟨if b = 0 then 1 else 0, by split_ifs with h <;> simp [h, eq_comm]⟩

section
variable {sys : System} {len : ℕ} {m m' : Mem}

theorem three_le_needs (c : Option Command) : 3 ≤ needs c := by
  cases c with
  | none => exact le_rfl
  | some c => cases c <;> decide

theorem acts_congr (h : Mem.AgreeBelow (needs (Command.ofType (m 2))) m m') :
    acts sys len m' = acts sys len m := by
  have htype : Command.ofType (m' 2) = Command.ofType (m 2) := by
    rw [h 2 (three_le_needs _)]
  generalize hc : Command.ofType (m 2) = c at h htype
  simp only [acts, packManager, hc, htype]
  cases c with
  | none => rfl
  | some c =>
      cases c with
      | timeSync =>
          have hat := QueryTime.at_congr (i := 5) (fun k hk => h (5 + k) (show 5 + k < 11 by omega))
          simp only [hat]
      | getData =>
          have hat := QueryTime.at_congr (i := 4) (fun k hk => h (4 + k) (show 4 + k < 10 by omega))
          simp only [hat, h 4 (show 4 < 10 by decide)]
      | deleteNode =>
          simp only [h 4 (show 4 < 5 by decide)]
          rfl
      | changeNodeInfo =>
          simp only [h 4 (show 4 < 7 by decide), h 5 (show 5 < 7 by decide),
            h 6 (show 6 < 7 by decide)]
          rfl
      | rebootNode =>
          simp only [h 4 (show 4 < 5 by decide)]
          split_ifs <;> rfl
      | getNodeList => rfl

theorem time_inj {p q : Prop} [Decidable p] [Decidable q] {t t' : QueryTime}
    (h : (if p then [Effect.getNodeStatusData t] else [.getNodeData t]).map Effect.forget =
      (if q then [Effect.getNodeStatusData t'] else [.getNodeData t']).map Effect.forget) :
    t = t' := by
  split_ifs at h <;> simp [Effect.forget] at h <;> exact h

theorem exists_acts_ne (hne : needs (Command.ofType (m 2)) ≠ 3) : ∃ b,
    acts sys len (Function.update m (needs (Command.ofType (m 2)) - 1) b) ≠ acts sys len m := by
  generalize hc : Command.ofType (m 2) = c at hne
  cases c with
  | none => exact absurd rfl hne
  | some c =>
      cases c with
      | timeSync =>
          obtain ⟨b, hb⟩ := exists_ne_byte (m 10)
          refine ⟨b, fun heq => hb ?_⟩
          simp [acts, packManager, hc, needs, Effect.forget, QueryTime.at, QueryTime.bytes] at heq
          exact heq.1
      | getData =>
          obtain ⟨b, hb⟩ := exists_ne_byte (m 9)
          refine ⟨b, fun heq => hb ?_⟩
          simp [acts, packManager, hc, needs] at heq
          exact congrArg QueryTime.sec (time_inj heq)
      | deleteNode =>
          obtain ⟨b, hb⟩ := exists_ne_byte (m 4)
          refine ⟨b, fun heq => hb ?_⟩
          simp [acts, packManager, hc, needs, Effect.forget] at heq
          exact heq.2
      | changeNodeInfo =>
          obtain ⟨b, hb⟩ := exists_ne_byte (m 6)
          refine ⟨b, fun heq => hb ?_⟩
          simp [acts, packManager, hc, needs, Effect.forget] at heq
          exact heq.2.2
      | rebootNode =>
          -- node 0 is also told the other queue
          refine ⟨if m 4 = 0 then 1 else 0, fun heq => ?_⟩
          simp only [acts, packManager, hc, needs] at heq
          by_cases h4 : m 4 = 0 <;> simp [hc, h4] at heq
      | getNodeList => exact absurd rfl hne

/-- A command depends on the bytes below `k` alone when it needs no more. -/
theorem acts_own_iff {k : ℕ} (hk : 3 ≤ k) :
    (∀ m', Mem.AgreeBelow k m m' → acts sys len m' = acts sys len m) ↔
      needs (Command.ofType (m 2)) ≤ k := by
  exact Mem.forall_agreeBelow_iff (fun _ => acts_congr) (fun hlt => exists_acts_ne (by omega))

end

end M2MManager

namespace SetupManager

open M2MManager (QueryTime exists_ne_byte)

/-- An effect without the bytes of the message it queues. -/
def Effect.forget : Effect → Effect
  | .msgsnd queue _ => .msgsnd queue (TData.ofBuffer 1 (fun _ => 0) 0)
  | e => e

/-- What `Pack_Manager` does with a frame, the bytes of its messages apart. -/
def acts (sys : System) (len : ℕ) (buffer : Mem) : List Effect :=
  (packManager sys buffer len).map Effect.forget

/-- Address behind the last byte that a command reads. -/
def needs : Option Command → ℕ
  | some .timeSync => 11
  | some .deleteNode => 5
  | some .changeNodeInfo => 7
  | some .rebootNode => 5
  | some .setLanInfo => 4 + DevInfo.size
  | some .getNodeList | some .getLanInfo | none => 3

section
variable {sys : System} {len : ℕ} {m m' : Mem}

theorem three_le_needs (c : Option Command) : 3 ≤ needs c := by
  cases c with
  | none => exact le_rfl
  | some c => cases c <;> decide

theorem DevInfo.at_congr {i : ℕ} (h : ∀ k < DevInfo.size, m (i + k) = m' (i + k)) :
    DevInfo.at m i = DevInfo.at m' i := by
  have hslice : ∀ a n, a + n ≤ 174 → m.slice (i + a) n = m'.slice (i + a) n := fun a n hle =>
    Mem.slice_congr (fun k hk => by
      rw [Nat.add_assoc]
      exact h (a + k) (show a + k < 174 by omega))
  unfold DevInfo.at
  rw [h 172 (by decide), h 173 (by decide), hslice 16 16 (by decide), hslice 32 140 (by decide),
    show m.slice i 16 = m'.slice i 16 from hslice 0 16 (by decide)]

theorem acts_congr (h : Mem.AgreeBelow (needs (Command.ofType (m 2))) m m') :
    acts sys len m' = acts sys len m := by
  have htype : Command.ofType (m' 2) = Command.ofType (m 2) := by
    rw [h 2 (three_le_needs _)]
  generalize hc : Command.ofType (m 2) = c at h htype
  simp only [acts, packManager, hc, htype]
  cases c with
  | none => rfl
  | some c =>
      cases c with
      | timeSync =>
          have hat := QueryTime.at_congr (i := 5) (fun k hk => h (5 + k) (show 5 + k < 11 by omega))
          simp only [hat]
      | deleteNode =>
          simp only [h 4 (show 4 < 5 by decide)]
          rfl
      | changeNodeInfo =>
          simp only [h 4 (show 4 < 7 by decide), h 5 (show 5 < 7 by decide),
            h 6 (show 6 < 7 by decide)]
          rfl
      | rebootNode =>
          simp only [h 4 (show 4 < 5 by decide)]
          split_ifs <;> rfl
      | setLanInfo =>
          have hat := DevInfo.at_congr (i := 4) (fun k hk => h (4 + k) (Nat.add_lt_add_left hk 4))
          simp only [hat]
      | getNodeList | getLanInfo => rfl

theorem exists_acts_ne (hne : needs (Command.ofType (m 2)) ≠ 3) : ∃ b,
    acts sys len (Function.update m (needs (Command.ofType (m 2)) - 1) b) ≠ acts sys len m := by
  generalize hc : Command.ofType (m 2) = c at hne
  cases c with
  | none => exact absurd rfl hne
  | some c =>
      cases c with
      | timeSync =>
          obtain ⟨b, hb⟩ := exists_ne_byte (m 10)
          refine ⟨b, fun heq => hb ?_⟩
          simp [acts, packManager, hc, needs, Effect.forget, QueryTime.at, QueryTime.bytes] at heq
          exact heq.1
      | deleteNode =>
          obtain ⟨b, hb⟩ := exists_ne_byte (m 4)
          refine ⟨b, fun heq => hb ?_⟩
          simp [acts, packManager, hc, needs, Effect.forget] at heq
          exact heq.2
      | changeNodeInfo =>
          obtain ⟨b, hb⟩ := exists_ne_byte (m 6)
          refine ⟨b, fun heq => hb ?_⟩
          simp [acts, packManager, hc, needs, Effect.forget] at heq
          exact heq.2.2
      | rebootNode =>
          -- node 0 is also told the other queue
          refine ⟨if m 4 = 0 then 1 else 0, fun heq => ?_⟩
          simp only [acts, packManager, hc, needs] at heq
          by_cases h4 : m 4 = 0 <;> simp [hc, h4] at heq
      | setLanInfo =>
          obtain ⟨b, hb⟩ := exists_ne_byte (m 177)
          refine ⟨b, fun heq => hb ?_⟩
          simp [acts, packManager, hc, needs, setLanInfo, Effect.forget, DevInfo.at, DevInfo.size] at heq
          exact heq.1
      | getNodeList | getLanInfo => exact absurd rfl hne

/-- A command depends on the bytes below `k` alone when it needs no more. -/
theorem acts_own_iff {k : ℕ} (hk : 3 ≤ k) :
    (∀ m', Mem.AgreeBelow k m m' → acts sys len m' = acts sys len m) ↔
      needs (Command.ofType (m 2)) ≤ k := by
  exact Mem.forall_agreeBelow_iff (fun _ => acts_congr) (fun hlt => exists_acts_ne (by omega))

end

end SetupManager

open M2MManager (PackCall)

theorem size_of_mem_calls {setBuffer cvalue : Mem} {len : ℕ} {remainSize : ℤ} {c : PackCall}
    (hc : c ∈ (M2MManager.parsingReceiveValue setBuffer cvalue len remainSize).calls) :
    c.size = (c.setBuffer 1).toNat + 3 := by
  obtain ⟨cut, step, before, -, hp, rfl⟩ :=
    M2MManager.parser.exists_of_mem_calls (M2MManager.parser_advances cvalue len) hc
  obtain ⟨-, -, -, hsize, -⟩ := frameProbe_eq_hit.mp hp
  have hone : (M2MManager.parser.copy cvalue cut before) 1 = cvalue (cut.start + 1) := by
    simp only [M2MManager.parser, Parser.copy, Nat.add_zero, Nat.sub_zero, Mem.memcpy]
    rw [Mem.store_zero _ (by rw [Mem.length_slice]; omega), Mem.getElem_slice]
  change cut.size = ((M2MManager.parser.copy cvalue cut before) 1).toNat + 3
  rw [hone]
  exact hsize

/-- **When a command acts on its frame**: for every frame that M2MManager or SetupManager cuts, of
any type and length byte, `Pack_Manager` acts on the bytes of the frame alone exactly when the
frame has the bytes that its type needs. -/
theorem actsOnFrame_iff_needs (setBuffer cvalue : Mem) (len : ℕ) (remainSize : ℤ) :
    (∀ (sys : M2MManager.System),
      ∀ c ∈ (M2MManager.parsingReceiveValue setBuffer cvalue len remainSize).calls,
        c.size = (c.setBuffer 1).toNat + 3 ∧
        (ActsOnFrame (M2MManager.acts sys c.len)
            (M2MManager.needs (M2MManager.Command.ofType (c.setBuffer 2))) c.size c.setBuffer ↔
          M2MManager.needs (M2MManager.Command.ofType (c.setBuffer 2)) ≤
            (c.setBuffer 1).toNat + 3)) ∧
    ∀ (sys : SetupManager.System),
      ∀ c ∈ (SetupManager.parsingReceiveValue setBuffer cvalue len remainSize).calls,
        c.size = (c.setBuffer 1).toNat + 3 ∧
        (ActsOnFrame (SetupManager.acts sys c.len)
            (SetupManager.needs (SetupManager.Command.ofType (c.setBuffer 2))) c.size c.setBuffer ↔
          SetupManager.needs (SetupManager.Command.ofType (c.setBuffer 2)) ≤
            (c.setBuffer 1).toNat + 3) := by
  refine ⟨fun sys c hc => ?_, fun sys c hc => ?_⟩
  · have hsize := size_of_mem_calls hc
    rw [← hsize]
    exact ⟨rfl, actsOnFrame_iff (M2MManager.acts_own_iff (by omega))⟩
  · have hsize := size_of_mem_calls hc
    rw [← hsize]
    exact ⟨rfl, actsOnFrame_iff (SetupManager.acts_own_iff (by omega))⟩

/-- A command `DELETENODE` of one byte. -/
def deleteNothing : Mem := Mem.store (fun _ => 0) 0 [0xFE, 0x01, 0x04, 0xFF]

theorem mem_calls_deleteNothing :
    ∃ c ∈ (M2MManager.parsingReceiveValue (fun _ => 0) deleteNothing 4 0).calls,
      c.setBuffer 1 = 1 ∧ c.setBuffer 2 = 0x04 :=
  ⟨_, List.getElem_mem (show 0 < _ by decide), by decide, by decide⟩

theorem actsOnFrame_deleteNothing :
    ∃ c ∈ (M2MManager.parsingReceiveValue (fun _ => 0) deleteNothing 4 0).calls,
      c.size = (c.setBuffer 1).toNat + 3 ∧
        (ActsOnFrame (M2MManager.acts ⟨fun _ => 0, fun _ => 0⟩ c.len)
            (M2MManager.needs (M2MManager.Command.ofType (c.setBuffer 2))) c.size c.setBuffer ↔
          M2MManager.needs (M2MManager.Command.ofType (c.setBuffer 2)) ≤
            (c.setBuffer 1).toNat + 3) := by
  obtain ⟨c, hc, -⟩ := mem_calls_deleteNothing
  exact ⟨c, hc, (actsOnFrame_iff_needs _ _ _ _).1 ⟨fun _ => 0, fun _ => 0⟩ c hc⟩

/-- The node that is deleted is not in the frame. -/
theorem actsOnFrame_wrong : ¬ ∀ (sys : M2MManager.System) (setBuffer cvalue : Mem) (len : ℕ)
    (remainSize : ℤ), ∀ c ∈ (M2MManager.parsingReceiveValue setBuffer cvalue len remainSize).calls,
      ActsOnFrame (M2MManager.acts sys c.len)
        (M2MManager.needs (M2MManager.Command.ofType (c.setBuffer 2))) c.size c.setBuffer := by
  intro h
  obtain ⟨c, hc, hlength, htype⟩ := mem_calls_deleteNothing
  have hsize := size_of_mem_calls hc
  have hacts := h ⟨fun _ => 0, fun _ => 0⟩ _ _ _ _ c hc
  rw [actsOnFrame_iff (M2MManager.acts_own_iff (by omega)), hsize, hlength, htype] at hacts
  exact absurd hacts (by decide)

end IdcuIot
