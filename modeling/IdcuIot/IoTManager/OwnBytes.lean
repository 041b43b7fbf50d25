import IdcuIot.IoTManager.Serial
import IdcuIot.IoTManager.Counters

/-! # IoTManager: where the counts of a report come from

`receiveEvent` reads sixteen TLVs behind the header of a report and never looks at its parameter
`len`.  A shorter frame passes the checksum as well, and then the counts, which are saved in
`tb_comm_status`, are taken from what older frames left in `setBuffer`.  `ownBytes_iff_long` says
which frames set the counts from their own bytes. -/

namespace IdcuIot.IoTManager

open Memory Transaction SqliteManager

/-- A frame that `uartParsingReceiveValue` hands to `receiveEvent`, in whatever state it finds its
buffers. -/
def Accepted (c : UartCall) : Prop :=
  c.received = true ∧ ∃ (setBuffer cvalue : Mem) (len : ℕ) (remainSize : ℤ),
    c ∈ (uartParsingReceiveValue setBuffer cvalue len remainSize).calls

/-- What a report may change: `node`, `pastData`, `io` and the database. -/
structure Counters where
  node : MGData
  pastData : MGData
  io : Fin 8 → UInt8
  db : Db

def State.counters (s : State) : Counters := ⟨s.node, s.pastData, s.io, s.db⟩

/-- The counters after `receiveEvent`; `none` when it does not return. -/
def countersAfter (s : State) (setBuffer : Mem) (o : Outcomes) : Option Counters :=
  (receiveEvent s ⟨setBuffer, o⟩).map State.counters

/-- Bytes of a report with eight TLVs for the counts and eight for the ports: `FE`, the length
byte, the TLVs, the checksum and `FF`. -/
def reportSize : ℕ := 2 + 8 * 6 + 8 * 3 + 2

/-- A frame sets the counters from its own bytes: two runs that receive it, with different bytes
behind it, end with the same counters, and they keep their counters when the frame is too short
for the TLVs. -/
structure OwnBytes (f : List UInt8) : Prop where
  own : ∀ c c', Accepted c → Accepted c' → c.frame = f → c'.frame = f → ∀ s o,
    countersAfter s c.setBuffer o = countersAfter s c'.setBuffer o
  short : f.length < reportSize → ∀ c, Accepted c → c.frame = f → ∀ s o,
    countersAfter s c.setBuffer o = some s.counters

/-! ### What `receiveEvent` reads -/

section
variable {m m' : Mem}

/-- The TLVs end at offset 73; their bytes make up the counts and the ports. -/
theorem nodeOf_congr (h : Mem.AgreeBelow 74 m m') : nodeOf m = nodeOf m' := by
  refine congrArg MGData.mk (funext fun i => ?_)
  rw [cntAt_eq, cntAt_eq, h _ (by omega), h _ (by omega), h _ (by omega), h _ (by omega)]

theorem ioOf_congr (h : Mem.AgreeBelow 74 m m') : ioOf m = ioOf m' :=
  funext fun i => h _ (by omega)

theorem receiveEvent_congr (h : Mem.AgreeBelow 74 m m') (s : State) (o : Outcomes) :
    receiveEvent s ⟨m, o⟩ = receiveEvent s ⟨m', o⟩ := by
  unfold receiveEvent
  simp only [nodeOf_congr h, ioOf_congr h, h 2 (by decide), h 4 (by decide)]

theorem countersAfter_sync (h : m 2 = 1) (s : State) (o : Outcomes) :
    countersAfter s m o = some s.counters := by
  unfold countersAfter receiveEvent
  rw [if_pos h, Option.map_some]
  unfold createSync
  split_ifs <;> rfl

/-- Any other report takes the counts from the buffer, also when nothing is to be saved. -/
theorem countersAfter_of_same {s : State} (h : m 2 ≠ 1) (hpast : s.pastData = nodeOf m)
    (o : Outcomes) : countersAfter s m o = some ⟨nodeOf m, nodeOf m, ioOf m, s.db⟩ := by
  unfold countersAfter
  rw [receiveEvent_same (r := ⟨m, o⟩) h (not_changes_iff.mpr hpast)]
  rfl

/-- A report that is no count sync changes the counters of some state. -/
theorem exists_countersAfter_ne (h : m 2 ≠ 1) (o : Outcomes) :
    ∃ s : State, countersAfter s m o ≠ some s.counters := by
  refine ⟨⟨⟨fun i => (nodeOf m).cnt i + 1⟩, nodeOf m, fun _ => 0, 0, ⟨⟨[], none⟩, []⟩⟩,
    fun heq => ?_⟩
  rw [countersAfter_of_same h rfl, Option.some.injEq] at heq
  have hcnt := congrArg (fun k : Counters => k.node.cnt 0) heq
  exact absurd hcnt (by simp [State.counters])

end

/-! ### The frame of an accepted report -/

section
variable {c c' : UartCall}

theorem Accepted.three_le (h : Accepted c) : 3 ≤ c.frame.length := by
  obtain ⟨-, setBuffer, cvalue, len, remainSize, hc⟩ := h
  obtain ⟨L, hsize, -⟩ := uartCall_spec hc
  rw [UartCall.frame, Mem.length_slice, hsize]
  omega

theorem UartCall.setBuffer_eq (c : UartCall) {i : ℕ} (hi : i < c.frame.length) :
    c.setBuffer i = c.frame.getD i 0 := by
  rw [List.getD_eq_getElem _ _ hi]
  simp [UartCall.frame]

theorem agreeBelow_of_frame (h : c'.frame = c.frame) :
    Mem.AgreeBelow c.frame.length c.setBuffer c'.setBuffer := fun i hi => by
  rw [c.setBuffer_eq hi, c'.setBuffer_eq (h ▸ hi), h]

/-- **When a report sets the counters from its own bytes**: whatever frame is accepted, of any
length and content, the counters it leaves are those of its own bytes exactly when it asks for a
count sync or has the bytes of the sixteen TLVs. -/
theorem ownBytes_iff_long (c : UartCall) (h : Accepted c) :
    OwnBytes c.frame ↔ c.frame.getD 2 0 = 1 ∨ reportSize ≤ c.frame.length := by
  have htype : ∀ c' : UartCall, c'.frame = c.frame → c'.setBuffer 2 = c.frame.getD 2 0 := fun c' hc' => by
    rw [c'.setBuffer_eq (hc' ▸ h.three_le), hc']
  constructor
  · intro hown
    by_contra hnot
    obtain ⟨hsync, hshort⟩ := not_or.mp hnot
    rw [← htype c rfl] at hsync
    obtain ⟨s, hs⟩ := exists_countersAfter_ne hsync ⟨⟨.ok, false⟩, ⟨.ok, false⟩, []⟩
    exact hs (hown.short (Nat.not_le.mp hshort) c h rfl s _)
  · rintro (hsync | hlong)
    · have hkept : ∀ c' : UartCall, c'.frame = c.frame → ∀ s o,
          countersAfter s c'.setBuffer o = some s.counters := fun c' hc' s o =>
        countersAfter_sync ((htype c' hc').trans hsync) s o
      refine ⟨fun c₁ c₂ _ _ h₁ h₂ s o => ?_, fun _ c' _ hc' => hkept c' hc'⟩
      rw [hkept c₁ h₁, hkept c₂ h₂]
    · have hread : 74 ≤ c.frame.length := le_trans (by decide) hlong
      refine ⟨fun c₁ c₂ _ _ h₁ h₂ s o => ?_, fun hlt => absurd hlong (Nat.not_le.mpr hlt)⟩
      have hagree := (agreeBelow_of_frame (h₂.trans h₁.symm)).mono (h₁ ▸ hread)
      unfold countersAfter
      rw [receiveEvent_congr hagree]

end

/-- The shortest frame, `FE 00 FF`: its checksum test compares the length byte with an empty
sum. -/
def shortest : Mem := Mem.store (fun _ => 0) 0 [0xFE, 0, 0xFF]

/-- It is accepted, whatever `setBuffer` holds. -/
def shortestCall (setBuffer : Mem) : UartCall :=
  ⟨0, 3, setBuffer, setBuffer.store 0 [0xFE, 0, 0xFF], true⟩

theorem accepted_shortestCall (setBuffer : Mem) : Accepted (shortestCall setBuffer) := by
  have hcalls : (uartParsingReceiveValue setBuffer shortest 3 0).calls = [shortestCall setBuffer] :=
    rfl
  exact ⟨rfl, setBuffer, shortest, 3, 0, hcalls ▸ List.mem_singleton.mpr rfl⟩

theorem ownBytes_iff_shortest : OwnBytes (shortestCall fun _ => 0).frame ↔
    (shortestCall fun _ => 0).frame.getD 2 0 = 1 ∨
      reportSize ≤ (shortestCall fun _ => 0).frame.length :=
  ownBytes_iff_long _ (accepted_shortestCall _)

/-- Eight counts of `01010101` come out of what an older frame left behind it. -/
theorem ownBytes_wrong : ¬ ∀ c, Accepted c → OwnBytes c.frame := by
  intro h
  have hown := (h _ (accepted_shortestCall fun _ => 0)).own _ _ (accepted_shortestCall fun _ => 0)
    (accepted_shortestCall fun _ => 1) rfl (by decide) (boot zeros) ⟨⟨.other, false⟩, ⟨.ok, false⟩, []⟩
  have hcnt := congrArg (Option.map fun k : Counters => k.node.cnt 0) hown
  revert hcnt
  decide

end IdcuIot.IoTManager
