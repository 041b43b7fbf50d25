import IdcuIot.CommManager.Commands
import IdcuIot.Lib.Footprint

/-! # CommManager: the copy of a command

The command branch of `main` copies `cmdTlv.length` bytes to `cmdTlv.value`, which has 16.  The
length is byte 3 of the frame that the client sent to M2MManager: nothing on the way looks at it.
`commandTlv_safe_iff` says for which frames the copy stays in the array and in the message, and that
the index of the end byte always lies in the message of a run. -/

namespace IdcuIot.CommManager

open Memory Scan Reassembly
open M2MManager (PackCall Queue System messages packManager socketManager)

/-- `sizeof( cmdTlv.value )`. -/
def valueSize : ℕ := 16

/-- `sizeof( data.data_buff )`. -/
def dataSize : ℕ := 1024

/-- The command branch stays in its arrays: the end byte lies in `data_buff`, and the copy in
`value` and in the `data_num` bytes of the message. -/
structure CommandSafe (d : TData) : Prop where
  endByte : 0 < d.dataNum ∧ d.dataNum ≤ dataSize
  copy : ∀ run ∈ receiveCommand d,
    Mem.KeepsFrom valueSize (fun value => value.store 0 run.cmdTlv.value) ∧
      4 + run.cmdTlv.length.toNat ≤ d.dataNum

/-- The message has the end byte, and its byte 3 does not count more bytes than `value` has or than
follow it up to the end of the message; or it is not taken. -/
def LengthFits (c : PackCall) : Prop :=
  c.setBuffer (c.len - 1) = 0xFF → (c.setBuffer 3).toNat ≤ valueSize ∧
    (c.setBuffer 3).toNat < c.start + (c.setBuffer 1).toNat

/-- The parser of M2MManager has made the call. -/
def IsCall (c : PackCall) : Prop :=
  ∃ setBuffer cvalue len remainSize,
    c ∈ (M2MManager.parsingReceiveValue setBuffer cvalue len remainSize).calls

section
variable {c : PackCall} {d : TData} {sys : System}

theorem commandSafe_ofBuffer_iff {buffer : Mem} {len : ℕ} (h3 : 3 < len) (h0 : buffer 0 = 0xFE) :
    CommandSafe (TData.ofBuffer 1 buffer len) ↔ len ≤ dataSize ∧
      (buffer (len - 1) = 0xFF → (buffer 3).toNat ≤ valueSize ∧ 4 + (buffer 3).toNat ≤ len) := by
  have hread : ∀ k < len, (TData.ofBuffer 1 buffer len).dataBuff k = buffer k :=
    fun k hk => TData.dataBuff_ofBuffer 1 buffer hk
  have htaken : ∀ run, run ∈ receiveCommand (TData.ofBuffer 1 buffer len) →
      buffer (len - 1) = 0xFF ∧ run.cmdTlv.length = buffer 3 ∧
        run.cmdTlv.value.length = (buffer 3).toNat := by
    intro run hrun
    unfold receiveCommand at hrun
    split_ifs at hrun with hends
    · cases hrun
      simp only [TData.dataNum_ofBuffer, hread (len - 1) (by omega)] at hends
      exact ⟨hends.2, hread 3 h3, by rw [Mem.length_slice, hread 3 h3]⟩
    · cases hrun
  have hkeeps : ∀ l : List UInt8,
      Mem.KeepsFrom valueSize (fun value => value.store 0 l) ↔ l.length ≤ valueSize := fun l =>
    Mem.keepsFrom_store_zero_iff (f := id) (fun _ _ _ => rfl)
  constructor
  · rintro ⟨⟨-, hnum⟩, hcopy⟩
    refine ⟨hnum, fun hlast => ?_⟩
    have hends : (TData.ofBuffer 1 buffer len).dataBuff 0 = 0xFE ∧
        (TData.ofBuffer 1 buffer len).dataBuff (len - 1) = 0xFF :=
      ⟨(hread 0 (by omega)).trans h0, (hread (len - 1) (by omega)).trans hlast⟩
    have hrun := hcopy _ (if_pos hends)
    rw [hkeeps, (htaken _ (if_pos hends)).2.1, (htaken _ (if_pos hends)).2.2] at hrun
    exact hrun
  · rintro ⟨hnum, hfits⟩
    refine ⟨⟨by rw [TData.dataNum_ofBuffer]; omega, hnum⟩, fun run hrun => ?_⟩
    obtain ⟨hlast, hlength, hvalue⟩ := htaken run hrun
    rw [hkeeps, hvalue, hlength]
    exact hfits hlast

theorem one_le_of_forwarded (hlast : c.setBuffer (c.size - 1) = 0xFF)
    (hsize : c.size = (c.setBuffer 1).toNat + 3)
    (hd : (Queue.m2mid, d) ∈ messages (packManager sys c.setBuffer c.len)) :
    1 ≤ (c.setBuffer 1).toNat := by
  by_contra hshort
  have htwo : c.setBuffer 2 = 0xFF := by rwa [show c.size - 1 = 2 by omega] at hlast
  have hnone : M2MManager.Command.ofType 0xFF = none := by decide
  rw [M2MManager.messages_packManager, htwo, hnone] at hd
  cases hd

/-- One message: what the copy needs, in terms of the frame. -/
theorem commandSafe_iff (hc : IsCall c)
    (hd : (Queue.m2mid, d) ∈ messages (packManager sys c.setBuffer c.len)) :
    CommandSafe d ↔ c.len ≤ dataSize ∧ LengthFits c := by
  obtain ⟨_, _, _, _, hc⟩ := hc
  obtain ⟨hlen, h0, hsize, hlast⟩ := packCall_spec hc
  have hone := one_le_of_forwarded hlast hsize hd
  rw [M2MManager.messages_packManager, List.mem_map] at hd
  obtain ⟨q, -, hpair⟩ := hd
  obtain ⟨rfl, rfl⟩ := Prod.mk.inj hpair
  rw [commandSafe_ofBuffer_iff (by omega) h0]
  refine and_congr_right (fun _ => imp_congr_right (fun _ => and_congr_right (fun _ => ?_)))
  omega

end

/-! ### Runs -/

section
variable {s s' : RecvState PackCall} {r : Read} {m : Mem} {reads : List Read}

/-- The frames that a parser has cut end in what it has been given, if it leaves something or
nothing over. -/
theorem len_le_of_remainSize {setBuffer cvalue : Mem} {len : ℕ} {remainSize : ℤ} {c : PackCall}
    (h : 0 ≤ (M2MManager.parsingReceiveValue setBuffer cvalue len remainSize).remainSize)
    (hc : c ∈ (M2MManager.parsingReceiveValue setBuffer cvalue len remainSize).calls) :
    c.len ≤ len := by
  have hadv := M2MManager.parser_advances cvalue len
  obtain ⟨cs, hs⟩ := exists_scan_of_ne_halt hadv (fun _ => frameProbe_ne_halt) len 0
  have hparsed := M2MManager.parser.parsingReceiveValue_eq hadv hs setBuffer remainSize
  rw [if_neg Bool.false_ne_true] at hparsed
  unfold M2MManager.parsingReceiveValue at h hc
  rw [hparsed] at h hc
  obtain ⟨cut, hcut, before, rfl⟩ := M2MManager.parser.exists_of_mem_callsOf hc
  have hstop := hs.stop_le_lastStop hadv cut hcut
  rw [Parser.endOf_of_ne_nil remainSize 0 (List.ne_nil_of_mem hcut)] at h
  dsimp only at h
  change cut.stop ≤ len
  omega

/-- What the receive loop preserves: its calls were made for frames in the receive buffer. -/
theorem calls_of_receive (h : socketManager.receive s r = some s')
    (hs : ∀ c ∈ s.calls, IsCall c ∧ c.len ≤ dataSize) :
    ∀ c ∈ s'.calls, IsCall c ∧ c.len ≤ dataSize := by
  intro c hc
  have hresets : socketManager.resets = false := rfl
  simp only [RecvLoop.receive, hresets, Bool.false_eq_true, if_false] at h
  split_ifs at h with hskips hfull hok
  · cases h
    exact hs c hc
  · cases h
    rcases List.mem_append.mp hc with hc | hc
    · exact hs c hc
    · have hlen := len_le_of_remainSize hok.2.1 hc
      have hroom : s.receiveSize + r.data.length ≤ dataSize := Nat.not_lt.mp hfull
      exact ⟨⟨_, _, _, _, hc⟩, by omega⟩

theorem calls_of_run (h : (socketManager.receiver id).run s reads = some s')
    (hs : ∀ c ∈ s.calls, IsCall c ∧ c.len ≤ dataSize) :
    ∀ c ∈ s'.calls, IsCall c ∧ c.len ≤ dataSize := by
  induction reads generalizing s with
  | nil =>
      cases Option.some.inj h
      exact hs
  | cons r reads ih =>
      rw [Receiver.run_cons] at h
      obtain ⟨s₁, h₁, h⟩ := Option.bind_eq_some_iff.mp h
      exact ih h (calls_of_receive h₁ hs)

/-- **When a remote command is copied safely**: in every run of M2MManager, a message for the nodes
is safe exactly when its length byte fits; of the messages that a further read gives, those that end
in the receive buffer. -/
theorem commandTlv_safe_iff (h : (socketManager.receiver id).run (.start m) reads = some s) :
    (∀ c ∈ s.calls, ∀ sys d, (Queue.m2mid, d) ∈ messages (packManager sys c.setBuffer c.len) →
      (CommandSafe d ↔ LengthFits c)) ∧
    ∀ r : Read, ∀ c ∈ (M2MManager.parsingReceiveValue r.setBuffer (RecvLoop.buffered s r)
        (s.receiveSize + r.data.length) s.parsingSize).calls,
      ∀ sys d, (Queue.m2mid, d) ∈ messages (packManager sys c.setBuffer c.len) →
        (CommandSafe d ↔ c.len ≤ dataSize ∧ LengthFits c) := by
  refine ⟨fun c hc sys d hd => ?_, fun r c hc sys d hd => ?_⟩
  · obtain ⟨hcall, hlen⟩ := calls_of_run h (fun _ hnil => by cases hnil) c hc
    rw [commandSafe_iff hcall hd]
    exact and_iff_right hlen
  · exact commandSafe_iff ⟨_, _, _, _, hc⟩ hd

end

/-- A command `FE 04 01 01 05 00 FF` that restarts node 5. -/
def rebootFive : Read := ⟨[0xFE, 4, 1, 1, 5, 0, 0xFF], fun _ => 0⟩

/-- The same command with `0x11` for byte 3. -/
def rebootLong : Read := ⟨[0xFE, 4, 1, 0x11, 5, 0, 0xFF], fun _ => 0⟩

/-- M2MManager when a client has connected. -/
def connected : RecvState PackCall := .start (fun _ => 0)

theorem commandTlv_safe_reboot :
    ∃ c ∈ (M2MManager.parsingReceiveValue rebootFive.setBuffer
        (RecvLoop.buffered connected rebootFive)
        (connected.receiveSize + rebootFive.data.length) connected.parsingSize).calls,
      CommandSafe (TData.ofBuffer 1 c.setBuffer c.len) ↔ c.len ≤ dataSize ∧ LengthFits c :=
  have hrun : (socketManager.receiver id).run (.start (fun _ => 0)) [] = some connected := rfl
  ⟨_, List.getElem_mem (show 0 < _ by decide), (commandTlv_safe_iff hrun).2 rebootFive _
      (List.getElem_mem (show 0 < _ by decide)) noSystem _
      (by rw [M2MManager.messages_packManager]; exact List.mem_cons_self)⟩

/-- Seventeen bytes are copied from a message of seven. -/
theorem commandTlv_overrun :
    ∃ c ∈ (M2MManager.parsingReceiveValue rebootLong.setBuffer
        (RecvLoop.buffered connected rebootLong)
        (connected.receiveSize + rebootLong.data.length) connected.parsingSize).calls,
      ∃ d, (Queue.m2mid, d) ∈ messages (packManager noSystem c.setBuffer c.len) ∧
        ¬ CommandSafe d := by
  have hcall := List.getElem_mem (l := (M2MManager.parsingReceiveValue rebootLong.setBuffer
    (RecvLoop.buffered connected rebootLong)
    (connected.receiveSize + rebootLong.data.length) connected.parsingSize).calls)
    (show 0 < _ by decide)
  refine ⟨_, hcall, _, by rw [M2MManager.messages_packManager]; exact List.mem_cons_self, ?_⟩
  rw [@commandSafe_iff _ _ noSystem ⟨_, _, _, _, hcall⟩
    (by rw [M2MManager.messages_packManager]; exact List.mem_cons_self)]
  rintro ⟨-, hfits⟩
  have hlong := (hfits (by decide)).1
  revert hlong
  decide

end IdcuIot.CommManager
