import IdcuIot.CommManager.Receive
import IdcuIot.Driver.Plcs.Receive
import IdcuIot.IoTManager.Tcp
import IdcuIot.Lib.Capacity
import IdcuIot.M2MManager.Commands

/-! # Overrun receive buffers

The receive loops copy what they read behind the bytes that are left over, and test the size of
the buffer too early or too late: before the copy they look at what is left over alone, or at the
read alone.  What is left over lies behind the last frame that was cut, so that a line that goes
on without a frame fills the buffer.  `fits_iff_leavesRoom` says for each loop in which runs every
copy stays inside the buffer. -/

namespace IdcuIot

open Memory Scan Reassembly History

namespace RecvLoop

variable {κ : Type} (L : RecvLoop κ)

/-- Bytes that the loop keeps of what is in the buffer with a read: what lies behind the last
frame that is found there, and if there is none all but `parsingSize` bytes. -/
def Leaves (s : RecvState κ) (r : Read) (n : ℕ) : Prop :=
  ∃ cs, Scans (L.probe (buffered s r) (s.receiveSize + r.data.length))
      (s.receiveSize + r.data.length) 0 cs false ∧
    (n : ℤ) = (s.receiveSize + r.data.length : ℕ) - Parser.endOf s.parsingSize cs

/-- The buffer of a loop whose parser never returns early. -/
def buffer (adv : ∀ m n, Advances (L.probe m n)) (hno : ∀ m n i, L.probe m n i ≠ .halt) :
    Buffered (L.receiver id) where
  size := RecvState.receiveSize
  skips := L.skips
  Leaves := L.Leaves
  read_of_skips h := if_pos h
  leaves_read {s r s'} _ hskips h := by
    obtain ⟨cs, hs⟩ := exists_scan_of_ne_halt
      (adv (buffered s r) (s.receiveSize + r.data.length)) (hno _ _)
      (s.receiveSize + r.data.length) 0
    rcases L.receive_cases h (adv _ _) hs with ⟨hskips', -⟩ | ⟨-, -, -, -, -, hrest⟩
    · cases hskips'.symm.trans hskips
    · rw [if_neg Bool.false_ne_true] at hrest
      exact ⟨cs, hs, hrest.1⟩
  leaves_unique := by
    rintro s r n n' ⟨cs, hs, hn⟩ ⟨cs', hs', hn'⟩
    obtain ⟨rfl, -⟩ := hs.unique hs'
    omega

end RecvLoop

namespace Driver.Plcs

variable (d : Plcs)

/-- Bytes that the loop keeps of what is in the buffer with a read: none when the buffer is full,
and else what lies behind the last frame, or from the beginning of one that is open. -/
def LeavesBehind (s : RecvState (List UInt8)) (r : List UInt8) (n : ℕ) : Prop :=
  if bufferSize ≤ s.receiveSize + r.length then n = 0
  else ∃ fs e, d.Parses (buffered s r) (s.receiveSize + r.length) 0 fs e ∧
    n = s.receiveSize + r.length - e

theorem Parses.unique {d : Plcs} {m : Mem} {len i e e' : ℕ} {fs fs' : List (List UInt8)}
    (h : d.Parses m len i fs e) (h' : d.Parses m len i fs' e') : fs = fs' ∧ e = e' := by
  induction h generalizing fs' with
  | done =>
      cases h' with
      | done => exact ⟨rfl, rfl⟩
      | frame hlt | opened hlt | pass hlt => omega
  | frame hlt hat hcr _ ih =>
      cases h' with
      | done => omega
      | frame _ _ hcr' h' =>
          rw [hcr] at hcr'
          cases hcr'
          obtain ⟨rfl, rfl⟩ := ih h'
          exact ⟨rfl, rfl⟩
      | opened _ _ hcr' => rw [hcr] at hcr'; cases hcr'
      | pass _ hat' => exact absurd hat hat'
  | opened hlt hat hcr =>
      cases h' with
      | done => omega
      | frame _ _ hcr' => rw [hcr] at hcr'; cases hcr'
      | opened => exact ⟨rfl, rfl⟩
      | pass _ hat' => exact absurd hat hat'
  | pass hlt hat _ ih =>
      cases h' with
      | done => omega
      | frame _ hat' | opened _ hat' => exact absurd hat' hat
      | pass _ _ h' => exact ih h'

/-- The buffer of a driver. -/
def buffer : Buffered d.receiver where
  size := RecvState.receiveSize
  skips _ n := decide (bufferSize ≤ n)
  Leaves := d.LeavesBehind
  read_of_skips h := if_pos (of_decide_eq_true h)
  leaves_read {s r s'} hr hskips h := by
    have hpos := List.length_pos_of_ne_nil hr
    change d.receive s r = some s' at h
    change 0 < r.length at hpos
    change decide (bufferSize ≤ r.length) = false at hskips
    unfold receive at h
    rw [if_neg (of_decide_eq_false hskips)] at h
    unfold LeavesBehind
    by_cases hover : bufferSize < s.receiveSize + r.length
    · rw [if_pos hover] at h
      cases h
    rw [if_neg hover] at h
    by_cases hfull : bufferSize ≤ s.receiveSize + r.length
    · rw [if_pos hfull] at h ⊢
      rw [← Option.some_inj.mp h]
    · obtain ⟨fs, e, hp, hparsed⟩ := d.exists_parsed (buffered s r)
        (show 0 < s.receiveSize + r.length by omega) s.parsingSize
      obtain ⟨-, hle⟩ := hp.bounds (Nat.zero_le _)
      rw [if_neg hfull] at h ⊢
      refine ⟨fs, e, hp, ?_⟩
      rw [show s.receiveBuffer.store s.receiveSize r = buffered s r from rfl, hparsed] at h
      dsimp only at h
      rw [if_pos (by omega)] at h
      rw [← Option.some_inj.mp h]
      dsimp only
      omega
  leaves_unique {s r n n'} h h' := by
    unfold LeavesBehind at h h'
    split_ifs at h h' with hfull
    · rw [h, h']
    · obtain ⟨fs, e, hp, rfl⟩ := h
      obtain ⟨fs', e', hp', rfl⟩ := h'
      rw [(hp.unique hp').2]

end Driver.Plcs

/-! ### The loops -/

/-- The serial line of IoTManager. -/
def serialBuffer : Buffered (IoTManager.uartLoop.receiver id) :=
  IoTManager.uartLoop.buffer IoTManager.uartParser_advances (fun _ _ _ => frameProbe_ne_halt)

/-- The request connection of IoTManager. -/
def requestBuffer : Buffered (IoTManager.socketPorcess.receiver id) :=
  IoTManager.socketPorcess.buffer (fun m _ => IoTManager.requestProbe_advances m)
    (fun _ _ _ => IoTManager.requestProbe_ne_halt)

/-- The command connection of M2MManager. -/
def commandBuffer : Buffered (M2MManager.socketManager.receiver id) :=
  M2MManager.socketManager.buffer M2MManager.parser_advances (fun _ _ _ => frameProbe_ne_halt)

/-- The serial line of CommManager. -/
def nodeBuffer : Buffered (CommManager.mainLoop.receiver id) :=
  CommManager.mainLoop.buffer CommManager.mainLoop_eager.advances
    (fun _ _ _ => CommManager.nodeProbe_ne_halt)

/-- What `read` and `recv` can deliver when they are asked for `n` bytes. -/
def Requested (n : ℕ) (data : List UInt8) : Prop := data ≠ [] ∧ data.length ≤ n

/-- **When no copy overruns the receive buffer**: in a run of any of the loops, every copy stays
inside the buffer exactly when each read that is taken leaves room behind the last frame for the
next one that is. -/
theorem fits_iff_leavesRoom (m : Mem) :
    (∀ reads : List Read, (∀ r ∈ reads, Requested IoTManager.bufferSize r.data) →
      (AtEvery (serialBuffer.Fits IoTManager.bufferSize (.start m)) reads ↔
        AtEvery (serialBuffer.LeavesRoom IoTManager.bufferSize (.start m)) reads)) ∧
    (∀ reads : List Read, (∀ r ∈ reads, Requested IoTManager.bufferSize r.data) →
      (AtEvery (requestBuffer.Fits IoTManager.bufferSize (.start m)) reads ↔
        AtEvery (requestBuffer.LeavesRoom IoTManager.bufferSize (.start m)) reads)) ∧
    (∀ reads : List Read, (∀ r ∈ reads, Requested M2MManager.bufferSize r.data) →
      (AtEvery (commandBuffer.Fits M2MManager.bufferSize (.start m)) reads ↔
        AtEvery (commandBuffer.LeavesRoom M2MManager.bufferSize (.start m)) reads)) ∧
    (∀ reads : List Read, (∀ r ∈ reads, Requested CommManager.bufferSize r.data) →
      (AtEvery (nodeBuffer.Fits CommManager.bufferSize (.start m)) reads ↔
        AtEvery (nodeBuffer.LeavesRoom CommManager.bufferSize (.start m)) reads)) ∧
    ∀ (d : Driver.Plcs) (reads : List (List UInt8)),
      (∀ r ∈ reads, Requested Driver.Plcs.bufferSize r) →
      (AtEvery (d.buffer.Fits Driver.Plcs.bufferSize (.start m)) reads ↔
        AtEvery (d.buffer.LeavesRoom Driver.Plcs.bufferSize (.start m)) reads) := by
  refine ⟨?_, ?_, ?_, ?_, ?_⟩
  · exact fun reads h => Buffered.atEvery_fits_iff rfl h
  · exact fun reads h => Buffered.atEvery_fits_iff rfl h
  · exact fun reads h => Buffered.atEvery_fits_iff rfl h
  · exact fun reads h => Buffered.atEvery_fits_iff rfl h
  · exact fun d reads h => Buffered.atEvery_fits_iff rfl h

/-! ### Noise -/

/-- A read of zeros. -/
def zeroRead (n : ℕ) : Read := ⟨List.replicate n 0, fun _ => 0⟩

theorem requested_zeros {n k : ℕ} (h0 : 0 < n) (h : n ≤ k) : Requested k (zeroRead n).data := by
  have hlen : (zeroRead n).data.length = n := List.length_replicate
  exact ⟨List.ne_nil_of_length_pos (by rwa [hlen]), by rwa [hlen]⟩

/-- The serial line of IoTManager when it starts. -/
def silent : RecvState IoTManager.UartCall := .start (fun _ => 0)

theorem buffered_zeros (n : ℕ) : RecvLoop.buffered silent (zeroRead n) = fun _ => 0 := by
  apply Mem.store_of_slice
  exact (Mem.slice_eq_replicate (fun _ _ _ => rfl)).trans (by simp [zeroRead])

theorem receive_zeros {n : ℕ} (hn : n ≤ IoTManager.bufferSize) : ∃ s',
    IoTManager.uartLoop.receive silent (zeroRead n) = some s' ∧ s'.receiveSize = n := by
  have hlen : (zeroRead n).data.length = n := List.length_replicate
  have hscan : Scans (IoTManager.uartLoop.probe (RecvLoop.buffered silent (zeroRead n))
      (0 + (zeroRead n).data.length)) (0 + (zeroRead n).data.length) 0 [] false := by
    rw [buffered_zeros]
    apply scans_of_pass _ 0 le_rfl
    intro j _ _
    change frameProbe 3 (fun _ => 0) (0 + (zeroRead n).data.length) j = .pass
    have hne : (0 : UInt8) ≠ 0xFE := by decide
    unfold frameProbe
    exact if_neg hne
  obtain ⟨s', hs', -, hleft⟩ := IoTManager.uartLoop.receive_scanned (k := 0) rfl
    (show 0 + (zeroRead n).data.length ≤ IoTManager.bufferSize by omega)
    (IoTManager.uartParser_advances _ _) hscan rfl rfl (Nat.zero_le _)
  refine ⟨s', hs', ?_⟩
  have := congrArg List.length hleft
  simpa [RecvLoop.leftover, hlen, silent, RecvState.start] using this

theorem not_fits_zeros {n k : ℕ} (hn : n < IoTManager.bufferSize)
    (hk : IoTManager.bufferSize < n + k) :
    ¬ serialBuffer.Fits IoTManager.bufferSize silent [zeroRead n] (zeroRead k) := by
  intro h
  obtain ⟨s, hs, hsize⟩ := receive_zeros hn.le
  have hrun : (IoTManager.uartLoop.receiver id).run silent [zeroRead n] = some s :=
    Receiver.run_cons_of_read _ hs []
  have hlen : ((IoTManager.uartLoop.receiver id).data (zeroRead k)).length = k :=
    List.length_replicate
  have hfits := h s hrun (decide_eq_false (by rw [show serialBuffer.size s = n from hsize]; omega))
  rw [hlen, show serialBuffer.size s = n from hsize] at hfits
  omega

theorem fits_iff_leavesRoom_zeros :
    AtEvery (serialBuffer.Fits IoTManager.bufferSize silent) [zeroRead 3, zeroRead 2] ↔
      AtEvery (serialBuffer.LeavesRoom IoTManager.bufferSize silent) [zeroRead 3, zeroRead 2] :=
  (fits_iff_leavesRoom (fun _ => 0)).1 [zeroRead 3, zeroRead 2]
    (List.forall_mem_cons.mpr ⟨requested_zeros (by decide) (by decide),
      List.forall_mem_singleton.mpr (requested_zeros (by decide) (by decide))⟩)

/-- Zeros for all but one byte of the buffer, and then two more. -/
theorem fits_wrong : ¬ ∀ (m : Mem) (reads : List Read),
    (∀ r ∈ reads, Requested IoTManager.bufferSize r.data) →
    AtEvery (serialBuffer.Fits IoTManager.bufferSize (.start m)) reads := by
  intro h
  have hreads : ∀ r ∈ [zeroRead 2047, zeroRead 2], Requested IoTManager.bufferSize r.data :=
    List.forall_mem_cons.mpr ⟨requested_zeros (by decide) (by decide),
      List.forall_mem_singleton.mpr (requested_zeros (by decide) (by decide))⟩
  exact not_fits_zeros (by decide) (by decide)
    (h (fun _ => 0) [zeroRead 2047, zeroRead 2] hreads [zeroRead 2047] (zeroRead 2) [] rfl)

end IdcuIot
