import IdcuIot.Overrun

/-! # Recovery from noise

After noise a serial loop keeps what lies behind the last frame it found, up to the size of its
buffer.  When whole frames follow, one to a read, two things may keep it from cutting one of them:
there is no room for the first, or what is kept always begins a frame that ends in the next read
and leaves as much behind.

`Sharp` collects what the argument needs of a loop: what its probe finds are whole valid frames.
The bytes kept then hold no whole frame (`Quiet`), so that a frame found among them runs on into
the read, and after the first read that fits there is always room (`run_fits`). -/

namespace IdcuIot

open Memory Scan Reassembly

namespace RecvLoop

variable {κ : Type} {L : RecvLoop κ} {event : κ → List UInt8} {start : κ → ℕ}
  {valid : List UInt8 → Prop}

/-- An eager serial loop that finds nothing but whole frames; two of them fit in its buffer. -/
structure Sharp (L : RecvLoop κ) (event : κ → List UInt8) (start : κ → ℕ)
    (valid : List UInt8 → Prop) : Prop extends L.Eager event valid where
  found : ∀ m n i size step, L.probe m n i = .hit size step → valid (m.slice i size) ∧ i + size ≤ n
  placed : ∀ m b b' c, start (L.call m b b' c) = c.start
  skips_eq : ∀ a b, L.skips a b = decide (L.bufferSize ≤ a)
  resets : L.resets = true
  two_fit : ∀ f f', valid f → valid f' → f.length + f'.length ≤ L.bufferSize

/-- From `s`, one of the reads of the line is cut out as it lies in the buffer. -/
def Recovers (L : RecvLoop κ) (event : κ → List UInt8) (start : κ → ℕ) (s : RecvState κ)
    (line : ℕ → Read) : Prop :=
  ∃ n s₁ s₂ new, (L.receiver event).run s ((List.range n).map line) = some s₁ ∧
    L.receive s₁ (line n) = some s₂ ∧ s₂.calls = s₁.calls ++ new ∧
    ∃ c ∈ new, start c = s₁.receiveSize ∧ event c = (line n).data

/-- Some read of the line meets bytes in which no frame begins. -/
def MeetsNoFrame (L : RecvLoop κ) (event : κ → List UInt8) (s : RecvState κ)
    (line : ℕ → Read) : Prop :=
  ∃ n s₁, (L.receiver event).run s ((List.range n).map line) = some s₁ ∧
    ∀ i < s₁.receiveSize,
      L.probe (buffered s₁ (line n)) (s₁.receiveSize + (line n).data.length) i = .pass

/-- No whole frame lies in what is left over. -/
def Quiet (L : RecvLoop κ) (s : RecvState κ) : Prop :=
  ∀ m n i size step, m.slice 0 s.receiveSize = leftover s → L.probe m n i = .hit size step →
    s.receiveSize < i + size

namespace Sharp

variable (S : L.Sharp event start valid) {s s' : RecvState κ} {r : Read}
include S

theorem inv_iff : L.Inv s ↔ s.parsingSize = 0 := by
  unfold Inv
  rw [if_pos S.resets]

theorem exists_scans (s : RecvState κ) (r : Read) : ∃ cs,
    Scans (L.probe (buffered s r) (s.receiveSize + r.data.length))
      (s.receiveSize + r.data.length) 0 cs false :=
  exists_scan_of_ne_halt (S.advances _ _) (S.no_halt _ _) _ 0

/-- The scan of a read that is taken, and what is kept of it. -/
theorem receive_spec (hinv : L.Inv s) (h : L.receive s r = some s')
    (htaken : s.receiveSize < L.bufferSize) : ∃ cs,
      Scans (L.probe (buffered s r) (s.receiveSize + r.data.length))
        (s.receiveSize + r.data.length) 0 cs false ∧
      s.receiveSize + r.data.length ≤ L.bufferSize ∧
      s'.calls = s.calls ++ L.callsOf (buffered s r) r.setBuffer cs ∧
      s'.receiveSize + lastStop 0 cs = s.receiveSize + r.data.length ∧
      leftover s' = (buffered s r).slice (lastStop 0 cs) s'.receiveSize := by
  obtain ⟨cs, hs⟩ := S.exists_scans s r
  rcases L.receive_cases h (S.advances _ _) hs with ⟨hskips, -⟩ | ⟨-, hfits, -, hcalls, -, hrest⟩
  · rw [S.skips_eq] at hskips
    exact absurd (of_decide_eq_true hskips) (Nat.not_le.mpr htaken)
  · rw [if_neg Bool.false_ne_true, S.inv_iff.mp hinv, Parser.endOf_zero,
      Int.toNat_natCast] at hrest
    exact ⟨cs, hs, hfits, hcalls, by omega, hrest.2⟩

theorem quiet_receive (hinv : L.Inv s) (hquiet : L.Quiet s) (h : L.receive s r = some s') :
    L.Quiet s' := by
  rcases Nat.lt_or_ge s.receiveSize L.bufferSize with htaken | hfull
  · obtain ⟨cs, hs, -, -, hsize, hleft⟩ := S.receive_spec hinv h htaken
    intro m n i size step hm hp
    by_contra hle
    obtain ⟨hvalid, -⟩ := S.found m n i size step hp
    have hpos := (S.step_eq m n i size step hp).1
    -- the frame lay in the buffer behind the last one that was found
    have hsame : (buffered s r).slice (lastStop 0 cs + i) size = m.slice i size := by
      have hdrop := congrArg (fun l => (l.drop i).take size) (hleft.symm.trans hm.symm)
      simp only [Mem.slice_drop _ _ (show i ≤ s'.receiveSize by omega),
        Mem.slice_take _ _ (show size ≤ s'.receiveSize - i by omega), Nat.zero_add] at hdrop
      exact hdrop
    have hlen : (m.slice i size).length = size := Mem.length_slice _ _ _
    have hhit := S.whole (buffered s r) (s.receiveSize + r.data.length) (lastStop 0 cs + i) _ hvalid
      (by rw [hlen]; exact hsame) (by rw [hlen]; omega)
    have hpass := hs.pass_of_lastStop (fun i size step hp => (S.step_eq _ _ i size step hp).2)
      (lastStop 0 cs + i) (by omega) (by omega)
    rw [hpass] at hhit
    cases hhit
  · have hskip : L.receive s r = some s := if_pos (by rw [S.skips_eq]; exact decide_eq_true hfull)
    rw [← Option.some_inj.mp (hskip.symm.trans h)]
    exact hquiet

/-! ### Runs -/

theorem exists_receive (hinv : L.Inv s) (hfit : s.receiveSize + r.data.length ≤ L.bufferSize) :
    ∃ s', L.receive s r = some s' := by
  by_cases hfull : L.bufferSize ≤ s.receiveSize
  · exact ⟨s, if_pos (by rw [S.skips_eq]; exact decide_eq_true hfull)⟩
  · obtain ⟨cs, hs⟩ := S.exists_scans s r
    have hlast : lastStop 0 cs ≤ s.receiveSize + r.data.length := by
      refine lastStop_le_of_forall (fun c hc => ?_) (Nat.zero_le _)
      obtain ⟨-, -, step, hp⟩ := hs.hit_of_mem c hc
      exact (S.found _ _ _ _ _ hp).2
    have hend : Parser.endOf s.parsingSize cs = (lastStop 0 cs : ℕ) := by
      rw [S.inv_iff.mp hinv, Parser.endOf_zero]
    obtain ⟨s', hs', -⟩ := L.receive_scanned (by rw [S.skips_eq]; exact decide_eq_false hfull) hfit
      (S.advances _ _) hs (S.no_overrun hs) hend hlast
    exact ⟨s', hs'⟩

/-- Noise that fits is handled, and leaves no whole frame behind. -/
theorem run_noise {noise : List Read} : ∀ {s : RecvState κ}, L.Inv s → L.Quiet s →
    L.Fits s noise → ∃ s', (L.receiver event).run s noise = some s' ∧ L.Inv s' ∧ L.Quiet s' := by
  induction noise with
  | nil => exact fun {s} hinv hquiet _ => ⟨s, rfl, hinv, hquiet⟩
  | cons r noise ih =>
      intro s hinv hquiet hfits
      obtain ⟨s₁, h₁⟩ := S.exists_receive hinv hfits.1
      obtain ⟨s', hrun, hinv', hquiet'⟩ := ih (inv_receive S.advances hinv h₁)
        (S.quiet_receive hinv hquiet h₁) (hfits.2 s₁ h₁)
      exact ⟨s', (Receiver.run_cons_of_read _ h₁ noise).trans hrun, hinv', hquiet'⟩

theorem probe_frame (hr : valid r.data) :
    L.probe (buffered s r) (s.receiveSize + r.data.length) s.receiveSize =
      .hit r.data.length r.data.length :=
  S.whole _ _ _ _ hr (Mem.slice_store _ _ _) le_rfl

/-- After a read of a whole frame less than that frame is left over. -/
theorem receiveSize_lt (hinv : L.Inv s) (hr : valid r.data) (h : L.receive s r = some s')
    (htaken : s.receiveSize < L.bufferSize) : s'.receiveSize < r.data.length := by
  obtain ⟨cs, hs, -, -, hsize, -⟩ := S.receive_spec hinv h htaken
  have hpos := List.length_pos_of_ne_nil (S.ne_nil _ hr)
  by_contra hle
  have hpass := hs.pass_of_lastStop (fun i size step hp => (S.step_eq _ _ i size step hp).2)
    s.receiveSize (by omega) (by omega)
  rw [S.probe_frame hr] at hpass
  cases hpass

/-- **There is always room**: once the first frame fits, so do all that follow. -/
theorem run_fits {line : ℕ → Read} (hline : ∀ n, valid (line n).data) (hinv : L.Inv s)
    (hquiet : L.Quiet s) (hfit : s.receiveSize + (line 0).data.length ≤ L.bufferSize) (n : ℕ) :
    ∃ s₁, (L.receiver event).run s ((List.range n).map line) = some s₁ ∧ L.Inv s₁ ∧ L.Quiet s₁ ∧
      s₁.receiveSize + (line n).data.length ≤ L.bufferSize := by
  induction n with
  | zero => exact ⟨s, rfl, hinv, hquiet, hfit⟩
  | succ n ih =>
      obtain ⟨s₁, hrun, hinv₁, hquiet₁, hfit₁⟩ := ih
      obtain ⟨s₂, h₂⟩ := S.exists_receive hinv₁ hfit₁
      have hpos := List.length_pos_of_ne_nil (S.ne_nil _ (hline n))
      have hlt := S.receiveSize_lt hinv₁ (hline n) h₂ (by omega)
      have htwo := S.two_fit _ _ (hline n) (hline (n + 1))
      refine ⟨s₂, ?_, inv_receive S.advances hinv₁ h₂, S.quiet_receive hinv₁ hquiet₁ h₂, by omega⟩
      rw [List.range_succ, List.map_append, Receiver.run_append, hrun, Option.bind_some]
      exact Receiver.run_cons_of_read _ h₂ []

/-! ### Cutting a frame -/

/-- Where no frame begins in what is left over, the frame behind it is cut. -/
theorem cut_of_pass (hr : valid r.data)
    (hfit : s.receiveSize + r.data.length ≤ L.bufferSize)
    (hpass : ∀ i < s.receiveSize,
      L.probe (buffered s r) (s.receiveSize + r.data.length) i = .pass) :
    ∃ s' c, L.receive s r = some s' ∧ s'.calls = s.calls ++ [c] ∧ start c = s.receiveSize ∧
      event c = r.data := by
  have hpos := List.length_pos_of_ne_nil (S.ne_nil _ hr)
  have hscan : Scans (L.probe (buffered s r) (s.receiveSize + r.data.length))
      (s.receiveSize + r.data.length) 0 [⟨s.receiveSize, r.data.length⟩] false :=
    (Scans.hit (by omega) (S.probe_frame hr) (.done le_rfl)).of_pass (by omega) (Nat.zero_le _)
      (fun j _ hj => hpass j hj)
  have hend : Parser.endOf s.parsingSize [⟨s.receiveSize, r.data.length⟩] =
      ((s.receiveSize + r.data.length : ℕ) : ℤ) := Parser.endOf_of_ne_nil _ 0 (List.cons_ne_nil _ _)
  obtain ⟨s', hs', hcalls, -⟩ := L.receive_scanned
    (by rw [S.skips_eq]; exact decide_eq_false (by omega)) hfit (S.advances _ _) hscan
    (S.no_overrun hscan) hend le_rfl
  refine ⟨s', _, hs', hcalls, S.placed _ _ _ _, (S.reports _ _ _).trans ?_⟩
  exact Mem.slice_store _ _ _

/-- A frame is cut behind what is left over only where no frame begins in that. -/
theorem pass_of_cut (hinv : L.Inv s) (hquiet : L.Quiet s) {new : List κ} {c : κ}
    (h : L.receive s r = some s') (hnew : s'.calls = s.calls ++ new) (hc : c ∈ new)
    (hstart : start c = s.receiveSize) (htaken : s.receiveSize < L.bufferSize) :
    ∀ i < s.receiveSize, L.probe (buffered s r) (s.receiveSize + r.data.length) i = .pass := by
  obtain ⟨cs, hs, -, hcalls, -⟩ := S.receive_spec hinv h htaken
  have hold : (buffered s r).slice 0 s.receiveSize = leftover s := by
    have htake := congrArg (List.take s.receiveSize) (slice_buffered s r)
    rwa [Mem.slice_take _ _ (Nat.le_add_right _ _),
      List.take_left' (show (leftover s).length = s.receiveSize from Mem.length_slice _ _ _)] at htake
  obtain rfl := List.append_cancel_left (hnew.symm.trans hcalls)
  obtain ⟨cut, hcut, before, rfl⟩ := L.exists_of_mem_callsOf hc
  rw [S.placed] at hstart
  intro i hi
  refine hs.pass_of_start_mem (k := s.receiveSize) (fun i size step _ hp => ?_)
    (List.mem_map.mpr ⟨cut, hcut, hstart⟩) i (Nat.zero_le i) hi
  rw [(S.step_eq _ _ _ _ _ hp).2]
  exact hquiet _ _ _ _ _ hold hp

theorem fits_of_recovers {line : ℕ → Read} (h : L.Recovers event start s line) :
    s.receiveSize + (line 0).data.length ≤ L.bufferSize := by
  obtain ⟨n, s₁, s₂, new, hrun, h₂, hnew, c, hc, -⟩ := h
  by_contra hroom
  by_cases hfull : L.bufferSize ≤ s.receiveSize
  · -- every read is thrown away
    have hskip : ∀ r, L.receive s r = some s := fun r =>
      if_pos (by rw [S.skips_eq]; exact decide_eq_true hfull)
    have hstay : ∀ reads, (L.receiver event).run s reads = some s := by
      intro reads
      induction reads with
      | nil => rfl
      | cons r reads ih => exact (Receiver.run_cons_of_read _ (hskip r) reads).trans ih
    obtain rfl := Option.some_inj.mp ((hstay _).symm.trans hrun)
    obtain rfl := Option.some_inj.mp ((hskip _).symm.trans h₂)
    rw [List.self_eq_append_right.mp hnew] at hc
    cases hc
  · -- the copy of the first read leaves the buffer
    have hnone : L.receive s (line 0) = none := by
      unfold receive
      rw [S.skips_eq, if_neg (by simpa using hfull), if_pos (by omega)]
    cases n with
    | zero =>
        obtain rfl := Option.some_inj.mp hrun
        exact absurd (hnone.symm.trans h₂) (Option.some_ne_none _).symm
    | succ n =>
        rw [List.range_succ_eq_map, List.map_cons, Receiver.run_cons] at hrun
        rw [show (L.receiver event).read s (line 0) = none from hnone] at hrun
        cases hrun

/-- **When a loop recovers**: whole frames follow the noise, one to a read, and one of them is
cut out exactly when the first fits the buffer and some read meets bytes in which no frame
begins. -/
theorem recovers_iff {m : Mem} {noise : List Read} {line : ℕ → Read}
    (hnoise : L.Fits (.start m) noise) (hline : ∀ n, valid (line n).data) :
    ∃ s, (L.receiver event).run (.start m) noise = some s ∧
      (L.Recovers event start s line ↔
        s.receiveSize + (line 0).data.length ≤ L.bufferSize ∧ L.MeetsNoFrame event s line) := by
  have hstart : L.Quiet (.start m : RecvState κ) := by
    intro m n i size step _ hp
    have := (S.step_eq m n i size step hp).1
    change 0 < i + size
    omega
  obtain ⟨s, hrun, hinv, hquiet⟩ := S.run_noise (L.inv_start m) hstart hnoise
  refine ⟨s, hrun, fun h => ⟨S.fits_of_recovers h, ?_⟩, ?_⟩
  · obtain ⟨n, s₁, s₂, new, hrun₁, h₂, hnew, c, hc, hplace, -⟩ := id h
    obtain ⟨s₁', hrun₁', hinv₁, hquiet₁, hfit₁⟩ :=
      S.run_fits hline hinv hquiet (S.fits_of_recovers h) n
    obtain rfl := Option.some_inj.mp (hrun₁.symm.trans hrun₁')
    have hpos := List.length_pos_of_ne_nil (S.ne_nil _ (hline n))
    exact ⟨n, s₁, hrun₁, S.pass_of_cut hinv₁ hquiet₁ h₂ hnew hc hplace (by omega)⟩
  · rintro ⟨hfit, n, s₁, hrun₁, hpass⟩
    obtain ⟨s₁', hrun₁', -, -, hfit₁⟩ := S.run_fits hline hinv hquiet hfit n
    obtain rfl := Option.some_inj.mp (hrun₁.symm.trans hrun₁')
    obtain ⟨s₂, c, h₂, hnew, hplace, hframe⟩ := S.cut_of_pass (hline n) hfit₁ hpass
    exact ⟨n, s₁, s₂, [c], hrun₁, h₂, hnew, c, List.mem_singleton_self c, hplace, hframe⟩

end Sharp
end RecvLoop

/-! ### The serial lines -/

theorem uartLoop_sharp : IoTManager.uartLoop.Sharp IoTManager.UartCall.frame
    IoTManager.UartCall.start IsFrame where
  toEager := IoTManager.uartLoop_eager
  found m n i size step hp := by
    obtain ⟨h0, hle, h2, rfl, -⟩ := frameProbe_eq_hit.mp hp
    exact ⟨exists_frame h0 h2, by omega⟩
  placed _ _ _ _ := rfl
  skips_eq _ _ := rfl
  resets := rfl
  two_fit := by
    rintro _ _ ⟨f, rfl⟩ ⟨f', rfl⟩
    have := f.short
    have := f'.short
    rw [f.length_bytes, f'.length_bytes]
    change _ ≤ 2048
    omega

theorem mainLoop_sharp : CommManager.mainLoop.Sharp CommManager.CommCall.frame
    CommManager.CommCall.start CommManager.IsNodeFrame where
  toEager := CommManager.mainLoop_eager
  found m n i size step hp := by
    obtain ⟨h0, hle, h84, rfl, -⟩ := CommManager.nodeProbe_eq_hit.mp hp
    refine ⟨⟨⟨m.slice (i + 1) 83, Mem.length_slice _ _ _⟩, ?_⟩, hle⟩
    have hfirst : m.slice i 1 = [0xFE] := by simp [Mem.slice, h0]
    have hlast : m.slice (i + 1 + 83) 1 = [0xFF] := by
      rw [Nat.add_assoc]
      simp [Mem.slice, h84]
    rw [show 85 = 1 + (83 + 1) from rfl, Mem.slice_add, Mem.slice_add, hfirst, hlast]
    rfl
  placed _ _ _ _ := rfl
  skips_eq _ _ := rfl
  resets := rfl
  two_fit f f' hf hf' := by
    rw [hf.length, hf'.length]
    decide

/-- **When the serial lines recover**: after noise that fits the buffer, the loops of IoTManager
and CommManager cut out a frame of the line exactly when there is room for the first one and some
read meets bytes in which no frame begins. -/
theorem serial_recovers_iff (m : Mem) (noise : List Read) (line : ℕ → Read) :
    (IoTManager.uartLoop.Fits (.start m) noise → (∀ n, IsFrame (line n).data) →
      ∃ s, (IoTManager.uartLoop.receiver IoTManager.UartCall.frame).run (.start m) noise = some s ∧
        (IoTManager.uartLoop.Recovers IoTManager.UartCall.frame IoTManager.UartCall.start s line ↔
          s.receiveSize + (line 0).data.length ≤ IoTManager.bufferSize ∧
            IoTManager.uartLoop.MeetsNoFrame IoTManager.UartCall.frame s line)) ∧
    (CommManager.mainLoop.Fits (.start m) noise → (∀ n, CommManager.IsNodeFrame (line n).data) →
      ∃ s, (CommManager.mainLoop.receiver CommManager.CommCall.frame).run (.start m) noise =
          some s ∧
        (CommManager.mainLoop.Recovers CommManager.CommCall.frame CommManager.CommCall.start s line ↔
          s.receiveSize + (line 0).data.length ≤ CommManager.bufferSize ∧
            CommManager.mainLoop.MeetsNoFrame CommManager.CommCall.frame s line)) :=
  ⟨fun hnoise hline => uartLoop_sharp.recovers_iff hnoise hline,
    fun hnoise hline => mainLoop_sharp.recovers_iff hnoise hline⟩

/-- Noise `FE 04 FF` in front of frames `FE 04 00 FF FE 04 FF`: each frame leaves the same noise
behind. -/
def echo : Frame := ⟨[0x00, 0xFF, 0xFE, 0x04], by decide⟩

theorem serial_recovers_echo : ∃ s, (IoTManager.uartLoop.receiver IoTManager.UartCall.frame).run
      (.start fun _ => 0) [⟨[0xFE, 0x04, 0xFF], fun _ => 0⟩] = some s ∧
    (IoTManager.uartLoop.Recovers IoTManager.UartCall.frame IoTManager.UartCall.start s
        (fun _ => ⟨echo.bytes, fun _ => 0⟩) ↔
      s.receiveSize + echo.bytes.length ≤ IoTManager.bufferSize ∧
        IoTManager.uartLoop.MeetsNoFrame IoTManager.UartCall.frame s
          (fun _ => ⟨echo.bytes, fun _ => 0⟩)) :=
  (serial_recovers_iff (fun _ => 0) [⟨[0xFE, 0x04, 0xFF], fun _ => 0⟩]
    (fun _ => ⟨echo.bytes, fun _ => 0⟩)).1 (by decide) (fun _ => ⟨echo, rfl⟩)

theorem not_recovers_zeros {n : ℕ} {line : ℕ → Read} {s : RecvState IoTManager.UartCall}
    (hn : n ≤ IoTManager.bufferSize) (hroom : IoTManager.bufferSize < n + (line 0).data.length)
    (hrun : (IoTManager.uartLoop.receiver IoTManager.UartCall.frame).run silent [zeroRead n] =
      some s) :
    ¬ IoTManager.uartLoop.Recovers IoTManager.UartCall.frame IoTManager.UartCall.start s line := by
  intro h
  obtain ⟨s', hs', hsize⟩ := receive_zeros hn
  have hrun' : (IoTManager.uartLoop.receiver IoTManager.UartCall.frame).run silent [zeroRead n] =
      some s' := Receiver.run_cons_of_read _ hs' []
  obtain rfl := Option.some_inj.mp (hrun.symm.trans hrun')
  have hfit := uartLoop_sharp.fits_of_recovers h
  rw [hsize] at hfit
  exact absurd hfit (Nat.not_le.mpr hroom)

/-- Zeros that fill the buffer: everything that follows is thrown away. -/
theorem serial_recovers_wrong : ¬ ∀ (m : Mem) (noise : List Read) (line : ℕ → Read),
    IoTManager.uartLoop.Fits (.start m) noise → (∀ n, IsFrame (line n).data) →
    ∃ s, (IoTManager.uartLoop.receiver IoTManager.UartCall.frame).run (.start m) noise = some s ∧
      IoTManager.uartLoop.Recovers IoTManager.UartCall.frame IoTManager.UartCall.start s line := by
  intro h
  have hfits : IoTManager.uartLoop.Fits silent [zeroRead 2048] := by
    refine ⟨?_, fun _ _ => trivial⟩
    rw [show (zeroRead 2048).data.length = 2048 from List.length_replicate]
    exact le_rfl
  obtain ⟨s, hrun, hrec⟩ := h (fun _ => 0) [zeroRead 2048] (fun _ => ⟨echo.bytes, fun _ => 0⟩) hfits
    (fun _ => ⟨echo, rfl⟩)
  exact not_recovers_zeros le_rfl (by decide) hrun hrec

end IdcuIot
