import IdcuIot.Framing

/-! # FE … FF frames

On the serial lines and on the command connection a frame is `FE`, a length byte `L`, `L`
further bytes and `FF`, `L + 3` bytes in all.  The parsers test for it with the same two
conditions and differ in how many bytes they ask for (`need`): IoTManager compares `len`
with `i + cvalue[i+1] + 3`, M2MManager with `i + cvalue[i+1]` only.  Either way a loop with
this probe is eager (`eager_of_frameProbe`). -/

namespace IdcuIot

open Memory Scan

/-- A frame, given by the bytes between its length byte and its terminator. -/
structure Frame where
  body : List UInt8
  short : body.length < 256

namespace Frame

/-- The bytes of a frame on the line. -/
def bytes (f : Frame) : List UInt8 := 0xFE :: UInt8.ofNat f.body.length :: (f.body ++ [0xFF])

@[simp] theorem length_bytes (f : Frame) : f.bytes.length = f.body.length + 3 := by
  simp [bytes]

theorem toNat_length (f : Frame) : (UInt8.ofNat f.body.length).toNat = f.body.length := by
  rw [UInt8.toNat_ofNat']
  exact Nat.mod_eq_of_lt f.short

theorem bytes_ne_nil (f : Frame) : f.bytes ≠ [] := List.cons_ne_nil _ _

theorem getElem_bytes_zero (f : Frame) (h : 0 < f.bytes.length) : f.bytes[0] = 0xFE := rfl

theorem getElem_bytes_one (f : Frame) (h : 1 < f.bytes.length) :
    f.bytes[1] = UInt8.ofNat f.body.length := rfl

theorem getElem_bytes_last (f : Frame) (h : f.body.length + 2 < f.bytes.length) :
    f.bytes[f.body.length + 2] = 0xFF := by
  simp [bytes]

end Frame

/-- The bytes of some frame. -/
def IsFrame (l : List UInt8) : Prop := ∃ f : Frame, f.bytes = l

theorem isFrame_of_mem {frames : List Frame} : ∀ l ∈ frames.map Frame.bytes, IsFrame l := by
  intro l hl
  obtain ⟨f, -, rfl⟩ := List.mem_map.mp hl
  exact ⟨f, rfl⟩

/-- The test for a frame at index `i`, asking for `cvalue[i+1] + need` bytes. -/
def frameProbe (need : ℕ) (cvalue : Mem) (len i : ℕ) : Probe :=
  if cvalue i = 0xFE then
    if i + ((cvalue (i + 1)).toNat + need) ≤ len ∧
        cvalue (i + ((cvalue (i + 1)).toNat + 2)) = 0xFF then
      .hit ((cvalue (i + 1)).toNat + 3) ((cvalue (i + 1)).toNat + 3)
    else .pass
  else .pass

section
variable {need : ℕ} {m : Mem} {n i : ℕ}

theorem frameProbe_eq_hit {size step : ℕ} : frameProbe need m n i = .hit size step ↔
    m i = 0xFE ∧ i + ((m (i + 1)).toNat + need) ≤ n ∧
      m (i + ((m (i + 1)).toNat + 2)) = 0xFF ∧
      size = (m (i + 1)).toNat + 3 ∧ step = (m (i + 1)).toNat + 3 := by
  unfold frameProbe
  split_ifs with h1 h2
  · simp only [Probe.hit.injEq, h1, h2, true_and]
    exact ⟨fun h => ⟨h.1.symm, h.2.symm⟩, fun h => ⟨h.1.symm, h.2.symm⟩⟩
  · constructor
    · intro h
      cases h
    · rintro ⟨-, h3, h4, -⟩
      exact absurd ⟨h3, h4⟩ h2
  · simp [h1]

theorem frameProbe_ne_halt : frameProbe need m n i ≠ .halt := by
  unfold frameProbe
  split_ifs <;> simp

theorem frameProbe_of_frame (hneed : need ≤ 3) {f : Frame}
    (hm : m.slice i f.bytes.length = f.bytes) (hn : i + f.bytes.length ≤ n) :
    frameProbe need m n i = .hit f.bytes.length f.bytes.length := by
  have h0 : m i = 0xFE :=
    (Mem.eq_getElem_of_slice hm (show 0 < f.bytes.length by simp)).trans (f.getElem_bytes_zero _)
  have h1 : (m (i + 1)).toNat = f.body.length := by
    rw [Mem.eq_getElem_of_slice hm (show 1 < f.bytes.length by simp), f.getElem_bytes_one,
      f.toNat_length]
  have h2 : m (i + (f.body.length + 2)) = 0xFF := by
    rw [Mem.eq_getElem_of_slice hm (show f.body.length + 2 < f.bytes.length by simp),
      f.getElem_bytes_last]
  rw [f.length_bytes] at hn ⊢
  rw [frameProbe_eq_hit, h1]
  exact ⟨h0, by omega, h2, rfl, rfl⟩

/-- What is found in the beginning of a frame reaches past the bytes received. -/
theorem frameProbe_partly {f : Frame} {size step : ℕ} (hi : i < n) (hn : n < i + f.bytes.length)
    (hm : m.slice i (n - i) = f.bytes.take (n - i))
    (hp : frameProbe need m n i = .hit size step) : n < i + size := by
  obtain ⟨-, -, -, hsize, -⟩ := frameProbe_eq_hit.mp hp
  rcases Nat.lt_or_ge (i + 1) n with h1 | h1
  · have hlen : 1 < (f.bytes.take (n - i)).length := by
      rw [List.length_take]
      simp only [Frame.length_bytes] at hn ⊢
      omega
    have hL : m (i + 1) = UInt8.ofNat f.body.length := by
      rw [Mem.eq_getElem_of_slice hm hlen, List.getElem_take, f.getElem_bytes_one]
    rw [hL, f.toNat_length] at hsize
    rw [f.length_bytes] at hn
    omega
  · omega

/-- Where the two conditions of the test hold lie the bytes of a frame. -/
theorem exists_frame (h0 : m i = 0xFE) (h2 : m (i + ((m (i + 1)).toNat + 2)) = 0xFF) :
    ∃ f : Frame, f.bytes = m.slice i ((m (i + 1)).toNat + 3) := by
  have hlt := (m (i + 1)).toNat_lt
  refine ⟨⟨m.slice (i + 2) (m (i + 1)).toNat, by rw [Mem.length_slice]; exact hlt⟩, ?_⟩
  have htwo : m.slice i 2 = [0xFE, m (i + 1)] := by simp [Mem.slice, List.range_succ, h0]
  have hone : m.slice (i + 2 + (m (i + 1)).toNat) 1 = [0xFF] := by
    rw [Nat.add_assoc, Nat.add_comm 2]
    simp [Mem.slice, h2]
  rw [show (m (i + 1)).toNat + 3 = 2 + ((m (i + 1)).toNat + 1) by omega, Mem.slice_add,
    Mem.slice_add, htwo, hone]
  simp [Frame.bytes]

/-- With three bytes asked for, a stretch of the buffer is passed over exactly when no whole
frame lies in it. -/
theorem frameProbe_pass_iff {a : ℕ} (ha : a ≤ n) :
    (∀ i, a ≤ i → i < n → frameProbe 3 m n i = .pass) ↔
      ∀ f : Frame, ¬ f.bytes <:+: m.slice a (n - a) := by
  constructor
  · rintro hpass f ⟨pre, post, hf⟩
    have hlen := congrArg List.length hf
    simp only [List.length_append, Mem.length_slice, f.length_bytes] at hlen
    have hat : m.slice (a + pre.length) f.bytes.length = f.bytes := by
      have hdrop := m.slice_drop a (show pre.length ≤ n - a by omega)
      rw [← hf, List.append_assoc, List.drop_left] at hdrop
      rw [← m.slice_take (a + pre.length) (show f.bytes.length ≤ n - a - pre.length by
        rw [f.length_bytes]; omega), ← hdrop, List.take_left]
    have hhit := frameProbe_of_frame le_rfl hat (show _ ≤ n by rw [f.length_bytes]; omega)
    rw [hpass _ (by omega) (by omega)] at hhit
    cases hhit
  · intro hno i hai hin
    cases hp : frameProbe 3 m n i with
    | pass => rfl
    | halt => exact absurd hp frameProbe_ne_halt
    | hit size step =>
        obtain ⟨h0, h1, h2, -, -⟩ := frameProbe_eq_hit.mp hp
        obtain ⟨f, hf⟩ := exists_frame h0 h2
        refine absurd ?_ (hno f)
        rw [hf]
        exact m.slice_infix hai (by omega)

end

theorem eager_of_frameProbe {κ : Type} {L : RecvLoop κ} {event : κ → List UInt8} {need : ℕ}
    (hneed : need ≤ 3) (hprobe : L.probe = frameProbe need)
    (hev : L.Reports event (fun m c => m.slice c.start c.size)) (hroom : 258 ≤ L.room) :
    L.Eager event IsFrame where
  reports := hev
  step_eq m n i size step hp := by
    rw [hprobe] at hp
    obtain ⟨-, -, -, hsize, hstep⟩ := frameProbe_eq_hit.mp hp
    omega
  no_halt m n i := by
    rw [hprobe]
    exact frameProbe_ne_halt
  room m n i size step hp := by
    rw [hprobe] at hp
    obtain ⟨-, -, -, hsize, -⟩ := frameProbe_eq_hit.mp hp
    have := (m (i + 1)).toNat_lt
    omega
  whole m n i l hl hm hn := by
    obtain ⟨f, rfl⟩ := hl
    rw [hprobe]
    exact frameProbe_of_frame hneed hm hn
  partly m n i l size step hl hi hn hm hp := by
    obtain ⟨f, rfl⟩ := hl
    rw [hprobe] at hp
    exact frameProbe_partly hi hn hm hp
  ne_nil l hl := by
    obtain ⟨f, rfl⟩ := hl
    exact f.bytes_ne_nil

end IdcuIot
