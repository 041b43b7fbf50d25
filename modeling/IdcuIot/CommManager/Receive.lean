import Mathlib
import IdcuIot.Framing

/-! # CommManager: the serial side

`ParsingReceiveValue` and the receive loop of `main`.  A frame of a node has 85 bytes,
`FE` first and `FF` last; the parser asks for all of them before it looks at the last, so
what is found in an incomplete frame would have to end behind it.  `mainLoop_frames` draws the
conclusion for a whole run. -/

namespace IdcuIot.CommManager

open Memory Scan Reassembly

/-- `BUFFER_SIZE` in `CommManager.h`. -/
def bufferSize : ℕ := 1024

/-- A frame of a node, given by the 83 bytes between its first and its last. -/
structure NodeFrame where
  body : List UInt8
  full : body.length = 83

namespace NodeFrame

/-- The bytes of a frame on the line. -/
def bytes (f : NodeFrame) : List UInt8 := 0xFE :: (f.body ++ [0xFF])

@[simp] theorem length_bytes (f : NodeFrame) : f.bytes.length = 85 := by
  simp [bytes, f.full]

theorem getElem_bytes_zero (f : NodeFrame) (h : 0 < f.bytes.length) : f.bytes[0] = 0xFE := rfl

theorem getElem_bytes_last (f : NodeFrame) (h : 84 < f.bytes.length) : f.bytes[84] = 0xFF := by
  simp [bytes, f.full]

end NodeFrame

/-- The bytes of some frame. -/
def IsNodeFrame (l : List UInt8) : Prop := ∃ f : NodeFrame, f.bytes = l

theorem IsNodeFrame.length {l : List UInt8} (h : IsNodeFrame l) : l.length = 85 := by
  obtain ⟨f, rfl⟩ := h
  exact f.length_bytes

theorem isNodeFrame_of_mem (frames : List NodeFrame) :
    ∀ l ∈ frames.map NodeFrame.bytes, IsNodeFrame l := by
  intro l hl
  obtain ⟨f, -, rfl⟩ := List.mem_map.mp hl
  exact ⟨f, rfl⟩

/-! ### The parser -/

/-- The test for a frame at index `i`. -/
def nodeProbe (cvalue : Mem) (len i : ℕ) : Probe :=
  if cvalue i = 0xFE then
    if i + 85 ≤ len ∧ cvalue (i + 84) = 0xFF then .hit 85 85 else .pass
  else .pass

/-- `_getCheckSum`: the sum of `buffer[1]`, …, `buffer[len-3]` in an `unsigned char`. -/
def getCheckSum (buffer : Mem) (len : ℕ) : UInt8 := (buffer.slice 1 (len - 3)).sum

/-- What `ParsingReceiveValue` does with a frame that starts at index `start`: `setBuffer`
before and after the copy, and whether `selectTag` is called. -/
structure CommCall where
  start : ℕ
  size : ℕ
  before : Mem
  setBuffer : Mem
  selected : Bool

/-- The frame that was copied. -/
def CommCall.frame (c : CommCall) : List UInt8 := c.setBuffer.slice 0 c.size

/-- The parser of the serial line; the sum is taken up to the index `i+1` after the frame. -/
def parser : Parser CommCall where
  probe := nodeProbe
  header := 0
  room := bufferSize
  call _ before setBuffer c :=
    { start := c.start
      size := c.size
      before := before
      setBuffer := setBuffer
      selected := getCheckSum setBuffer c.stop == setBuffer (c.stop - 2) }

/-- `ParsingReceiveValue`. -/
def parsingReceiveValue (setBuffer cvalue : Mem) (len : ℕ) (remainSize : ℤ) : Parsed CommCall :=
  parser.parsingReceiveValue setBuffer cvalue len remainSize

/-- The receive loop of `main`: it sets `parsingSize = 0` after each read. -/
def mainLoop : RecvLoop CommCall :=
  { parser with
    bufferSize := bufferSize
    skips := fun receiveSize _ => decide (bufferSize ≤ receiveSize)
    resets := true }

section
variable {m : Mem} {n i : ℕ}

theorem nodeProbe_eq_hit {size step : ℕ} : nodeProbe m n i = .hit size step ↔
    m i = 0xFE ∧ i + 85 ≤ n ∧ m (i + 84) = 0xFF ∧ size = 85 ∧ step = 85 := by
  unfold nodeProbe
  split_ifs with h1 h2
  · simp only [Probe.hit.injEq, h1, h2, true_and]
    exact ⟨fun h => ⟨h.1.symm, h.2.symm⟩, fun h => ⟨h.1.symm, h.2.symm⟩⟩
  · constructor
    · intro h
      cases h
    · rintro ⟨-, h3, h4, -⟩
      exact absurd ⟨h3, h4⟩ h2
  · simp [h1]

theorem nodeProbe_ne_halt : nodeProbe m n i ≠ .halt := by
  unfold nodeProbe
  split_ifs <;> simp

theorem nodeProbe_of_short (h : n < i + 85) : nodeProbe m n i = .pass := by
  unfold nodeProbe
  split_ifs with h1 h2
  · exact absurd h2.1 (by omega)
  · rfl
  · rfl

theorem nodeProbe_of_frame {f : NodeFrame} (hm : m.slice i f.bytes.length = f.bytes)
    (hn : i + f.bytes.length ≤ n) : nodeProbe m n i = .hit f.bytes.length f.bytes.length := by
  have hlen := f.length_bytes
  have h0 : m (i + 0) = 0xFE :=
    (Mem.eq_getElem_of_slice hm (by omega)).trans (f.getElem_bytes_zero (by omega))
  have h84 : m (i + 84) = 0xFF :=
    (Mem.eq_getElem_of_slice hm (by omega)).trans (f.getElem_bytes_last (by omega))
  rw [hlen] at hn ⊢
  exact nodeProbe_eq_hit.mpr ⟨h0, hn, h84, rfl, rfl⟩

end

theorem mainLoop_eager : mainLoop.Eager CommCall.frame IsNodeFrame where
  reports m b c := by
    simp only [CommCall.frame, mainLoop, parser, Parser.copy, Nat.add_zero, Nat.sub_zero]
    exact Mem.slice_memcpy b 0 m c.start c.size
  step_eq m n i size step hp := by
    obtain ⟨-, -, -, rfl, rfl⟩ := nodeProbe_eq_hit.mp hp
    exact ⟨by omega, rfl⟩
  no_halt m n i := nodeProbe_ne_halt
  room m n i size step hp := by
    obtain ⟨-, -, -, rfl, -⟩ := nodeProbe_eq_hit.mp hp
    decide
  whole m n i l hl hm hn := by
    obtain ⟨f, rfl⟩ := hl
    exact nodeProbe_of_frame hm hn
  partly m n i l size step hl hi hn hm hp := by
    obtain ⟨-, hle, -⟩ := nodeProbe_eq_hit.mp hp
    rw [hl.length] at hn
    omega
  ne_nil l hl := by
    rintro rfl
    exact absurd hl.length (by decide)

/-! ### A run -/

/-- Fewer than 85 bytes are pending, so a read that fits the buffer is in step. -/
theorem mainLoop_inStep {s : RecvState CommCall} {es : List (List UInt8)} {r : Read}
    {rest : List UInt8} (hv : ∀ e ∈ es, IsNodeFrame e) (hr : r.data ≠ [])
    (h : RecvLoop.leftover s ++ (r.data ++ rest) = stream id es)
    (hfit : s.receiveSize + r.data.length ≤ bufferSize) : mainLoop.InStep s es r where
  taken := by
    have := List.length_pos_of_ne_nil hr
    exact decide_eq_false (by omega)
  fits := hfit
  completes := Or.inl rfl
  clear i hi hin := by
    apply nodeProbe_of_short
    have hlen := congrArg List.length h
    cases hd : es.drop (arrived id es (s.receiveSize + r.data.length)) with
    | nil =>
        have hall := congrArg List.length
          (drop_settled id es (s.receiveSize + r.data.length))
        rw [hd, stream_nil, List.length_drop, List.length_nil, ← h] at hall
        simp only [List.length_append, RecvLoop.leftover, Mem.length_slice] at hall
        omega
    | cons e es' =>
        have hlt := lt_of_drop_arrived id es _ e es' hd
        rw [id, (hv e (List.mem_of_mem_drop (by rw [hd]; exact List.mem_cons_self))).length] at hlt
        omega

/-- **The frames of the nodes do not depend on the reads**: read in pieces that fit the
buffer, the frames on the line are cut out each once and in order and nothing is left over;
after each read those that are complete have been cut out, and the bytes of the one that is
not are kept. -/
theorem mainLoop_frames (receiveBuffer : Mem) (frames : List NodeFrame) (reads : List Read)
    (hne : ∀ r ∈ reads, r.data ≠ [])
    (h : reads.flatMap Read.data = frames.flatMap NodeFrame.bytes)
    (hfit : mainLoop.Fits (RecvState.start receiveBuffer) reads) :
    mainLoop.Delivers CommCall.frame id receiveBuffer reads (frames.map NodeFrame.bytes) ∧
      ∀ pre post, reads = pre ++ post → ∃ s,
        (mainLoop.receiver CommCall.frame).run (RecvState.start receiveBuffer) pre = some s ∧
          s.calls.map CommCall.frame =
            (frames.map NodeFrame.bytes).take ((pre.flatMap Read.data).length / 85) ∧
          RecvLoop.leftover s =
            (pre.flatMap Read.data).drop (85 * ((pre.flatMap Read.data).length / 85)) := by
  have hv := isNodeFrame_of_mem frames
  have hflat := h.trans (List.flatMap_def ..)
  have hstep : ∀ pre r post s new es, reads = pre ++ r :: post →
      (mainLoop.receiver CommCall.frame).run (RecvState.start receiveBuffer) pre = some s →
      frames.map NodeFrame.bytes = new ++ es →
      RecvLoop.leftover s ++ (r.data ++ post.flatMap Read.data) = stream id es →
      mainLoop.InStep s es r := by
    intro pre r post s new es hpre hr hes hk
    exact mainLoop_inStep (fun e he => hv e (by rw [hes]; exact List.mem_append_right new he))
      (hne r (by rw [hpre]; simp)) hk ((hpre ▸ hfit).of_run hr)
  refine ⟨?_, ?_⟩
  · refine (mainLoop_eager.delivers_iff_of_reach receiveBuffer _ reads hv hne hflat
      (fun _ => True) ?_).mpr (fun _ _ _ _ => trivial)
    intro pre r post s new es hpre hr hes hk
    exact iff_true_intro (hstep pre r post s new es hpre hr hes hk)
  · intro pre post hpre
    obtain ⟨s, hr, -, hcalls, hleft⟩ :=
      mainLoop_eager.run_pending receiveBuffer hv hflat hstep pre post hpre
    have hstream : pre.flatMap Read.data ++ post.flatMap Read.data =
        stream id (frames.map NodeFrame.bytes) := by
      rw [← List.flatMap_append, ← hpre, hflat, RecvLoop.Eager.flatten_eq_stream]
    have hlen : ∀ e ∈ frames.map NodeFrame.bytes, (id e).length = 85 := fun e he => (hv e he).length
    have htotal := length_stream_of_forall_length id hlen
    have hle := congrArg List.length hstream
    rw [List.length_append] at hle
    have harr : arrived id (frames.map NodeFrame.bytes) (pre.flatMap Read.data).length =
        (pre.flatMap Read.data).length / 85 :=
      arrived_of_forall_length id (by decide) hlen (by omega)
    refine ⟨s, hr, by rw [hcalls, harr], ?_⟩
    rw [hleft, pending, ← hstream, List.take_left, settled, harr,
      length_stream_of_forall_length id (fun e he => hlen e (List.mem_of_mem_take he)),
      List.length_take, Nat.min_eq_left (by omega)]

/-- A frame with nothing but `FE` between its first and its last byte, in two reads. -/
def splitFrame : NodeFrame := ⟨List.replicate 83 0xFE, List.length_replicate⟩

def splitReads : List Read :=
  [⟨splitFrame.bytes.take 40, fun _ => 0⟩, ⟨splitFrame.bytes.drop 40, fun _ => 0⟩]

theorem mainLoop_frames_split :
    mainLoop.Delivers CommCall.frame id (fun _ => 0) splitReads ([splitFrame].map NodeFrame.bytes) ∧
      ∀ pre post, splitReads = pre ++ post → ∃ s,
        (mainLoop.receiver CommCall.frame).run (RecvState.start fun _ => 0) pre = some s ∧
          s.calls.map CommCall.frame =
            ([splitFrame].map NodeFrame.bytes).take ((pre.flatMap Read.data).length / 85) ∧
          RecvLoop.leftover s =
            (pre.flatMap Read.data).drop (85 * ((pre.flatMap Read.data).length / 85)) :=
  mainLoop_frames (fun _ => 0) [splitFrame] splitReads (by decide) (by decide) (by decide)

end IdcuIot.CommManager
