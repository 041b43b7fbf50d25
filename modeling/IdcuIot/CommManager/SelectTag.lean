import IdcuIot.CommManager.Receive
import IdcuIot.Shared

/-! # CommManager: the record of a node

`selectTag` gathers the fields of a frame into a record of 34 bytes for the queue of
RealTimeDataManager.  `ParsingReceiveValue` calls it for the frames whose checksum is right, but
takes the sum with the length `i+1`, the index after the frame in the buffer: behind the first
frame it runs on into what `setBuffer` held before.  `selected_iff` says for which frames that
makes no difference. -/

namespace IdcuIot.CommManager

open Memory Scan Reassembly

/-! ### The record -/

/-- The offsets `NODEID`, `GROUP`, `SEQ`, `WO` and `CNT` in `CommManager.h`. -/
inductive Field where
  | nodeid
  | group
  | seq
  | wo
  | cnt
deriving DecidableEq, Repr

def Field.offset : Field → ℕ
  | .nodeid => 7
  | .group => 4
  | .seq => 10
  | .wo => 13
  | .cnt => 31

/-- `DI_PORT`. -/
def diPort : ℕ := 6

/-- The bytes that `selectTag` gathers from a frame. -/
def selectFields (buffer : Mem) : List UInt8 :=
  [buffer Field.nodeid.offset, buffer Field.group.offset, buffer Field.seq.offset,
    buffer Field.wo.offset, buffer (Field.wo.offset + 3), buffer (Field.wo.offset + 6),
    buffer (Field.wo.offset + 9), buffer (Field.wo.offset + 12), buffer (Field.wo.offset + 15)] ++
    (List.range diPort).flatMap (fun i => buffer.slice (Field.cnt.offset + 6 * i) 4)

/-- `selectTag`: the message it hands to `msgsnd`. -/
def selectTag (buffer : Mem) : TData :=
  let fields := selectFields buffer
  { dataType := 1
    dataNum := fields.length + 1
    dataBuff := Mem.store (fun _ => 0) 0 (fields ++ [fields.sum]) }

/-- Where the fields of a record lie in a frame: node id, group, sequence number, six work
orders and six counters of four bytes. -/
def recordOffsets : List ℕ :=
  [7, 4, 10] ++ (List.range 6).map (fun k => 13 + 3 * k) ++
    (List.range 6).flatMap (fun k => (List.range 4).map (fun j => 31 + 6 * k + j))

/-- The record of a frame: its fields and their sum. -/
def NodeFrame.record (f : NodeFrame) : List UInt8 :=
  let fields := recordOffsets.map (fun k => f.bytes.getD k 0)
  fields ++ [fields.sum]

theorem lt_of_mem_recordOffsets : ∀ k ∈ recordOffsets, k < 85 := by decide

theorem selectFields_eq (buffer : Mem) : selectFields buffer = recordOffsets.map buffer := rfl

theorem selectTag_eq {buffer : Mem} {f : NodeFrame} (h : buffer.slice 0 85 = f.bytes) :
    (selectTag buffer).dataNum = 34 ∧ (selectTag buffer).bytes = f.record := by
  have hfields : selectFields buffer = recordOffsets.map (fun k => f.bytes.getD k 0) := by
    rw [selectFields_eq]
    apply List.map_congr_left
    intro k hk
    have hlt : k < f.bytes.length := by
      rw [f.length_bytes]
      exact lt_of_mem_recordOffsets k hk
    rw [List.getD_eq_getElem _ _ hlt, ← Mem.eq_getElem_of_slice h hlt, Nat.zero_add]
  have hbytes : (selectTag buffer).bytes = selectFields buffer ++ [(selectFields buffer).sum] := by
    have hstore := Mem.slice_store (fun _ => 0) 0 (selectFields buffer ++ [(selectFields buffer).sum])
    rwa [List.length_append, List.length_singleton] at hstore
  refine ⟨rfl, ?_⟩
  rw [hbytes, hfields]
  rfl

/-! ### The checksum -/

namespace NodeFrame

/-- The sum of the bytes `1`, …, `82` of a frame. -/
def sum (f : NodeFrame) : UInt8 := ((f.bytes.drop 1).take 82).sum

/-- The checksum in a frame. -/
def check (f : NodeFrame) : UInt8 := f.bytes.getD 83 0

/-- The checksum of the frame is right. -/
def SumOk (f : NodeFrame) : Prop := f.sum = f.check

instance (f : NodeFrame) : Decidable f.SumOk := inferInstanceAs (Decidable (_ = _))

end NodeFrame

/-- The sum for the `k`-th of the frames in a buffer, counted from `0`, gives the right verdict:
at the start of the buffer always, further on according to the bytes that `setBuffer` holds
behind the frame. -/
def InPlace (setBuffer : Mem) : ℕ → NodeFrame → Prop
  | 0, _ => True
  | k + 1, f => f.SumOk ↔ f.sum + f.check + 0xFF + (setBuffer.slice 85 (85 * k + 83)).sum =
      setBuffer (85 * k + 168)

/-- A frame is queued exactly when its checksum is right, and as its record. -/
def Judged (c : CommCall) (f : NodeFrame) : Prop :=
  (c.selected = true ↔ f.SumOk) ∧
    (c.selected = true → (selectTag c.setBuffer).dataNum = 34 ∧
      (selectTag c.setBuffer).bytes = f.record)

section
variable {setBuffer before cvalue : Mem} {f : NodeFrame}

/-- The parts of `setBuffer` over which the sum of a frame further on is taken. -/
theorem sum_slice_behind {m : Mem} (h : m.slice 0 85 = f.bytes) (n : ℕ) :
    (m.slice 1 (84 + n)).sum = f.sum + f.check + 0xFF + (m.slice 85 n).sum := by
  have hlen := f.length_bytes
  have hsum : m.slice 1 82 = (f.bytes.drop 1).take 82 := by
    rw [← h, Mem.slice_drop _ 0 (by decide), Mem.slice_take _ _ (by decide)]
  have hcheck : m 83 = f.check := by
    rw [NodeFrame.check, List.getD_eq_getElem _ _ (by omega),
      ← Mem.eq_getElem_of_slice h (by omega)]
  have hlast : m 84 = 0xFF := by
    have := Mem.eq_getElem_of_slice h (show 84 < f.bytes.length by omega)
    rwa [f.getElem_bytes_last] at this
  have htwo : (m.slice 83 2).sum = m 83 + m 84 := by simp [Mem.slice, List.range_succ]
  rw [show 84 + n = 82 + (2 + n) by omega, Mem.slice_add, Mem.slice_add, List.sum_append,
    List.sum_append, hsum, htwo, hcheck, hlast, ← NodeFrame.sum, ← UInt8.add_assoc, ← UInt8.add_assoc]

/-- The verdict on the frame at index `85 * k`, when `before` differs from the first contents of
`setBuffer` in the first frame's room only. -/
theorem judged_iff (k : ℕ) (hm : cvalue.slice (85 * k) 85 = f.bytes)
    (hbefore : ∀ x, 85 ≤ x → before x = setBuffer x) :
    Judged (parser.call cvalue before (parser.copy cvalue ⟨85 * k, 85⟩ before) ⟨85 * k, 85⟩) f ↔
      InPlace setBuffer k f := by
  have hcopy : parser.copy cvalue ⟨85 * k, 85⟩ before =
      before.store 0 f.bytes := by rw [← hm]; rfl
  have hframe : (before.store 0 f.bytes).slice 0 85 = f.bytes := by
    have := before.slice_store 0 f.bytes
    rwa [f.length_bytes] at this
  have hbehind : ∀ x, 85 ≤ x → before.store 0 f.bytes x = setBuffer x := fun x hx => by
    rw [Mem.store_of_le _ (by rw [f.length_bytes]; omega), hbefore x hx]
  rw [hcopy]
  simp only [Judged, parser, beq_iff_eq, Cut.stop, selectTag_eq hframe, and_self, implies_true,
    and_true, getCheckSum]
  cases k with
  | zero =>
      refine iff_of_true ?_ trivial
      have hsum : (before.store 0 f.bytes).slice 1 82 = (f.bytes.drop 1).take 82 := by
        rw [← hframe, Mem.slice_drop _ 0 (by decide), Mem.slice_take _ _ (by decide), hframe]
      have hcheck : before.store 0 f.bytes 83 = f.check := by
        rw [NodeFrame.check, List.getD_eq_getElem _ _ (by rw [f.length_bytes]; decide),
          ← Mem.eq_getElem_of_slice hframe (by rw [f.length_bytes]; decide)]
      change ((before.store 0 f.bytes).slice 1 82).sum = before.store 0 f.bytes 83 ↔ f.SumOk
      rw [hsum, hcheck]
      exact Iff.rfl
  | succ k =>
      rw [show 85 * (k + 1) + 85 - 3 = 84 + (85 * k + 83) by omega,
        show 85 * (k + 1) + 85 - 2 = 85 * k + 168 by omega, sum_slice_behind hframe,
        hbehind _ (by omega), Mem.slice_congr (fun j _ => hbehind (85 + j) (by omega))]
      exact iff_comm

/-- The calls for frames that lie one after the other from index `85 * k` on. -/
theorem forall_judged_iff : ∀ (frames : List NodeFrame) (k : ℕ) (before : Mem),
    cvalue.slice (85 * k) (85 * frames.length) = frames.flatMap NodeFrame.bytes →
    (∀ x, 85 ≤ x → before x = setBuffer x) →
    (List.Forall₂ Judged (parser.callsOf cvalue before
        (tiles (85 * k) ((frames.map NodeFrame.bytes).map List.length))) frames ↔
      ∀ j f, frames[j]? = some f → InPlace setBuffer (k + j) f)
  | [], _, _, _, _ => by simp [tiles, Parser.callsOf]
  | f :: frames, k, before, hm, hbefore => by
      rw [List.length_cons, Nat.mul_succ, Nat.add_comm, Mem.slice_add, List.flatMap_cons] at hm
      obtain ⟨hfirst, hrest⟩ := List.append_inj hm (by simp)
      have hbefore' : ∀ x, 85 ≤ x → parser.copy cvalue ⟨85 * k, 85⟩ before x = setBuffer x :=
        fun x hx => by
          have hcopy : parser.copy cvalue ⟨85 * k, 85⟩ before =
            before.store 0 (cvalue.slice (85 * k) 85) := rfl
          rw [hcopy, Mem.store_of_le _ (by rw [Mem.length_slice]; omega), hbefore x hx]
      have ih := forall_judged_iff frames (k + 1) (parser.copy cvalue ⟨85 * k, 85⟩ before)
        (by rw [Nat.mul_succ]; exact hrest) hbefore'
      rw [Nat.mul_succ] at ih
      simp only [List.map_cons, f.length_bytes, tiles, Parser.callsOf, List.forall₂_cons, ih,
        judged_iff k hfirst hbefore]
      constructor
      · rintro ⟨h0, hall⟩ j g hg
        cases j with
        | zero =>
            obtain rfl := Option.some.inj hg
            exact h0
        | succ j => simpa [Nat.add_assoc, Nat.add_comm 1] using hall j g hg
      · intro hall
        refine ⟨hall 0 f rfl, fun j g hg => ?_⟩
        simpa [Nat.add_assoc, Nat.add_comm 1] using hall (j + 1) g hg

theorem calls_frames {frames : List NodeFrame} (setBuffer : Mem) (remainSize : ℤ)
    (h : cvalue.slice 0 (85 * frames.length) = frames.flatMap NodeFrame.bytes) :
    (parsingReceiveValue setBuffer cvalue (85 * frames.length) remainSize).calls =
      parser.callsOf cvalue setBuffer
        (tiles (85 * 0) ((frames.map NodeFrame.bytes).map List.length)) := by
  have hlen : (stream id (frames.map NodeFrame.bytes)).length = 85 * frames.length := by
    rw [length_stream_of_forall_length id (fun e he => (isNodeFrame_of_mem frames e he).length),
      List.length_map]
  have hstream : cvalue.slice 0 (stream id (frames.map NodeFrame.bytes)).length =
      stream id (frames.map NodeFrame.bytes) := by
    rw [hlen, h, ← RecvLoop.Eager.flatten_eq_stream]
    exact List.flatMap_def ..
  have hscan : Scans (nodeProbe cvalue (85 * frames.length)) (85 * frames.length) 0
      (tiles 0 ((frames.map NodeFrame.bytes).map List.length) ++ []) false :=
    mainLoop_eager.scans_frames _ 0 (isNodeFrame_of_mem frames) hstream (by omega)
      (.done (by omega))
  rw [List.append_nil] at hscan
  unfold parsingReceiveValue
  rw [parser.parsingReceiveValue_eq (mainLoop_eager.advances _ _) hscan]
  rfl

end

/-- **When the valid frames are queued**: of a buffer with any number of frames exactly those
with a right checksum are queued, each as its record, if and only if every sum is in place. -/
theorem selected_iff (setBuffer cvalue : Mem) (frames : List NodeFrame) (remainSize : ℤ)
    (h : cvalue.slice 0 (85 * frames.length) = frames.flatMap NodeFrame.bytes) :
    List.Forall₂ Judged
        (parsingReceiveValue setBuffer cvalue (85 * frames.length) remainSize).calls frames ↔
      ∀ k f, frames[k]? = some f → InPlace setBuffer k f := by
  rw [calls_frames setBuffer remainSize h, forall_judged_iff frames 0 setBuffer h (fun _ _ => rfl)]
  simp only [Nat.zero_add]

/-- A frame of zeros: its sum and its checksum are `0`. -/
def zeroFrame : NodeFrame := ⟨List.replicate 83 0, List.length_replicate⟩

/-- Two frames of zeros in one read. -/
def zeroFrames : Mem := Mem.store (fun _ => 0) 0 (zeroFrame.bytes ++ zeroFrame.bytes)

theorem slice_zeroFrames :
    zeroFrames.slice 0 (85 * 2) = [zeroFrame, zeroFrame].flatMap NodeFrame.bytes :=
  Mem.slice_store (fun _ => 0) 0 (zeroFrame.bytes ++ zeroFrame.bytes)

theorem selected_zeroFrames :
    List.Forall₂ Judged (parsingReceiveValue (fun _ => 0) zeroFrames (85 * 2) 0).calls
        [zeroFrame, zeroFrame] ↔
      ∀ k f, [zeroFrame, zeroFrame][k]? = some f → InPlace (fun _ => 0) k f :=
  selected_iff (fun _ => 0) zeroFrames [zeroFrame, zeroFrame] 0 slice_zeroFrames

/-- The second of two frames of zeros is refused although its checksum is right. -/
theorem selected_wrong : ¬ ∀ (setBuffer cvalue : Mem) (frames : List NodeFrame) (remainSize : ℤ),
    cvalue.slice 0 (85 * frames.length) = frames.flatMap NodeFrame.bytes →
    List.Forall₂ Judged
      (parsingReceiveValue setBuffer cvalue (85 * frames.length) remainSize).calls frames := by
  intro h
  have hall := h (fun _ => 0) zeroFrames [zeroFrame, zeroFrame] 0 slice_zeroFrames
  rw [calls_frames _ _ slice_zeroFrames, forall_judged_iff _ 0 _ slice_zeroFrames
    (fun _ _ => rfl)] at hall
  have hplace := (hall 1 zeroFrame rfl).mp (by decide +kernel)
  revert hplace
  decide +kernel

end IdcuIot.CommManager
