import IdcuIot.Receiver

/-! # Receive loops on framed streams

The parsers of the repository that resume right after each frame (`Eager`) differ in what
starts a frame and where its length is.  `Eager` collects what the argument needs to know
about such a probe: a whole frame is found where it lies, and a frame of which only the
beginning has arrived is either not found or reaches past the bytes received, which the
loop does not survive.

`Eager.lawful` turns this into the exact condition on a read (`InStep`): the read is not
skipped and fits the buffer; it completes a frame, unless nothing was left over or the loop
resets `parsingSize`; and behind the last complete frame the probe passes everywhere. -/

namespace IdcuIot

open Memory Scan Reassembly

/-! ### What a read delivers -/

namespace RecvLoop

variable {κ ε : Type} (L : RecvLoop κ) (event : κ → ε) (ev : Mem → Cut → ε)

/-- What the call for a frame delivers depends on the frame only. -/
def Reports : Prop := ∀ m b c, event (L.call m b (L.copy m c b) c) = ev m c

theorem map_event_callsOf {L : RecvLoop κ} {event : κ → ε} {ev : Mem → Cut → ε}
    (hev : L.Reports event ev) (m : Mem) (cs : List Cut) (b : Mem) :
    (L.callsOf m b cs).map event = cs.map (ev m) :=
  L.map_callsOf (hev m) cs b

theorem length_stream_events {enc : ε → List UInt8} {m : Mem} {cs : List Cut}
    (h : ∀ c ∈ cs, (enc (ev m c)).length = c.size) :
    (stream enc (cs.map (ev m))).length = sumSize cs := by
  induction cs with
  | nil => rfl
  | cons c cs ih =>
      rw [List.map_cons, stream_cons, List.length_append, h c List.mem_cons_self,
        ih (fun c' h' => h c' (List.mem_cons_of_mem c h')), sumSize_cons]

theorem length_stream_of_scans {enc : ε → List UInt8} {m : Mem} {probe : ℕ → Probe} {len i : ℕ}
    {cs : List Cut} {b : Bool} (hs : Scans probe len i cs b)
    (henc : ∀ i size step, probe i = .hit size step → (enc (ev m ⟨i, size⟩)).length = size) :
    (stream enc (cs.map (ev m))).length = sumSize cs := by
  apply length_stream_events ev
  intro c hc
  obtain ⟨-, -, step, hp⟩ := hs.hit_of_mem c hc
  exact henc _ _ _ hp

/-- The frames of one scan and the bytes kept make up at most the bytes in the buffer. -/
theorem grow_of_scans {L : RecvLoop κ} {event : κ → ε} {ev : Mem → Cut → ε}
    {enc : ε → List UInt8} (hev : L.Reports event ev) (adv : ∀ m n, Advances (L.probe m n))
    (henc : ∀ m n i size step, L.probe m n i = .hit size step → (enc (ev m ⟨i, size⟩)).length = size)
    {s s' : RecvState κ} {r : Read} (hinv : L.Inv s) (h : L.receive s r = some s') :
    ∃ new, s'.calls.map event = s.calls.map event ++ new ∧
      (stream enc new).length + (leftover s').length ≤ (leftover s).length + r.data.length := by
  have hadv := adv (buffered s r) (s.receiveSize + r.data.length)
  obtain ⟨cs, b, hs⟩ := exists_scan hadv (s.receiveSize + r.data.length) 0
  rcases L.receive_cases h hadv hs with ⟨-, rfl⟩ | ⟨-, -, -, hcalls, -, hrest⟩
  · exact ⟨[], by simp, by simp⟩
  refine ⟨cs.map (ev (buffered s r)), ?_, ?_⟩
  · rw [hcalls, List.map_append, map_event_callsOf hev]
  rw [length_stream_of_scans ev hs (henc _ _)]
  have hsum := hs.sum_size_le hadv
  simp only [leftover, Mem.length_slice]
  cases b with
  | true =>
      rw [if_pos rfl] at hrest
      rw [show s'.receiveSize = 0 by simpa [leftover] using congrArg List.length hrest]
      have := hs.sumSize_lt_of_halt hadv
      omega
  | false =>
      rw [if_neg Bool.false_ne_true] at hrest
      by_cases hn : cs = []
      · subst hn
        rw [Inv] at hinv
        have h0 : (0 : ℤ) ≤ s.parsingSize := by rw [hinv]; split_ifs <;> omega
        have := hrest.1
        rw [Parser.endOf_nil] at this
        simp only [sumSize_nil]
        omega
      · have := hrest.1
        rw [Parser.endOf_of_ne_nil _ 0 hn] at this
        omega

theorem inv_receive {L : RecvLoop κ} (adv : ∀ m n, Advances (L.probe m n)) {s s' : RecvState κ}
    {r : Read} (hinv : L.Inv s) (h : L.receive s r = some s') : L.Inv s' := by
  have hadv := adv (buffered s r) (s.receiveSize + r.data.length)
  obtain ⟨cs, b, hs⟩ := exists_scan hadv (s.receiveSize + r.data.length) 0
  rcases L.receive_cases h hadv hs with ⟨-, rfl⟩ | ⟨-, -, -, -, hp, -⟩
  · exact hinv
  · exact hp

/-- From the reads `reads` the events `es` come out, each once and in order, none of them before
the bytes that carry it have been read, and nothing is left over. -/
def Delivers (enc : ε → List UInt8) (m : Mem) (reads : List Read) (es : List ε) : Prop :=
  ∃ s, (L.receiver event).run (RecvState.start m) reads = some s ∧ s.calls.map event = es ∧
    leftover s = [] ∧ ∀ pre post, reads = pre ++ post →
      ∀ s', (L.receiver event).run (RecvState.start m) pre = some s' →
        stream enc (s'.calls.map event) <+: pre.flatMap Read.data

/-- Of a lawful loop it is enough that the events come out in order. -/
theorem delivers_iff_run {L : RecvLoop κ} {event : κ → ε} {enc : ε → List UInt8} {valid : ε → Prop}
    {good : RecvState κ → List ε → Read → Prop}
    (hL : Lawful (L.receiver event) enc valid L.Inv good) (m : Mem) {reads : List Read}
    {es : List ε} (h : reads.flatMap Read.data = stream enc es) :
    L.Delivers event enc m reads es ↔
      ∃ s, (L.receiver event).run (RecvState.start m) reads = some s ∧
        (L.receiver event).out s = (L.receiver event).out (RecvState.start m) ++ es := by
  constructor
  · rintro ⟨s, hr, hs, -⟩
    exact ⟨s, hr, hs⟩
  · rintro ⟨s, hr, hs⟩
    refine ⟨s, hr, hs, hL.kept_eq_nil (L.inv_start m) h hr hs, ?_⟩
    intro pre post hpre s' hr'
    rw [hpre, Receiver.run_append, hr', Option.bind_some] at hr
    obtain ⟨new, hnew, hle⟩ := hL.prompt (L.inv_start m) rfl (hpre ▸ h) hr' hr hs
    rwa [show s'.calls.map event = new from hnew]

/-- A read that keeps up with the frames `es`: see the module text. -/
structure InStep (s : RecvState κ) (es : List (List UInt8)) (r : Read) : Prop where
  taken : L.skips s.receiveSize r.data.length = false
  fits : s.receiveSize + r.data.length ≤ L.bufferSize
  completes : L.resets = true ∨ s.receiveSize = 0 ∨
    0 < arrived id es (s.receiveSize + r.data.length)
  clear : ∀ i, settled id es (s.receiveSize + r.data.length) ≤ i →
    i < s.receiveSize + r.data.length →
    L.probe (buffered s r) (s.receiveSize + r.data.length) i = .pass

/-- A loop that hands on each `valid` frame as it lies in the stream and resumes right
behind it. -/
structure Eager (event : κ → List UInt8) (valid : List UInt8 → Prop) : Prop where
  reports : L.Reports event (fun m c => m.slice c.start c.size)
  step_eq : ∀ m n i size step, L.probe m n i = .hit size step → 1 ≤ size ∧ step = size
  no_halt : ∀ m n i, L.probe m n i ≠ .halt
  room : ∀ m n i size step, L.probe m n i = .hit size step → size - L.header ≤ L.room
  whole : ∀ m n i f, valid f → m.slice i f.length = f → i + f.length ≤ n →
    L.probe m n i = .hit f.length f.length
  partly : ∀ m n i f size step, valid f → i < n → n < i + f.length →
    m.slice i (n - i) = f.take (n - i) → L.probe m n i = .hit size step → n < i + size
  ne_nil : ∀ f, valid f → f ≠ []

namespace Eager

variable {L} {event : κ → List UInt8} {valid : List UInt8 → Prop}

theorem advances (E : L.Eager event valid) (m : Mem) (n : ℕ) : Advances (L.probe m n) := by
  intro i size step hp
  obtain ⟨h1, h2⟩ := E.step_eq m n i size step hp
  omega

theorem no_overrun (E : L.Eager event valid) {m : Mem} {n i : ℕ} {cs : List Cut} {b : Bool}
    (hs : Scans (L.probe m n) n i cs b) : L.overruns cs = false := by
  simp only [Parser.overruns, List.any_eq_false, decide_eq_true_eq, Nat.not_lt]
  intro c hc
  obtain ⟨-, -, step, hp⟩ := hs.hit_of_mem c hc
  exact E.room _ _ _ _ _ hp

theorem scans_frames (E : L.Eager event valid) {m : Mem} {n : ℕ} {cs : List Cut} {b : Bool} :
    ∀ (fs : List (List UInt8)) (i : ℕ), (∀ f ∈ fs, valid f) →
      m.slice i (stream id fs).length = stream id fs → i + (stream id fs).length ≤ n →
      Scans (L.probe m n) n (i + (stream id fs).length) cs b →
      Scans (L.probe m n) n i (tiles i (fs.map List.length) ++ cs) b
  | [], i, _, _, _, hs => by simpa [tiles] using hs
  | f :: fs, i, hv, hm, hn, hs => by
      have hvf := hv f List.mem_cons_self
      have hpos : 0 < f.length := List.length_pos_of_ne_nil (E.ne_nil f hvf)
      simp only [stream_cons, id_eq, List.length_append] at hm hn hs
      rw [Mem.slice_add] at hm
      obtain ⟨hm1, hm2⟩ := List.append_inj hm (by simp)
      have hp := E.whole m n i f hvf hm1 (by omega)
      apply Scans.hit (by omega) hp
      refine E.scans_frames fs (i + f.length) (fun g hg => hv g (List.mem_cons_of_mem f hg)) hm2
        (by omega) ?_
      rwa [Nat.add_assoc]

theorem map_slice_tiles {m : Mem} : ∀ (fs : List (List UInt8)) (i : ℕ),
    m.slice i (stream id fs).length = stream id fs →
    (tiles i (fs.map List.length)).map (fun c => m.slice c.start c.size) = fs
  | [], _, _ => rfl
  | f :: fs, i, hm => by
      simp only [stream_cons, id_eq, List.length_append] at hm
      rw [Mem.slice_add] at hm
      obtain ⟨hm1, hm2⟩ := List.append_inj hm (by simp)
      simp only [List.map_cons, tiles, hm1, map_slice_tiles fs (i + f.length) hm2]

theorem slice_buffered_eq_take {s : RecvState κ} {es : List (List UInt8)} {r : Read}
    {rest : List UInt8} (h : leftover s ++ (r.data ++ rest) = stream id es) :
    (buffered s r).slice 0 (s.receiveSize + r.data.length) =
      (stream id es).take (s.receiveSize + r.data.length) := by
  rw [slice_buffered, ← h, ← List.append_assoc]
  exact (List.take_left' (by simp [leftover])).symm

/-- The buffer behind the complete frames holds the bytes of the pending one. -/
theorem slice_pending {s : RecvState κ} {es : List (List UInt8)} {r : Read} {rest : List UInt8}
    (h : leftover s ++ (r.data ++ rest) = stream id es) {n : ℕ}
    (hn : n = s.receiveSize + r.data.length) :
    (buffered s r).slice (settled id es n) (n - settled id es n) = pending id es n := by
  subst hn
  unfold pending
  rw [← slice_buffered_eq_take h, Mem.slice_drop _ 0 (settled_le id es _), Nat.zero_add]

/-- The complete frames at the front of the buffer, and what the scan does behind them. -/
theorem scan_buffered (E : L.Eager event valid) {s : RecvState κ} {es : List (List UInt8)}
    {r : Read} {rest : List UInt8} (hv : ∀ e ∈ es, valid e)
    (h : leftover s ++ (r.data ++ rest) = stream id es) {n : ℕ}
    (hn : n = s.receiveSize + r.data.length) {cs : List Cut} {b : Bool}
    (hs : Scans (L.probe (buffered s r) n) n (settled id es n) cs b) :
    (tiles 0 ((es.take (arrived id es n)).map List.length)).map
        (fun c => (buffered s r).slice c.start c.size) = es.take (arrived id es n) ∧
      Scans (L.probe (buffered s r) n) n 0
        (tiles 0 ((es.take (arrived id es n)).map List.length) ++ cs) b := by
  have hle := settled_le id es n
  have hm : (buffered s r).slice 0 (settled id es n) = stream id (es.take (arrived id es n)) := by
    rw [← Mem.slice_take _ 0 hle, hn, slice_buffered_eq_take h, ← hn, List.take_take,
      Nat.min_eq_left hle, take_settled]
  refine ⟨map_slice_tiles _ 0 hm, ?_⟩
  refine E.scans_frames _ 0 (fun f hf => hv f (List.mem_of_mem_take hf)) hm ?_ ?_
  · rw [Nat.zero_add]
    exact hle
  · rw [Nat.zero_add]
    exact hs

theorem lastStop_frames (fs : List (List UInt8)) :
    lastStop 0 (tiles 0 (fs.map List.length)) = (stream id fs).length := by
  rw [lastStop_tiles, Nat.zero_add]
  induction fs with
  | nil => rfl
  | cons f fs ih => simp [ih]

theorem tiles_eq_nil {fs : List (List UInt8)} (h : tiles 0 (fs.map List.length) = []) : fs = [] := by
  cases fs with
  | nil => rfl
  | cons f fs => cases h

theorem endOf_frames {s : RecvState κ} {es : List (List UInt8)} {n : ℕ} (hinv : L.Inv s)
    (hc : L.resets = true ∨ s.receiveSize = 0 ∨ 0 < arrived id es n) :
    Parser.endOf s.parsingSize (tiles 0 ((es.take (arrived id es n)).map List.length)) =
      (settled id es n : ℤ) := by
  by_cases hnil : tiles 0 ((es.take (arrived id es n)).map List.length) = []
  · have htake := tiles_eq_nil hnil
    rw [hnil, Parser.endOf_nil, settled, htake, hinv]
    rcases hc with hr | hr | hr
    · simp [hr]
    · simp [hr]
    · rcases List.take_eq_nil_iff.mp htake with h0 | h0
      · omega
      · simp [h0, arrived] at hr
  · rw [Parser.endOf_of_ne_nil _ 0 hnil, lastStop_frames, settled]

/-- A read in step hands on the frames that are complete and keeps the one that is pending. -/
theorem receive_inStep (E : L.Eager event valid) {s : RecvState κ} {es : List (List UInt8)}
    {r : Read} {rest : List UInt8} (hinv : L.Inv s) (hv : ∀ e ∈ es, valid e)
    (h : leftover s ++ (r.data ++ rest) = stream id es) (hg : L.InStep s es r) :
    ∃ s', L.receive s r = some s' ∧
      s'.calls.map event =
        s.calls.map event ++ es.take (arrived id es (s.receiveSize + r.data.length)) ∧
      leftover s' = pending id es (s.receiveSize + r.data.length) := by
  obtain ⟨htaken, hfits, hcompl, hclear⟩ := hg
  generalize hn : s.receiveSize + r.data.length = n at htaken hfits hcompl hclear
  have hle := settled_le id es n
  obtain ⟨hframes, hs⟩ := E.scan_buffered hv h hn.symm
    (scans_of_pass (n - settled id es n) (settled id es n) (by omega) hclear)
  have hend := endOf_frames hinv hcompl
  rw [List.append_nil] at hs
  subst hn
  obtain ⟨s', hs', hcalls, hleft⟩ := L.receive_scanned htaken hfits (E.advances _ _) hs
    (E.no_overrun hs) hend hle
  refine ⟨s', hs', ?_, ?_⟩
  · rw [hcalls, List.map_append, map_event_callsOf E.reports, hframes]
  · rw [hleft, ← slice_pending h rfl, slice_buffered_drop s r hle]

theorem progress (E : L.Eager event valid) {s : RecvState κ} {es : List (List UInt8)} {r : Read}
    {rest : List UInt8} (hinv : L.Inv s) (hv : ∀ e ∈ es, valid e)
    (h : leftover s ++ (r.data ++ rest) = stream id es) (hg : L.InStep s es r) :
    ∃ s' new es', L.receive s r = some s' ∧ s'.calls.map event = s.calls.map event ++ new ∧
      es = new ++ es' ∧ leftover s' ++ rest = stream id es' ∧ (rest = [] → es' = []) := by
  obtain ⟨s', hs', hcalls, hleft⟩ := E.receive_inStep hinv hv h hg
  have hlen : (leftover s ++ r.data).length = s.receiveSize + r.data.length := by simp [leftover]
  rw [← List.append_assoc] at h
  refine ⟨s', _, _, hs', hcalls,
    (List.take_append_drop (arrived id es (s.receiveSize + r.data.length)) es).symm, ?_, ?_⟩
  · rw [hleft, ← hlen]
    exact pending_append_rest id h
  · intro hnil
    apply drop_arrived_of_le id
    rw [← h, hnil, List.append_nil, hlen]

theorem stop_le_of_hit (E : L.Eager event valid) {m : Mem} {n i size step : ℕ} {cs : List Cut}
    {b : Bool} (hs : Scans (L.probe m n) n i cs b) (hi : i < n)
    (hp : L.probe m n i = .hit size step) : cs ≠ [] ∧ i + size ≤ lastStop i cs := by
  cases hs with
  | done hi' => omega
  | pass _ hp' | halt _ hp' => rw [hp] at hp'; cases hp'
  | hit _ hp' hs' =>
      rw [hp] at hp'
      cases hp'
      have hsum := (Scans.hit hi hp hs').sum_size_le (E.advances m n)
      simp only [sumSize_cons] at hsum
      exact ⟨List.cons_ne_nil _ _, by omega⟩

/-- A frame of which only the beginning has arrived is not taken for a whole one. -/
theorem lt_stop_of_hit_settled (E : L.Eager event valid) {s : RecvState κ} {es : List (List UInt8)}
    {r : Read} {rest : List UInt8} (hv : ∀ e ∈ es, valid e)
    (h : leftover s ++ (r.data ++ rest) = stream id es) {size step : ℕ}
    (hi : settled id es (s.receiveSize + r.data.length) < s.receiveSize + r.data.length)
    (hp : L.probe (buffered s r) (s.receiveSize + r.data.length)
      (settled id es (s.receiveSize + r.data.length)) = .hit size step) :
    s.receiveSize + r.data.length < settled id es (s.receiveSize + r.data.length) + size := by
  have hbytes : (buffered s r).slice (settled id es (s.receiveSize + r.data.length))
      (s.receiveSize + r.data.length - settled id es (s.receiveSize + r.data.length)) =
      (stream id (es.drop (arrived id es (s.receiveSize + r.data.length)))).take
        (s.receiveSize + r.data.length - settled id es (s.receiveSize + r.data.length)) := by
    rw [← drop_settled, ← List.drop_take, ← slice_buffered_eq_take h,
      Mem.slice_drop _ 0 hi.le, Nat.zero_add]
  cases hd : es.drop (arrived id es (s.receiveSize + r.data.length)) with
  | nil =>
      have := congrArg List.length hbytes
      rw [hd] at this
      simp at this
      omega
  | cons e es' =>
      have hlt := lt_of_drop_arrived id es _ e es' hd
      have hve := hv e (List.mem_of_mem_drop (by rw [hd]; exact List.mem_cons_self))
      rw [hd, stream_cons, List.take_append_of_le_length (by simp only [id_eq] at *; omega)]
        at hbytes
      exact E.partly _ _ _ e _ _ hve hi hlt hbytes hp

theorem loss (E : L.Eager event valid) {s s' : RecvState κ} {es : List (List UInt8)} {r : Read}
    {rest : List UInt8} (hinv : L.Inv s) (hv : ∀ e ∈ es, valid e) (hr : r.data ≠ [])
    (h : leftover s ++ (r.data ++ rest) = stream id es) (hg : ¬ L.InStep s es r)
    (hs' : L.receive s r = some s') {new : List (List UInt8)}
    (hnew : s'.calls.map event = s.calls.map event ++ new) :
    (stream id new).length + (leftover s').length < (leftover s).length + r.data.length := by
  have hpos := List.length_pos_of_ne_nil hr
  generalize hn : s.receiveSize + r.data.length = n at hg
  obtain ⟨cs, htail⟩ :=
    exists_scan_of_ne_halt (E.advances (buffered s r) n) (E.no_halt _ _) n (settled id es n)
  obtain ⟨hframes, hs⟩ := E.scan_buffered hv h hn.symm htail
  subst hn
  rcases L.receive_cases hs' (E.advances _ _) hs with
    ⟨-, rfl⟩ | ⟨htaken, hfits, -, hcalls, -, hrest⟩
  · have hnil : new = [] := List.self_eq_append_right.mp hnew
    simp only [hnil, stream_nil, List.length_nil]
    omega
  rw [if_neg Bool.false_ne_true] at hrest
  rw [hcalls, List.map_append, map_event_callsOf E.reports, List.map_append, hframes] at hnew
  have hnew' := List.append_cancel_left hnew
  have hcut : (stream id (cs.map fun c => (buffered s r).slice c.start c.size)).length =
      sumSize cs :=
    length_stream_events (fun m c => m.slice c.start c.size) (fun c _ => Mem.length_slice _ _ _)
  have hlen : (stream id new).length =
      settled id es (s.receiveSize + r.data.length) + sumSize cs := by
    rw [← hnew', stream_append, List.length_append, hcut, settled]
  simp only [hlen, leftover, Mem.length_slice]
  by_cases hnil : cs = []
  · -- nothing was cut behind the complete frames: the read completed no frame
    subst hnil
    have hstuck : ¬ (L.resets = true ∨ s.receiveSize = 0 ∨
        0 < arrived id es (s.receiveSize + r.data.length)) :=
      fun hc => hg ⟨htaken, hfits, hc, htail.pass_of_nil⟩
    rw [not_or, not_or] at hstuck
    obtain ⟨hres, hsize, harr⟩ := hstuck
    have h0 : arrived id es (s.receiveSize + r.data.length) = 0 := by omega
    have hend := hrest.1
    rw [h0] at hend
    simp only [List.take_zero, List.map_nil, tiles, List.append_nil, Parser.endOf_nil] at hend
    rw [hinv, if_neg (by simpa using hres)] at hend
    simp only [settled, h0, List.take_zero, stream_nil, List.length_nil, sumSize_nil]
    omega
  · have hend := hrest.1
    rw [Parser.endOf_of_ne_nil _ 0 (by simp [hnil]), lastStop_append, lastStop_frames] at hend
    change _ = _ - ((lastStop (settled id es (s.receiveSize + r.data.length)) cs : ℕ) : ℤ) at hend
    cases htail with
    | done => exact absurd rfl hnil
    | pass hi hp htail =>
        have := htail.sum_size_lt (E.advances _ _) hnil
        omega
    | hit hi hp htail =>
        exfalso
        obtain ⟨-, hstop⟩ := E.stop_le_of_hit (Scans.hit hi hp htail) hi hp
        have hbehind := E.lt_stop_of_hit_settled hv h hi hp
        omega

theorem lawful (E : L.Eager event valid) :
    Lawful (L.receiver event) id valid L.Inv (fun s es r => L.InStep s es r) where
  inv_read s r s' hinv h := inv_receive E.advances hinv h
  grow s r s' hinv h := by
    refine grow_of_scans E.reports E.advances ?_ hinv h
    intro m n i size step _
    exact Mem.length_slice _ _ _
  progress s es r rest hinv hv _ h hg := E.progress hinv hv h hg
  loss s es r rest hinv hv hr h hg s' new hs' hnew := Or.inl (E.loss hinv hv hr h hg hs' hnew)

theorem frames_eq_nil (E : L.Eager event valid) {frames : List (List UInt8)} {reads : List Read}
    (hv : ∀ f ∈ frames, valid f) (h : reads.flatMap Read.data = frames.flatten)
    (hnil : reads = []) : frames = [] := by
  subst hnil
  cases frames with
  | nil => rfl
  | cons f fs =>
      exact absurd (List.append_eq_nil_iff.mp h.symm).1 (E.ne_nil f (hv f List.mem_cons_self))

theorem flatten_eq_stream (frames : List (List UInt8)) : frames.flatten = stream id frames := by
  simp [stream]

/-- **The exact condition for a framed stream**: read in pieces by an eager loop, the frames
come out exactly when every read is in step. -/
theorem delivers_iff (E : L.Eager event valid) (m : Mem) (frames : List (List UInt8))
    (reads : List Read) (hv : ∀ f ∈ frames, valid f) (hne : ∀ r ∈ reads, r.data ≠ [])
    (h : reads.flatMap Read.data = frames.flatten) :
    L.Delivers event id m reads frames ↔
      ∀ pre r post, reads = pre ++ r :: post →
        ∀ s, (L.receiver event).run (RecvState.start m) pre = some s →
          L.InStep s (frames.drop s.calls.length) r := by
  have hstream := h.trans (flatten_eq_stream frames)
  have key := E.lawful.delivers_iff reads (RecvState.start m) frames (L.inv_start m) hv hne hstream
    (E.frames_eq_nil hv h)
  rw [delivers_iff_run E.lawful m hstream, key]
  simp [Receiver.EveryRead, receiver, RecvState.start]

/-- The same where being in step is a matter of the place in the stream where a read ends. -/
theorem delivers_iff_of_reach (E : L.Eager event valid) (m : Mem) (frames : List (List UInt8))
    (reads : List Read) (hv : ∀ f ∈ frames, valid f) (hne : ∀ r ∈ reads, r.data ≠ [])
    (h : reads.flatMap Read.data = frames.flatten) (reach : ℕ → Prop)
    (hreach : ∀ pre r post s new es, reads = pre ++ r :: post →
      (L.receiver event).run (RecvState.start m) pre = some s → frames = new ++ es →
      leftover s ++ (r.data ++ post.flatMap Read.data) = stream id es →
      (L.InStep s es r ↔ reach ((stream id new).length + (s.receiveSize + r.data.length)))) :
    L.Delivers event id m reads frames ↔
      ∀ pre r post, reads = pre ++ r :: post →
        reach ((pre ++ [r]).flatMap Read.data).length := by
  have hstream := h.trans (flatten_eq_stream frames)
  rw [delivers_iff_run E.lawful m hstream]
  have key := E.lawful.delivers_iff_of_reach reads (RecvState.start m) frames reach
    (L.inv_start m) hv hne hstream (E.frames_eq_nil hv h) ?_
  · simp only [receiver, leftover_start, List.length_nil, Nat.zero_add] at key
    exact key
  · intro pre r post s new es hpre hr _ hes hk
    have hstep := hreach pre r post s new es hpre hr hes hk
    rwa [show s.receiveSize = (leftover s).length by simp [leftover], ← Nat.add_assoc] at hstep

/-- Where every read is in step, the loop has at each moment handed on the frames that are
complete, and keeps the bytes of the one that is pending. -/
theorem run_pending (E : L.Eager event valid) (m : Mem) {frames : List (List UInt8)}
    {reads : List Read} (hv : ∀ f ∈ frames, valid f)
    (h : reads.flatMap Read.data = frames.flatten)
    (hstep : ∀ pre r post s new es, reads = pre ++ r :: post →
      (L.receiver event).run (RecvState.start m) pre = some s → frames = new ++ es →
      leftover s ++ (r.data ++ post.flatMap Read.data) = stream id es → L.InStep s es r)
    (pre : List Read) : ∀ post, reads = pre ++ post →
      ∃ s, (L.receiver event).run (RecvState.start m) pre = some s ∧ L.Inv s ∧
        s.calls.map event = frames.take (arrived id frames (pre.flatMap Read.data).length) ∧
        leftover s = pending id frames (pre.flatMap Read.data).length := by
  have hstream := h.trans (flatten_eq_stream frames)
  induction pre using List.reverseRecOn with
  | nil =>
      intro post hpost
      have hzero : arrived id frames 0 = 0 := by
        cases frames with
        | nil => rfl
        | cons f fs =>
            have := List.length_pos_of_ne_nil (E.ne_nil f (hv f List.mem_cons_self))
            exact if_neg (by rw [id]; omega)
      exact ⟨_, rfl, L.inv_start m, by simp [RecvState.start, hzero], by simp [pending]⟩
  | append_singleton pre r ih =>
      intro post hpost
      rw [List.append_assoc, List.singleton_append] at hpost
      obtain ⟨s, hr, hinv, hcalls, hleft⟩ := ih (r :: post) hpost
      generalize hn : (pre.flatMap Read.data).length = n at hcalls hleft
      have hk : leftover s ++ (r.data ++ post.flatMap Read.data) =
          stream id (frames.drop (arrived id frames n)) := by
        rw [hleft, ← hn]
        apply pending_append_rest id
        rw [← hstream, hpost, List.flatMap_append, List.flatMap_cons]
      have hes : frames = frames.take (arrived id frames n) ++ frames.drop (arrived id frames n) :=
        (List.take_append_drop _ _).symm
      obtain ⟨s', hs', hcalls', hleft'⟩ := E.receive_inStep hinv
        (fun e he => hv e (List.mem_of_mem_drop he)) hk
        (hstep pre r post s _ _ hpost hr hes hk)
      have hlen : ((pre ++ [r]).flatMap Read.data).length =
          (stream id (frames.take (arrived id frames n))).length +
            (s.receiveSize + r.data.length) := by
        have hsize : s.receiveSize = (pending id frames n).length := by simp [← hleft, leftover]
        have hn' : settled id frames n + (pending id frames n).length = n :=
          settled_add_pending id (by
            rw [← hstream, hpost, List.flatMap_append, List.length_append]
            omega)
        rw [settled, ← hsize] at hn'
        simp only [List.flatMap_append, List.flatMap_singleton, List.length_append, hn]
        omega
      refine ⟨s', ?_, inv_receive E.advances hinv hs', ?_, ?_⟩
      · rw [Receiver.run_append, hr, Option.bind_some, Receiver.run_cons_of_read _ hs',
          Receiver.run_nil]
      · have hnew := take_arrived_append id (frames.take (arrived id frames n))
          (frames.drop (arrived id frames n)) (s.receiveSize + r.data.length)
        rw [List.take_append_drop] at hnew
        rw [hcalls', hcalls, hlen, hnew]
      · have hold := pending_append id (frames.take (arrived id frames n))
          (frames.drop (arrived id frames n)) (s.receiveSize + r.data.length)
        rw [List.take_append_drop] at hold
        rw [hleft', hlen, hold]

end Eager
end RecvLoop
end IdcuIot
