import IdcuIot.Framing

/-! # iDCU_IoT driver: replies of the gateway

`Socket_Manager_iDCU_IoT` reads the replies of IoTManager and `ParsingReceiveValue_iDCU_IoT`
cuts them for `selectTag_iDCU_IoT`.  The parser differs from the others in three ways, so
that the loop is not eager:

* a marker `01 02` whose two length bytes do not agree makes it return `0` at once, and the
  loop then forgets all it has read;
* after a reply the index moves one byte too far, so the reply right behind one that was
  found is not seen at its own start, but every `01 02` inside it is;
* `len` is not looked at, so the two length bytes may be bytes that earlier replies left.

`ReplyStep` is what a read must satisfy for the replies to come out all the same. -/

namespace IdcuIot.Driver

open Memory Scan Reassembly

/-- `BUFFER_SIZE` in `M2MManager.h`, which the driver includes. -/
def bufferSize : ℕ := 1024

/-! ### Replies -/

/-- The replies that IoTManager sends: of `getIOStatus` and of `getCommStatus`. -/
inductive Reply where
  | ioStatus (io : UInt8)
  | commStatus (channel : List UInt8) (whole : channel.length = 32)

namespace Reply

/-- The bytes of a reply on the connection. -/
def bytes : Reply → List UInt8
  | .ioStatus io => [0x01, 0x02, 0x00, 0x00, 0x00, 0x04, 0x01, 0x02, 0x01, io]
  | .commStatus channel _ => [0x01, 0x02, 0x00, 0x00, 0x00, 0x23, 0x01, 0x04, 0x20] ++ channel

/-- The function number of a reply and what follows its header. -/
def event : Reply → UInt8 × List UInt8
  | .ioStatus io => (2, [io])
  | .commStatus channel _ => (4, channel)

end Reply

/-- A reply of function `e.1` that carries the bytes `e.2`. -/
def replyBytes (e : UInt8 × List UInt8) : List UInt8 :=
  [0x01, 0x02, 0x00, 0x00, 0x00, UInt8.ofNat (e.2.length + 3), 0x01, e.1,
    UInt8.ofNat e.2.length] ++ e.2

theorem Reply.replyBytes_event (r : Reply) : replyBytes r.event = r.bytes := by
  cases r with
  | ioStatus io => rfl
  | commStatus channel whole => simp [replyBytes, event, bytes, whole]

/-- What `selectTag_iDCU_IoT` should be called with. -/
def IsEvent (e : UInt8 × List UInt8) : Prop := ∃ r : Reply, r.event = e

@[simp] theorem length_replyBytes (e : UInt8 × List UInt8) :
    (replyBytes e).length = e.2.length + 9 := by simp [replyBytes]

theorem IsEvent.length_le {e : UInt8 × List UInt8} (h : IsEvent e) : e.2.length ≤ 32 := by
  obtain ⟨r, rfl⟩ := h
  cases r with
  | ioStatus io => simp [Reply.event]
  | commStatus channel whole => simp [Reply.event, whole]

/-! ### The parser -/

/-- What the parser looks for. -/
def Marker (cvalue : Mem) (i : ℕ) : Prop := cvalue i = 0x01 ∧ cvalue (i + 1) = 0x02

instance (cvalue : Mem) (i : ℕ) : Decidable (Marker cvalue i) := inferInstanceAs (Decidable (_ ∧ _))

/-- The loop body at index `i`: the length of a reply is there twice, as `tlen` and as the
length of the bytes it carries. -/
def replyProbe (cvalue : Mem) (i : ℕ) : Probe :=
  if Marker cvalue i then
    let tlen := (cvalue (i + 5)).toNat
    if tlen ≠ (cvalue (i + 5 + 3)).toNat + 3 then .halt
    else .hit (tlen + 6) (tlen + 6 + 1)
  else .pass

/-- The call `selectTag_iDCU_IoT( byteBuffer, len, type )`. -/
structure SelectCall where
  byteBuffer : Mem
  len : ℕ
  type : UInt8

/-- The function number and the bytes that a call is about. -/
def SelectCall.event (c : SelectCall) : UInt8 × List UInt8 := (c.type, c.byteBuffer.slice 0 c.len)

/-- The parser of the driver: `byteBuffer` takes the bytes behind the header. -/
def parser : Parser SelectCall where
  probe := fun cvalue _ i => replyProbe cvalue i
  header := 9
  room := 64
  call cvalue _ byteBuffer c := ⟨byteBuffer, c.size - 9, cvalue (c.start + 7)⟩

/-- `ParsingReceiveValue_iDCU_IoT`. -/
def parsingReceiveValue (byteBuffer cvalue : Mem) (len : ℕ) (remainSize : ℤ) : Parsed SelectCall :=
  parser.parsingReceiveValue byteBuffer cvalue len remainSize

/-- The receive loop of `Socket_Manager_iDCU_IoT`. -/
def socketManager : RecvLoop SelectCall :=
  { parser with
    bufferSize := bufferSize
    skips := fun _ readMsgSize => decide (bufferSize ≤ readMsgSize)
    resets := false }

theorem replyProbe_eq_pass {m : Mem} {i : ℕ} : replyProbe m i = .pass ↔ ¬ Marker m i := by
  unfold replyProbe
  split_ifs with h
  · simp only [ne_eq, ite_not, h, not_true_eq_false, iff_false]
    split_ifs <;> simp
  · simp [h]

theorem replyProbe_eq_hit {m : Mem} {i size step : ℕ} :
    replyProbe m i = .hit size step ↔ Marker m i ∧
      (m (i + 5)).toNat = (m (i + 8)).toNat + 3 ∧ size = (m (i + 5)).toNat + 6 ∧
        step = size + 1 := by
  unfold replyProbe
  by_cases h : Marker m i
  · rw [if_pos h]
    by_cases ht : (m (i + 5)).toNat = (m (i + 8)).toNat + 3
    · simp only [ht, ne_eq, not_true_eq_false, if_false, Probe.hit.injEq, h, true_and]
      exact ⟨fun ⟨h1, h2⟩ => ⟨h1.symm, by omega⟩, fun ⟨h1, h2⟩ => ⟨h1.symm, by omega⟩⟩
    · simp [ht]
  · simp [h]

theorem replyProbe_advances (m : Mem) : Advances (replyProbe m) := by
  intro i size step hp
  obtain ⟨-, -, hsize, hstep⟩ := replyProbe_eq_hit.mp hp
  omega

/-- A whole reply is found where it lies, and the index moves on past the byte behind it. -/
theorem replyProbe_of_reply {m : Mem} {i : ℕ} {e : UInt8 × List UInt8} (he : e.2.length ≤ 32)
    (hm : m.slice i (replyBytes e).length = replyBytes e) :
    replyProbe m i = .hit (replyBytes e).length ((replyBytes e).length + 1) := by
  have hlen := length_replyBytes e
  have h5 : (m (i + 5)).toNat = e.2.length + 3 := by
    rw [Mem.eq_getElem_of_slice hm (show 5 < _ by omega)]
    exact UInt8.toNat_ofNat_of_lt' (show e.2.length + 3 < 256 by omega)
  have h8 : (m (i + 8)).toNat = e.2.length := by
    rw [Mem.eq_getElem_of_slice hm (show 8 < _ by omega)]
    exact UInt8.toNat_ofNat_of_lt' (show e.2.length < 256 by omega)
  rw [replyProbe_eq_hit, h5, h8, hlen]
  exact ⟨⟨Mem.eq_getElem_of_slice hm (show 0 < _ by omega),
    Mem.eq_getElem_of_slice hm (show 1 < _ by omega)⟩, rfl, rfl, rfl⟩

/-- The reply that lies in a stretch of the buffer. -/
def eventAt (m : Mem) (c : Cut) : UInt8 × List UInt8 :=
  (m (c.start + 7), m.slice (c.start + 9) (c.size - 9))

theorem socketManager_reports : socketManager.Reports SelectCall.event eventAt := by
  intro m b c
  simp only [SelectCall.event, eventAt, socketManager, parser, Parser.copy]
  rw [Mem.slice_memcpy]

theorem length_replyBytes_eventAt {m : Mem} {i size step : ℕ} (hp : replyProbe m i = .hit size step) :
    (replyBytes (eventAt m ⟨i, size⟩)).length = size := by
  obtain ⟨-, htlen, hsize, -⟩ := replyProbe_eq_hit.mp hp
  rw [length_replyBytes, eventAt, Mem.length_slice]
  change size - 9 + 9 = size
  omega

theorem eventAt_of_reply {m : Mem} {i : ℕ} {e : UInt8 × List UInt8}
    (hm : m.slice i (replyBytes e).length = replyBytes e) :
    eventAt m ⟨i, (replyBytes e).length⟩ = e := by
  have hlen := length_replyBytes e
  have htail := m.slice_drop i (show 9 ≤ (replyBytes e).length by omega)
  rw [hm] at htail
  unfold eventAt
  rw [← htail, Mem.eq_getElem_of_slice hm (show 7 < _ by omega)]
  rfl

/-! ### One read -/

open RecvLoop (leftover buffered)

/-- A read after which the replies `es` can still come out: it fits, and either it is the
first byte of a reply, with no `02` left behind it by earlier reads, or it completes the first
reply, no marker begins behind the byte that follows it, and at the end of the stream no other
reply is left. -/
structure ReplyStep (s : RecvState SelectCall) (es : List (UInt8 × List UInt8)) (r : Read) :
    Prop where
  taken : r.data.length < bufferSize
  fits : s.receiveSize + r.data.length ≤ bufferSize
  whole : (s.receiveSize + r.data.length = 1 ∧ ¬ Marker (buffered s r) 0) ∨
    ∃ e es', es = e :: es' ∧ (replyBytes e).length ≤ s.receiveSize + r.data.length ∧
      (∀ i, (replyBytes e).length < i → i < s.receiveSize + r.data.length →
        ¬ Marker (buffered s r) i) ∧
      (s.receiveSize + r.data.length = (stream replyBytes es).length → es' = [])

section
variable {s : RecvState SelectCall} {r : Read} {rest : List UInt8} {e : UInt8 × List UInt8}
  {es : List (UInt8 × List UInt8)}

/-- The buffer during a read begins with the bytes of the first reply. -/
theorem buffered_byte (h : leftover s ++ (r.data ++ rest) = stream replyBytes (e :: es)) {k : ℕ}
    (hk : k < s.receiveSize + r.data.length) (hk' : k < (replyBytes e).length) :
    buffered s r k = (replyBytes e)[k] := by
  have hlen : k < (leftover s ++ r.data).length := by simpa [leftover] using hk
  have hbyte := Mem.eq_getElem_of_slice (RecvLoop.slice_buffered s r) hlen
  rw [Nat.zero_add] at hbyte
  have hrest : (leftover s ++ r.data)[k]? = (leftover s ++ r.data ++ rest)[k]? :=
    (List.getElem?_append_left hlen).symm
  rw [hbyte, ← Option.some_inj, ← List.getElem?_eq_getElem hlen, ← List.getElem?_eq_getElem hk',
    hrest, List.append_assoc, h, stream_cons, List.getElem?_append_left hk']

theorem slice_buffered_reply (h : leftover s ++ (r.data ++ rest) = stream replyBytes (e :: es))
    (hk : (replyBytes e).length ≤ s.receiveSize + r.data.length) :
    (buffered s r).slice 0 (replyBytes e).length = replyBytes e :=
  (Mem.slice_eq_iff _ _ _ _).mpr ⟨rfl, fun k hk' => by
    rw [Nat.zero_add]
    exact buffered_byte h (by omega) hk'⟩

theorem skips_eq_false (h : r.data.length < bufferSize) :
    socketManager.skips s.receiveSize r.data.length = false := decide_eq_false (by omega)

/-- Without a marker nothing is found, and the bytes are kept. -/
theorem receive_first (hinv : socketManager.Inv s) (hr : r.data ≠ [])
    (htaken : r.data.length < bufferSize) (hfits : s.receiveSize + r.data.length ≤ bufferSize)
    (hone : s.receiveSize + r.data.length = 1) (hm : ¬ Marker (buffered s r) 0) :
    ∃ s', socketManager.receive s r = some s' ∧ s'.calls = s.calls ∧
      leftover s' = leftover s ++ r.data := by
  have hpos := List.length_pos_of_ne_nil hr
  have hscan : Scans (replyProbe (buffered s r)) (s.receiveSize + r.data.length) 0 [] false :=
    .pass (by omega) (replyProbe_eq_pass.mpr hm) (.done (by omega))
  have hparse : s.parsingSize = (0 : ℕ) := by
    rw [hinv, show s.receiveSize = 0 by omega]
    rfl
  obtain ⟨s', hs', hcalls, hleft⟩ := socketManager.receive_scanned (skips_eq_false htaken) hfits
    (replyProbe_advances _) hscan rfl hparse (Nat.zero_le _)
  exact ⟨s', hs', by rw [hcalls]; simp [Parser.callsOf], by rw [hleft, List.drop_zero]⟩

/-- A complete reply with nothing found behind it is handed on, and what lies behind it is kept. -/
theorem receive_whole (he : e.2.length ≤ 32)
    (h : leftover s ++ (r.data ++ rest) = stream replyBytes (e :: es))
    (htaken : r.data.length < bufferSize) (hfits : s.receiveSize + r.data.length ≤ bufferSize)
    (hle : (replyBytes e).length ≤ s.receiveSize + r.data.length)
    (hclear : ∀ i, (replyBytes e).length < i → i < s.receiveSize + r.data.length →
      ¬ Marker (buffered s r) i) :
    ∃ s', socketManager.receive s r = some s' ∧
      s'.calls.map SelectCall.event = s.calls.map SelectCall.event ++ [e] ∧
      leftover s' ++ rest = stream replyBytes es := by
  have hreply := slice_buffered_reply h hle
  have hlen := length_replyBytes e
  have hscan : Scans (replyProbe (buffered s r)) (s.receiveSize + r.data.length) 0
      [⟨0, (replyBytes e).length⟩] false := by
    apply Scans.hit (by omega) (replyProbe_of_reply he hreply)
    refine scans_of_pass (s.receiveSize + r.data.length) _ (by omega) (fun j h1 h2 => ?_)
    exact replyProbe_eq_pass.mpr (hclear j (by omega) h2)
  have hroom : socketManager.overruns [⟨0, (replyBytes e).length⟩] = false := by
    simp only [Parser.overruns, List.any_cons, List.any_nil, Bool.or_false, decide_eq_false_iff_not]
    change ¬ 64 < (replyBytes e).length - 9
    omega
  have hend : Parser.endOf s.parsingSize [⟨0, (replyBytes e).length⟩] =
      ((replyBytes e).length : ℕ) := by simp [Parser.endOf, Cut.stop]
  obtain ⟨s', hs', hcalls, hleft⟩ := socketManager.receive_scanned (skips_eq_false htaken) hfits
    (replyProbe_advances _) hscan hroom hend hle
  refine ⟨s', hs', ?_, ?_⟩
  · rw [hcalls, List.map_append, RecvLoop.map_event_callsOf socketManager_reports, List.map_cons,
      eventAt_of_reply hreply]
    rfl
  · have hlen' : (leftover s ++ r.data).length = s.receiveSize + r.data.length := by
      simp [leftover]
    rw [hleft, ← List.drop_append_of_le_length (by omega), List.append_assoc, h, stream_cons,
      List.drop_left]

theorem progress (hinv : socketManager.Inv s) (hv : ∀ e ∈ es, IsEvent e)
    (h : leftover s ++ (r.data ++ rest) = stream replyBytes es) (hr : r.data ≠ [])
    (hg : ReplyStep s es r) :
    ∃ s' new es', socketManager.receive s r = some s' ∧
      s'.calls.map SelectCall.event = s.calls.map SelectCall.event ++ new ∧
      es = new ++ es' ∧ leftover s' ++ rest = stream replyBytes es' ∧ (rest = [] → es' = []) := by
  obtain ⟨htaken, hfits, hwhole⟩ := hg
  have htotal : s.receiveSize + r.data.length + rest.length = (stream replyBytes es).length := by
    rw [← h]
    simp [leftover, Nat.add_assoc]
  rcases hwhole with ⟨hone, hm⟩ | ⟨e, es', rfl, hle, hclear, hlast⟩
  · obtain ⟨s', hs', hcalls, hleft⟩ := receive_first hinv hr htaken hfits hone hm
    refine ⟨s', [], es, hs', by rw [hcalls, List.append_nil], rfl, ?_, ?_⟩
    · rw [hleft, List.append_assoc, h]
    · -- one byte is not a reply
      rintro rfl
      cases es with
      | nil => rfl
      | cons e es =>
          rw [stream_cons, List.length_append, length_replyBytes, List.length_nil] at htotal
          omega
  · obtain ⟨s', hs', hcalls, hleft⟩ := receive_whole (hv e List.mem_cons_self).length_le h htaken
      hfits hle hclear
    refine ⟨s', [e], es', hs', hcalls, rfl, hleft, ?_⟩
    rintro rfl
    exact hlast (by simpa using htotal)

theorem exists_first (hr : r.data ≠ [])
    (h : leftover s ++ (r.data ++ rest) = stream replyBytes es) : ∃ e es', es = e :: es' := by
  cases es with
  | nil =>
      have := List.append_eq_nil_iff.mp (List.append_eq_nil_iff.mp h).2
      exact absurd this.1 hr
  | cons e es' => exact ⟨e, es', rfl⟩

/-- The marker of the first reply is there, unless only its first byte has arrived. -/
theorem marker_zero (h : leftover s ++ (r.data ++ rest) = stream replyBytes (e :: es))
    (h2 : 2 ≤ s.receiveSize + r.data.length) : Marker (buffered s r) 0 := by
  have hlen := length_replyBytes e
  exact ⟨buffered_byte h (by omega) (by omega), buffered_byte h (by omega) (by omega)⟩

/-- A read without the marker at the start of the buffer is a first byte, and in step. -/
theorem marker_of_not_replyStep (h : leftover s ++ (r.data ++ rest) = stream replyBytes (e :: es))
    (htaken : r.data.length < bufferSize) (hfits : s.receiveSize + r.data.length ≤ bufferSize)
    (hg : ¬ ReplyStep s (e :: es) r) (hr : r.data ≠ []) : Marker (buffered s r) 0 := by
  have hpos := List.length_pos_of_ne_nil hr
  by_contra hm
  refine hg ⟨htaken, hfits, Or.inl ⟨?_, hm⟩⟩
  by_contra hne
  exact hm (marker_zero h (by omega))

/-- When the parser finds something at the start of the buffer and its two length bytes have
arrived, it is the first reply. -/
theorem size_of_hit (he : e.2.length ≤ 32)
    (h : leftover s ++ (r.data ++ rest) = stream replyBytes (e :: es)) {size step : ℕ}
    (hp : replyProbe (buffered s r) 0 = .hit size step)
    (hsize : size ≤ s.receiveSize + r.data.length) : size = (replyBytes e).length := by
  have hlen := length_replyBytes e
  obtain ⟨-, h58, hs, -⟩ := replyProbe_eq_hit.mp hp
  rw [Nat.zero_add] at h58 hs
  have h5 : (buffered s r 5).toNat = e.2.length + 3 := by
    rw [buffered_byte h (show 5 < _ by omega) (by omega)]
    exact UInt8.toNat_ofNat_of_lt' (show e.2.length + 3 < 256 by omega)
  omega

/-- When only the first reply is found, out of step, then there is another one, and it is the last
thing that is read. -/
theorem over_of_one (he : e.2.length ≤ 32)
    (h : leftover s ++ (r.data ++ rest) = stream replyBytes (e :: es))
    (htaken : r.data.length < bufferSize)
    (hfits : s.receiveSize + r.data.length ≤ bufferSize) (hg : ¬ ReplyStep s (e :: es) r)
    {size step : ℕ} (hp : replyProbe (buffered s r) 0 = .hit size step)
    (hsize : size ≤ s.receiveSize + r.data.length)
    (hpass : ∀ i, step ≤ i → i < s.receiveSize + r.data.length → ¬ Marker (buffered s r) i) :
    rest = [] ∧ es ≠ [] := by
  obtain ⟨-, -, -, hstep⟩ := replyProbe_eq_hit.mp hp
  have hfirst := size_of_hit he h hp hsize
  have hend : s.receiveSize + r.data.length = (stream replyBytes (e :: es)).length ∧ es ≠ [] := by
    by_contra hcon
    refine hg ⟨htaken, hfits, Or.inr ⟨e, es, rfl, by omega, ?_, ?_⟩⟩
    · exact fun i h1 h2 => hpass i (by omega) h2
    · intro hall
      by_contra hne
      exact hcon ⟨hall, hne⟩
  refine ⟨?_, hend.2⟩
  have hlen := congrArg List.length h
  simp only [leftover, List.length_append, Mem.length_slice] at hlen
  exact List.length_eq_zero_iff.mp (by omega)

theorem loss {s' : RecvState SelectCall} (hv : ∀ e ∈ es, IsEvent e) (hr : r.data ≠ [])
    (h : leftover s ++ (r.data ++ rest) = stream replyBytes es) (hg : ¬ ReplyStep s es r)
    (hs' : socketManager.receive s r = some s') {new : List (UInt8 × List UInt8)}
    (hnew : s'.calls.map SelectCall.event = s.calls.map SelectCall.event ++ new) :
    (stream replyBytes new).length + (leftover s').length < (leftover s).length + r.data.length ∨
      (rest = [] ∧ new ≠ es) := by
  have hpos := List.length_pos_of_ne_nil hr
  obtain ⟨e, es', rfl⟩ := exists_first hr h
  have he := (hv e List.mem_cons_self).length_le
  have adv := replyProbe_advances (buffered s r)
  obtain ⟨cs, b, hs⟩ := exists_scan adv (s.receiveSize + r.data.length) 0
  rcases socketManager.receive_cases hs' adv hs with ⟨-, rfl⟩ | ⟨htaken, hfits, -, hcalls, -, hrest⟩
  · have hnil : new = [] := List.self_eq_append_right.mp hnew
    simp only [hnil, stream_nil, List.length_nil]
    left
    omega
  have htaken' : r.data.length < bufferSize := by simpa using of_decide_eq_false htaken
  have hmarker := marker_of_not_replyStep h htaken' hfits hg hr
  rw [hcalls, List.map_append, RecvLoop.map_event_callsOf socketManager_reports] at hnew
  have hnew' := List.append_cancel_left hnew
  have hlen : (stream replyBytes new).length = sumSize cs := by
    rw [← hnew']
    exact RecvLoop.length_stream_of_scans _ hs (fun _ _ _ hp => length_replyBytes_eventAt hp)
  have hsum := hs.sum_size_le adv
  simp only [leftover, Mem.length_slice] at hrest ⊢
  rw [hlen]
  cases b with
  | true =>
      left
      rw [if_pos rfl] at hrest
      have hsize : s'.receiveSize = 0 := by simpa using congrArg List.length hrest
      have hhalt := hs.sumSize_lt_of_halt adv
      omega
  | false =>
      rw [if_neg Bool.false_ne_true] at hrest
      have hsize := hrest.1
      cases hs with
      | done hi => omega
      | pass _ hp => exact absurd hmarker (replyProbe_eq_pass.mp hp)
      | @hit _ size step cs' _ hi hp htail =>
          obtain ⟨-, -, -, hstep⟩ := replyProbe_eq_hit.mp hp
          rw [Parser.endOf_of_ne_nil _ 0 (List.cons_ne_nil _ _), lastStop_cons] at hsize
          by_cases hn : cs' = []
          · right
            subst hn
            simp only [lastStop_nil, Cut.stop, Nat.zero_add] at hsize
            obtain ⟨hover, hmore⟩ := over_of_one he h htaken' hfits hg hp (by omega)
              (fun i h1 h2 => replyProbe_eq_pass.mp (htail.pass_of_nil i (by omega) h2))
            refine ⟨hover, fun heq => hmore ?_⟩
            have hone := congrArg List.length (hnew'.trans heq)
            simp only [List.map_cons, List.map_nil, List.length_cons, List.length_nil] at hone
            exact List.length_eq_zero_iff.mp (by omega)
          · -- the byte behind the first reply is never looked at
            left
            have hskip := htail.sum_size_le adv
            rw [lastStop_of_ne_nil _ (Cut.stop ⟨0, size⟩) hn] at hskip
            simp only [sumSize_cons]
            omega

end

theorem lawful : Lawful (socketManager.receiver SelectCall.event) replyBytes IsEvent
    socketManager.Inv ReplyStep where
  inv_read _ _ _ hinv h := RecvLoop.inv_receive (fun m _ => replyProbe_advances m) hinv h
  grow _ _ _ hinv h := RecvLoop.grow_of_scans socketManager_reports
    (fun m _ => replyProbe_advances m) (fun _ _ _ _ _ hp => length_replyBytes_eventAt hp) hinv h
  progress _ _ _ _ hinv hv hr h hg := progress hinv hv h hr hg
  loss _ _ _ _ _ hv hr h hg _ _ hs' hnew := loss hv hr h hg hs' hnew

theorem stream_event (replies : List Reply) :
    stream replyBytes (replies.map Reply.event) = replies.flatMap Reply.bytes := by
  induction replies with
  | nil => rfl
  | cons r rs ih => rw [List.map_cons, stream_cons, ih, r.replyBytes_event, List.flatMap_cons]

/-- **When the replies come out whole**: `selectTag_iDCU_IoT` is called for the replies sent,
each once and in order, exactly when every read is such that they still can. -/
theorem socketManager_replies_iff (receiveBuffer : Mem) (replies : List Reply) (reads : List Read)
    (hne : ∀ r ∈ reads, r.data ≠ [])
    (h : reads.flatMap Read.data = replies.flatMap Reply.bytes) :
    socketManager.Delivers SelectCall.event replyBytes receiveBuffer reads
        (replies.map Reply.event) ↔
      ∀ pre r post, reads = pre ++ r :: post → ∀ s,
        (socketManager.receiver SelectCall.event).run (RecvState.start receiveBuffer) pre = some s →
          ReplyStep s ((replies.map Reply.event).drop s.calls.length) r := by
  have hstream := h.trans (stream_event replies).symm
  have hv : ∀ e ∈ replies.map Reply.event, IsEvent e := by
    intro e he
    obtain ⟨r, -, rfl⟩ := List.mem_map.mp he
    exact ⟨r, rfl⟩
  have hnil : reads = [] → replies.map Reply.event = [] := by
    rintro rfl
    cases replies with
    | nil => rfl
    | cons r rs => cases r <;> simp [Reply.bytes] at h
  have key := lawful.delivers_iff reads (RecvState.start receiveBuffer) (replies.map Reply.event)
    (socketManager.inv_start receiveBuffer) hv hne hstream hnil
  rw [RecvLoop.delivers_iff_run lawful receiveBuffer hstream, key]
  simp [Receiver.EveryRead, RecvLoop.receiver, RecvState.start]

/-- Two replies of function 2 in one read. -/
def coalesced : List Read := [⟨(Reply.ioStatus 2).bytes ++ (Reply.ioStatus 0).bytes, fun _ => 0⟩]

theorem socketManager_replies_coalesced :
    socketManager.Delivers SelectCall.event replyBytes (fun _ => 0) coalesced
        ([.ioStatus 2, .ioStatus 0].map Reply.event) ↔
      ∀ pre r post, coalesced = pre ++ r :: post → ∀ s,
        (socketManager.receiver SelectCall.event).run (RecvState.start fun _ => 0) pre = some s →
          ReplyStep s (([.ioStatus 2, .ioStatus 0].map Reply.event).drop s.calls.length) r :=
  socketManager_replies_iff (fun _ => 0) [.ioStatus 2, .ioStatus 0] coalesced (by decide)
    (by decide)

/-- The second of two replies in one read is lost. -/
theorem socketManager_replies_lost : ¬ ∀ (receiveBuffer : Mem) (replies : List Reply)
    (reads : List Read), (∀ r ∈ reads, r.data ≠ [] ∧ r.data.length < bufferSize) →
    reads.flatMap Read.data = replies.flatMap Reply.bytes →
    socketManager.Delivers SelectCall.event replyBytes receiveBuffer reads
      (replies.map Reply.event) := by
  intro h
  obtain ⟨s, hr, hs, -⟩ := h (fun _ => 0) [.ioStatus 2, .ioStatus 0] coalesced (by decide) (by decide)
  have hcut : ((socketManager.receiver SelectCall.event).run (RecvState.start fun _ => 0)
      coalesced).map (fun s => s.calls.map SelectCall.event) = some [(2, [2])] := by decide
  rw [hr, Option.map_some, hs] at hcut
  revert hcut
  decide

end IdcuIot.Driver
