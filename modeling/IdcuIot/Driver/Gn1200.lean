import IdcuIot.Driver.IdcuReceive

/-! # GN1200 driver: Modbus replies

The driver of the GN1200 thermometer asks every now and then for four registers and reads replies of
13 bytes: `01 03 08`, eight data bytes and a CRC.  Its parser has no notion of a reply that is not
yet complete:

* the CRC is computed over 11 bytes from the marker on, received or not; when it is wrong, all bytes
  are dropped;
* when the end of the buffer is reached and no reply ends there, all bytes are dropped, too;
* behind a reply the index moves one byte too far, so that the reply right behind one that was found
  is not seen.

So a read can hand on one reply and keep one byte, and in every other case bytes are lost
(`Parses.lost`).  `delivers_iff_inStep` draws the conclusion for whole runs. -/

namespace IdcuIot.Driver.Gn1200

open Memory Reassembly History

/-! ### Replies -/

/-- One round of the inner loop of `CRC16`. -/
def crcBit (crc : UInt16) : UInt16 :=
  if crc &&& 0x0001 ≠ 0 then (crc >>> 1) ^^^ 0xA001 else crc >>> 1

/-- `CRC16`. -/
def crc16 (puchMsg : List UInt8) : UInt16 :=
  puchMsg.foldl (fun crc b => crcBit^[8] (crc ^^^ b.toUInt16)) 0xffff

/-- `u8Crc16`: low byte and high byte.  The array is declared without elements; the two bytes are
taken to overlap nothing else. -/
def u8Crc16 (crc : UInt16) : UInt8 × UInt8 :=
  (((crc >>> 0) &&& 0x00ff).toUInt8, ((crc >>> 8) &&& 0x00ff).toUInt8)

/-- A reply to the request for four registers. -/
structure Reply where
  data : List UInt8
  whole : data.length = 8

/-- What the CRC of a reply is computed from. -/
def Reply.body (r : Reply) : List UInt8 := [0x01, 0x03, 0x08] ++ r.data

/-- The bytes of a reply on the connection. -/
def Reply.bytes (r : Reply) : List UInt8 :=
  r.body ++ [(u8Crc16 (crc16 r.body)).1, (u8Crc16 (crc16 r.body)).2]

@[simp] theorem Reply.length_bytes (r : Reply) : r.bytes.length = 13 := by
  simp [bytes, body, r.whole]

/-- The register that the driver is interested in: bytes 5 and 6 of the reply. -/
def Reply.register (r : Reply) : List UInt8 := (r.bytes.drop 5).take 2

/-! ### The parser -/

/-- What the parser looks for. -/
def Marker (cvalue : Mem) (i : ℕ) : Prop :=
  cvalue i = 0x01 ∧ cvalue (i + 1) = 0x03 ∧ cvalue (i + 2) = 0x08

instance (cvalue : Mem) (i : ℕ) : Decidable (Marker cvalue i) := inferInstanceAs (Decidable (_ ∧ _))

/-- The CRC over `3 + tlen` bytes, compared with two bytes at a fixed place. -/
def CrcOk (cvalue : Mem) (i : ℕ) : Prop :=
  let tlen := (cvalue (i + 2)).toNat
  let crc := u8Crc16 (crc16 (cvalue.slice i (3 + tlen)))
  cvalue (i + 3 + 8 + 0) = crc.1 ∧ cvalue (i + 3 + 8 + 1) = crc.2

instance (cvalue : Mem) (i : ℕ) : Decidable (CrcOk cvalue i) := inferInstanceAs (Decidable (_ ∧ _))

/-- Locals of the parser, and its calls of `selectTag`. -/
structure ParseState where
  byteBuffer : Mem
  remainSize : ℤ
  calls : List SelectCall

/-- A reply at index `i`, with `tlen` equal to 8: `selectTag( byteBuffer, 2, 0 )`. -/
def ParseState.found (cvalue : Mem) (i : ℕ) (s : ParseState) : ParseState :=
  let byteBuffer := s.byteBuffer.memcpy 0 cvalue (i + 5) 2
  { byteBuffer := byteBuffer
    remainSize := (i + (cvalue (i + 2)).toNat + 5 : ℕ)
    calls := s.calls ++ [⟨byteBuffer, 2, 0⟩] }

/-- The loop over `cvalue` from index `i` on. -/
def scan (cvalue : Mem) (len : ℕ) : ℕ → ℕ → ParseState → ParseState
  | 0, _, s => s
  | fuel + 1, i, s =>
      if i < len then
        if Marker cvalue i then
          if CrcOk cvalue i then
            scan cvalue len fuel (i + (cvalue (i + 2)).toNat + 5 + 1) (s.found cvalue i)
          -- `i = len-1` ends the loop
          else { s with remainSize := len }
        else if i + 1 = len then { s with remainSize := len }
        else scan cvalue len fuel (i + 1) s
      else s

/-- `ParsingReceiveValue`. -/
def parsingReceiveValue (byteBuffer cvalue : Mem) (len : ℕ) (remainSize : ℤ) : Parsed SelectCall :=
  let s := scan cvalue len len 0 ⟨byteBuffer, remainSize, []⟩
  ⟨s.calls, len - s.remainSize, cvalue.slice s.remainSize.toNat (len - s.remainSize).toNat, false⟩

/-- The body of `Socket_Manager` for what `recv` delivers.  `none` where C leaves the behaviour
undefined: a copy past the end of `receiveBuffer`, or of a length that is not between `0` and
`len`. -/
def receive (s : RecvState SelectCall) (r : Read) : Option (RecvState SelectCall) :=
  if bufferSize ≤ r.data.length then some s
  else if bufferSize < s.receiveSize + r.data.length then none
  else
    let receiveBuffer := s.receiveBuffer.store s.receiveSize r.data
    let receiveSize := s.receiveSize + r.data.length
    let p := parsingReceiveValue r.setBuffer receiveBuffer receiveSize s.parsingSize
    if 0 ≤ p.remainSize ∧ p.remainSize ≤ receiveSize then
      some
        { receiveBuffer := (receiveBuffer.clear 0 4).store 0 p.remainder
          receiveSize := p.remainSize.toNat
          parsingSize := p.remainSize
          calls := s.calls ++ p.calls }
    else none

/-- The bytes that a call of `selectTag` is about. -/
def register (c : SelectCall) : List UInt8 := c.byteBuffer.slice 0 c.len

/-- `Socket_Manager` as a receiver of a byte stream that delivers registers. -/
def socketManager : Receiver (RecvState SelectCall) Read UInt8 (List UInt8) where
  read := receive
  data := Read.data
  kept := RecvLoop.leftover
  out s := s.calls.map register

/-- From the reads come the registers of the replies, each once and in order, none of them before all
bytes of its reply have been read.  In a run that is defined every remainder lies in the bytes
received. -/
def Delivers (receiveBuffer : Mem) (reads : List Read) (replies : List Reply) : Prop :=
  ∃ s, socketManager.run (.start receiveBuffer) reads = some s ∧
    s.calls.map register = replies.map Reply.register ∧
    ∀ pre post, reads = pre ++ post → ∀ s', socketManager.run (.start receiveBuffer) pre = some s' →
      13 * s'.calls.length ≤ (socketManager.received pre).length

/-! ### The parser as a relation -/

/-- From index `i`, with `r` in `remainSize`, the parser finds `k` replies and leaves `e` there. -/
inductive Parses (m : Mem) (len : ℕ) : ℕ → ℤ → ℕ → ℤ → Prop
  | done {i : ℕ} {r : ℤ} : len ≤ i → Parses m len i r 0 r
  | found {i k : ℕ} {r e : ℤ} : i < len → Marker m i → CrcOk m i →
      Parses m len (i + 14) (i + 13 : ℕ) k e → Parses m len i r (k + 1) e
  | wrong {i : ℕ} {r : ℤ} : i < len → Marker m i → ¬ CrcOk m i → Parses m len i r 0 len
  | last {i : ℕ} {r : ℤ} : i + 1 = len → ¬ Marker m i → Parses m len i r 0 len
  | pass {i k : ℕ} {r e : ℤ} : i + 1 < len → ¬ Marker m i → Parses m len (i + 1) r k e →
      Parses m len i r k e

section
variable {m : Mem} {len i k : ℕ} {r e : ℤ}

theorem Marker.tlen (h : Marker m i) : (m (i + 2)).toNat = 8 := by
  rw [h.2.2]
  rfl

theorem exists_parses (m : Mem) (len : ℕ) : ∀ (fuel i : ℕ) (s : ParseState), len ≤ i + fuel →
    ∃ k e, Parses m len i s.remainSize k e ∧ (scan m len fuel i s).remainSize = e ∧
      (scan m len fuel i s).calls.length = s.calls.length + k
  | 0, i, s, hf => ⟨0, _, .done hf, rfl, rfl⟩
  | fuel + 1, i, s, hf => by
      unfold scan
      by_cases hlt : i < len
      · rw [if_pos hlt]
        by_cases hm : Marker m i
        · rw [if_pos hm]
          by_cases hcrc : CrcOk m i
          · rw [if_pos hcrc, hm.tlen]
            obtain ⟨k, e, hp, hsize, hcalls⟩ :=
              exists_parses m len fuel (i + 8 + 5 + 1) (s.found m i) (by omega)
            have hr : (s.found m i).remainSize = (i + 13 : ℕ) := by
              unfold ParseState.found
              dsimp only
              rw [hm.tlen]
            rw [hr] at hp
            refine ⟨k + 1, e, .found hlt hm hcrc hp, hsize, ?_⟩
            rw [hcalls]
            simp only [ParseState.found, List.length_append, List.length_singleton]
            omega
          · rw [if_neg hcrc]
            exact ⟨0, _, .wrong hlt hm hcrc, rfl, rfl⟩
        · rw [if_neg hm]
          by_cases hlast : i + 1 = len
          · rw [if_pos hlast]
            exact ⟨0, _, .last hlast hm, rfl, rfl⟩
          · rw [if_neg hlast]
            obtain ⟨k, e, hp, hrest⟩ := exists_parses m len fuel (i + 1) s (by omega)
            exact ⟨k, e, .pass (by omega) hm hp, hrest⟩
      · rw [if_neg hlt]
        exact ⟨0, _, .done (Nat.not_lt.mp hlt), rfl, rfl⟩

/-- Either the scan is over, or everything is dropped in sight of further bytes, or it ends at a
reply; and each reply takes 14 bytes. -/
theorem Parses.bounds (h : Parses m len i r k e) :
    (k = 0 ∧ len ≤ i ∧ e = r) ∨ (i + 14 * k < len ∧ e = len) ∨
      (0 < k ∧ (i + 14 * k : ℕ) ≤ e + 1 ∧ len ≤ e + 1) := by
  induction h with
  | done hle => exact Or.inl ⟨rfl, hle, rfl⟩
  | found hlt hm hcrc hp ih => omega
  | wrong hlt => exact Or.inr (Or.inl ⟨by omega, rfl⟩)
  | last hlast => exact Or.inr (Or.inl ⟨by omega, rfl⟩)
  | pass hlt hm hp ih => omega

/-- **What a call of the parser loses**: the replies found and the bytes kept account for all bytes
received only if these are one reply, or one reply and a byte. -/
theorem Parses.lost (h : Parses m len 0 r k e) (hlen : 0 < len) (he : e ≤ len) :
    13 * k ≤ e ∧ (13 * k = e → k = 1 ∧ (len = 13 ∨ len = 14)) := by
  have := h.bounds
  omega

end

/-! ### A reply at the front -/

section
variable {m : Mem} {len : ℕ} {reply : Reply}

theorem marker_crcOk (h : m.slice 0 13 = reply.bytes) : Marker m 0 ∧ CrcOk m 0 := by
  have hbyte : ∀ {k : ℕ} (hk : k < reply.bytes.length), m k = reply.bytes[k] := by
    intro k hk
    have := Mem.eq_getElem_of_slice h hk
    rwa [Nat.zero_add] at this
  have hbody : m.slice 0 11 = reply.body := by
    rw [← m.slice_take 0 (show 11 ≤ 13 by omega), h, Reply.bytes,
      List.take_left' (by simp [Reply.body, reply.whole])]
  have hmarker : Marker m 0 := by
    refine ⟨?_, ?_, ?_⟩
    · exact hbyte (k := 0) (by simp)
    · exact hbyte (k := 1) (by simp)
    · exact hbyte (k := 2) (by simp)
  refine ⟨hmarker, ?_⟩
  unfold CrcOk
  rw [hmarker.tlen]
  dsimp only
  rw [hbody]
  constructor
  · rw [hbyte (k := 11) (by simp)]
    simp [Reply.bytes, Reply.body, reply.whole]
  · rw [hbyte (k := 12) (by simp)]
    simp [Reply.bytes, Reply.body, reply.whole]

theorem scan_reply (h : m.slice 0 13 = reply.bytes) (hlen : len = 13 ∨ len = 14) (s : ParseState) :
    scan m len len 0 s = s.found m 0 ∧ (s.found m 0).remainSize = 13 ∧
      (s.found m 0).calls.map register = s.calls.map register ++ [reply.register] := by
  obtain ⟨hmarker, hcrc⟩ := marker_crcOk h
  refine ⟨?_, ?_, ?_⟩
  · obtain ⟨fuel, hfuel⟩ := Nat.exists_eq_succ_of_ne_zero (show len ≠ 0 by omega)
    conv_lhs => rw [show scan m len len = scan m len (fuel + 1) by rw [hfuel]]
    rw [scan, if_pos (by omega), if_pos hmarker, if_pos hcrc, hmarker.tlen]
    cases fuel with
    | zero => rfl
    | succ fuel =>
        rw [scan, if_neg (by omega)]
  · unfold ParseState.found
    rw [hmarker.tlen]
    rfl
  · simp only [ParseState.found, List.map_append, List.map_cons, List.map_nil, register]
    rw [Mem.slice_memcpy, Reply.register, ← h, Mem.slice_drop _ 0 (by omega),
      Mem.slice_take _ _ (by omega)]

end

/-! ### One read -/

open RecvLoop (leftover buffered)

section
variable {s s' : RecvState SelectCall} {r : Read}

/-- A read accounts for all its bytes only if it completes one reply and brings one byte more at
most. -/
theorem receive_lost (hr : r.data ≠ []) (hlt : r.data.length < bufferSize)
    (h : receive s r = some s') : ∃ new, s'.calls = s.calls ++ new ∧
      13 * new.length + s'.receiveSize ≤ s.receiveSize + r.data.length ∧
      (13 * new.length + s'.receiveSize = s.receiveSize + r.data.length →
        new.length = 1 ∧
          (s.receiveSize + r.data.length = 13 ∨ s.receiveSize + r.data.length = 14)) := by
  have hpos := List.length_pos_of_ne_nil hr
  obtain ⟨k, e, hp, hsize, hcalls⟩ := exists_parses (buffered s r)
    (s.receiveSize + r.data.length) (s.receiveSize + r.data.length) 0
    ⟨r.setBuffer, s.parsingSize, []⟩ (by omega)
  unfold receive at h
  rw [if_neg (Nat.not_le.mpr hlt),
    show s.receiveBuffer.store s.receiveSize r.data = buffered s r from rfl] at h
  unfold parsingReceiveValue at h
  dsimp only at h
  rw [hsize] at h
  split_ifs at h with hover hbounds
  cases h
  have hlost := hp.lost (by omega) (by omega)
  rw [List.length_nil, Nat.zero_add] at hcalls
  refine ⟨_, rfl, ?_⟩
  rw [hcalls]
  dsimp only
  omega

/-- One reply, or one reply and a byte: the reply is handed on and the byte is kept. -/
theorem receive_reply {reply : Reply} {b : List UInt8} (hb : b.length ≤ 1)
    (h : leftover s ++ r.data = reply.bytes ++ b) (hlt : r.data.length < bufferSize) :
    ∃ s', receive s r = some s' ∧
      s'.calls.map register = s.calls.map register ++ [reply.register] ∧ leftover s' = b := by
  have hlen := congrArg List.length h
  simp only [leftover, List.length_append, Mem.length_slice, Reply.length_bytes] at hlen
  set len := s.receiveSize + r.data.length with hlendef
  have hslice : (buffered s r).slice 0 len = reply.bytes ++ b := by
    rw [RecvLoop.slice_buffered, h]
  have hreply : (buffered s r).slice 0 13 = reply.bytes := by
    rw [← (buffered s r).slice_take 0 (show 13 ≤ len by omega), hslice,
      List.take_left' reply.length_bytes]
  obtain ⟨hscan, hremain, hcalls⟩ :=
    scan_reply hreply (show len = 13 ∨ len = 14 by omega) ⟨r.setBuffer, s.parsingSize, []⟩
  unfold receive
  rw [if_neg (Nat.not_le.mpr hlt), if_neg (by unfold bufferSize at hlt ⊢; omega),
    show s.receiveBuffer.store s.receiveSize r.data = buffered s r from rfl]
  unfold parsingReceiveValue
  dsimp only
  rw [← hlendef, hscan, hremain, if_pos (by omega)]
  refine ⟨_, rfl, ?_, ?_⟩
  · rw [List.map_append, hcalls]
    rfl
  · have hdrop := (buffered s r).slice_drop 0 (show 13 ≤ len by omega)
    rw [hslice, List.drop_left' reply.length_bytes] at hdrop
    rw [hdrop]
    have hstore := ((buffered s r).clear 0 4).slice_store 0 ((buffered s r).slice (0 + 13) (len - 13))
    rw [Mem.length_slice] at hstore
    unfold leftover
    dsimp only
    rw [show ((len : ℤ) - 13).toNat = len - 13 by omega]
    exact hstore

end

/-! ### Runs -/

/-- What `recv` delivers: some bytes, and fewer than would make the loop skip the read. -/
def Taken (r : Read) : Prop := r.data ≠ [] ∧ r.data.length < bufferSize

instance (r : Read) : Decidable (Taken r) := inferInstanceAs (Decidable (_ ∧ _))

/-- Every read completes one reply, the next one, and brings one byte more at most. -/
def InStep (received : ℕ) (reads : List Read) : Prop :=
  ∀ pre r post, reads = pre ++ r :: post →
    received + (socketManager.received (pre ++ [r])).length = 13 * (pre.length + 1) ∨
      received + (socketManager.received (pre ++ [r])).length = 13 * (pre.length + 1) + 1

theorem inStep_cons {n : ℕ} {r : Read} {reads : List Read} (hr : 13 ≤ n + r.data.length) :
    InStep n (r :: reads) ↔ (n + r.data.length = 13 ∨ n + r.data.length = 14) ∧
      InStep (n + r.data.length - 13) reads := by
  have hdata : (socketManager.received [r]).length = r.data.length := by
    simp [Receiver.received, socketManager]
  have hplace : ∀ pre r', n + (socketManager.received (r :: pre ++ [r'])).length =
      13 + (n + r.data.length - 13 + (socketManager.received (pre ++ [r'])).length) := by
    intro pre r'
    rw [List.cons_append, Receiver.received_cons, List.length_append]
    change n + (r.data.length + _) = _
    omega
  unfold InStep
  simp only [forall_split_cons, List.nil_append, hdata, hplace, List.length_nil, List.length_cons]
  apply and_congr (by omega)
  refine forall₄_congr (fun pre r' post _ => ?_)
  omega

/-- Over a run the replies found and the byte kept never exceed the bytes received, and fall short of
them when a read is out of step. -/
theorem run_lost : ∀ {reads : List Read} {s s' : RecvState SelectCall}, (∀ r ∈ reads, Taken r) →
    socketManager.run s reads = some s' → ∃ new, s'.calls = s.calls ++ new ∧
      13 * new.length + s'.receiveSize ≤ s.receiveSize + (socketManager.received reads).length ∧
      (13 * new.length + s'.receiveSize = s.receiveSize + (socketManager.received reads).length →
        InStep s.receiveSize reads)
  | [], s, s', _, h => by
      cases Option.some.inj h
      exact ⟨[], (List.append_nil _).symm, by simp, fun _ => forall_split_nil⟩
  | r :: reads, s, s', htaken, h => by
      rw [Receiver.run_cons] at h
      obtain ⟨s₁, h₁, h₂⟩ := Option.bind_eq_some_iff.mp h
      obtain ⟨hr, hlt⟩ := htaken r List.mem_cons_self
      obtain ⟨new₁, hcalls₁, hle₁, heq₁⟩ := receive_lost hr hlt h₁
      obtain ⟨new₂, hcalls₂, hle₂, heq₂⟩ :=
        run_lost (fun r' h' => htaken r' (List.mem_cons_of_mem r h')) h₂
      refine ⟨new₁ ++ new₂, by rw [hcalls₂, hcalls₁, List.append_assoc], ?_⟩
      rw [Receiver.received_cons, List.length_append, List.length_append]
      change 13 * _ + _ ≤ _ + (r.data.length + _) ∧ (13 * _ + _ = _ + (r.data.length + _) → _)
      refine ⟨by omega, fun heq => ?_⟩
      have hfirst := heq₁ (by omega)
      have hrest := heq₂ (by omega)
      rw [inStep_cons (by omega)]
      refine ⟨by omega, ?_⟩
      rwa [show s.receiveSize + r.data.length - 13 = s₁.receiveSize by omega]

theorem run_of_inStep : ∀ {reads : List Read} {s : RecvState SelectCall} {replies : List Reply},
    (∀ r ∈ reads, Taken r) → s.receiveSize ≤ 1 →
    leftover s ++ socketManager.received reads = replies.flatMap Reply.bytes →
    InStep s.receiveSize reads → ∃ s', socketManager.run s reads = some s' ∧
      s'.calls.map register = s.calls.map register ++ replies.map Reply.register
  | [], s, replies, _, hone, h, _ => by
      have hlen := congrArg List.length h
      cases replies with
      | nil => exact ⟨s, rfl, (List.append_nil _).symm⟩
      | cons reply replies =>
          rw [List.flatMap_cons, List.length_append, List.length_append, reply.length_bytes] at hlen
          simp only [leftover, Mem.length_slice, Receiver.received_nil, List.length_nil] at hlen
          omega
  | r :: reads, s, replies, htaken, hone, h, hstep => by
      obtain ⟨hr, hlt⟩ := htaken r List.mem_cons_self
      have hfirst := hstep [] r reads rfl
      rw [List.nil_append, Receiver.received_cons, Receiver.received_nil, List.append_nil,
        List.length_nil] at hfirst
      change s.receiveSize + r.data.length = _ ∨ s.receiveSize + r.data.length = _ at hfirst
      rw [Receiver.received_cons] at h
      change leftover s ++ (r.data ++ _) = _ at h
      have hlen : (leftover s ++ r.data).length = s.receiveSize + r.data.length := by
        simp [leftover]
      cases replies with
      | nil =>
          have := List.append_eq_nil_iff.mp (List.append_eq_nil_iff.mp h).2
          exact absurd this.1 hr
      | cons reply replies =>
          rw [← List.append_assoc, List.flatMap_cons] at h
          -- what is in the buffer is the reply and a byte at most
          obtain ⟨b, hdata⟩ : reply.bytes <+: leftover s ++ r.data := by
            refine List.prefix_of_prefix_length_le (h ▸ List.prefix_append _ _)
              (List.prefix_append _ (socketManager.received reads)) ?_
            rw [reply.length_bytes]
            omega
          have hb : b.length = s.receiveSize + r.data.length - 13 := by
            rw [← hlen, ← hdata, List.length_append, reply.length_bytes, Nat.add_sub_cancel_left]
          rw [← hdata, List.append_assoc, List.append_cancel_left_eq] at h
          obtain ⟨s₁, h₁, hcalls, hleft⟩ := receive_reply (by omega) hdata.symm hlt
          have hsize : s₁.receiveSize = s.receiveSize + r.data.length - 13 := by
            rw [← hb, ← hleft, leftover, Mem.length_slice]
          obtain ⟨-, hstep'⟩ := (inStep_cons (by omega)).mp hstep
          rw [← hsize] at hstep'
          obtain ⟨s', h', hcalls'⟩ := run_of_inStep
            (fun r' hr' => htaken r' (List.mem_cons_of_mem r hr')) (by omega) (by rw [hleft, h])
            hstep'
          refine ⟨s', ?_, ?_⟩
          · rw [Receiver.run_cons_of_read _ h₁, h']
          · rw [hcalls', hcalls, List.map_cons, List.append_assoc]
            rfl

theorem length_flatMap_bytes (replies : List Reply) :
    (replies.flatMap Reply.bytes).length = 13 * replies.length := by
  induction replies with
  | nil => rfl
  | cons reply replies ih =>
      rw [List.flatMap_cons, List.length_append, reply.length_bytes, ih, List.length_cons]
      omega

theorem inStep_of_delivers {receiveBuffer : Mem} {replies : List Reply} {reads : List Read}
    (htaken : ∀ r ∈ reads, Taken r)
    (h : reads.flatMap Read.data = replies.flatMap Reply.bytes)
    (hd : Delivers receiveBuffer reads replies) : InStep 0 reads := by
  obtain ⟨s, hrun, hcalls, -⟩ := hd
  obtain ⟨new, hnew, hle, heq⟩ := run_lost htaken hrun
  have hcount := congrArg List.length hcalls
  rw [hnew] at hcount
  simp only [RecvState.start, List.nil_append, List.length_map] at hcount
  have htotal : (socketManager.received reads).length = 13 * replies.length := by
    rw [← length_flatMap_bytes, ← h]
    rfl
  change 13 * _ + _ ≤ 0 + _ at hle
  exact heq (by change _ = 0 + _; omega)

/-- **When the replies of the thermometer come out**: exactly when every read completes one reply, the
next one, and brings one byte more at most. -/
theorem delivers_iff_inStep (receiveBuffer : Mem) (replies : List Reply) (reads : List Read)
    (htaken : ∀ r ∈ reads, Taken r)
    (h : reads.flatMap Read.data = replies.flatMap Reply.bytes) :
    Delivers receiveBuffer reads replies ↔ InStep 0 reads := by
  constructor
  · exact inStep_of_delivers htaken h
  · intro hstep
    obtain ⟨s, hrun, hcalls⟩ := run_of_inStep (s := .start receiveBuffer) htaken (Nat.zero_le 1)
      h hstep
    refine ⟨s, hrun, hcalls, ?_⟩
    rintro pre post rfl s' hs'
    obtain ⟨new, hnew, hle, -⟩ := run_lost
      (fun r hr => htaken r (List.mem_append_left post hr)) hs'
    change s'.calls = [] ++ new at hnew
    change 13 * _ + _ ≤ 0 + _ at hle
    rw [hnew, List.nil_append]
    omega

/-- A reply with all registers zero. -/
def zeroReply : Reply := ⟨List.replicate 8 0, rfl⟩

/-- A read of some bytes. -/
def readOf (data : List UInt8) : Read := ⟨data, fun _ => 0⟩

/-- A reply with two registers that are not zero. -/
def warmReply : Reply := ⟨[0, 231, 1, 244, 0, 0, 0, 0], rfl⟩

/-- Three replies in three reads: the first brings one byte of the second reply, the second one byte
of the third. -/
def threeReads : List Read :=
  [readOf (zeroReply.bytes ++ warmReply.bytes.take 1),
    readOf (warmReply.bytes.drop 1 ++ zeroReply.bytes.take 1), readOf (zeroReply.bytes.drop 1)]

theorem delivers_iff_inStep_three :
    Delivers (fun _ => 0) threeReads [zeroReply, warmReply, zeroReply] ∧ InStep 0 threeReads := by
  have hstep : InStep 0 threeReads :=
    (inStep_cons (by decide)).mpr ⟨Or.inr (by decide), (inStep_cons (by decide)).mpr
      ⟨Or.inr (by decide), (inStep_cons (by decide)).mpr ⟨Or.inl (by decide),
        fun pre r post h => by simp at h⟩⟩⟩
  exact ⟨(delivers_iff_inStep (fun _ => 0) [zeroReply, warmReply, zeroReply] threeReads
    (by decide) rfl).mpr hstep, hstep⟩

/-- A reply that comes in two parts is lost. -/
theorem delivers_inStep_wrong : ¬ ∀ (receiveBuffer : Mem) (replies : List Reply) (reads : List Read),
    (∀ r ∈ reads, Taken r) → reads.flatMap Read.data = replies.flatMap Reply.bytes →
    Delivers receiveBuffer reads replies := by
  intro h
  have htaken : ∀ r ∈ [readOf (zeroReply.bytes.take 5), readOf (zeroReply.bytes.drop 5)], Taken r :=
    List.forall_mem_cons.mpr ⟨by decide, List.forall_mem_singleton.mpr (by decide)⟩
  have hbytes : [readOf (zeroReply.bytes.take 5), readOf (zeroReply.bytes.drop 5)].flatMap Read.data =
      [zeroReply].flatMap Reply.bytes := rfl
  have hstep := inStep_of_delivers htaken hbytes (h (fun _ => 0) _ _ htaken hbytes)
  have hfirst := hstep [] _ _ rfl
  revert hfirst
  decide

end IdcuIot.Driver.Gn1200
