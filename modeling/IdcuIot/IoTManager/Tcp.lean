import IdcuIot.IoTManager.Serial

/-! # IoTManager: the request connection

`SocketPorcess` reads requests from the client and `ParsingReceiveValue` cuts them for
`CommandProcess`.  A request is `01 02`, three bytes, a length `N` and `N` more bytes.  The
parser looks for `01 02` only: it reads `N` and copies the request without a look at `len`,
so a request of which only the beginning has arrived is completed with whatever earlier
requests left behind it in `receiveBuffer`. -/

namespace IdcuIot.IoTManager

open Memory Scan Reassembly

/-! ### Requests -/

/-- A request: the three bytes behind `01 02`, and what follows its length byte. -/
structure Request where
  transaction : UInt8
  protocol : UInt8
  reserved : UInt8
  payload : List UInt8
  short : payload.length < 256

namespace Request

/-- The bytes of a request on the connection. -/
def bytes (q : Request) : List UInt8 :=
  [0x01, 0x02, q.transaction, q.protocol, q.reserved, UInt8.ofNat q.payload.length] ++ q.payload

@[simp] theorem length_bytes (q : Request) : q.bytes.length = q.payload.length + 6 := by
  simp [bytes]

theorem bytes_ne_nil (q : Request) : q.bytes ≠ [] := by simp [bytes]

theorem getElem_bytes_zero (q : Request) (h : 0 < q.bytes.length) : q.bytes[0] = 0x01 := rfl

theorem getElem_bytes_one (q : Request) (h : 1 < q.bytes.length) : q.bytes[1] = 0x02 := rfl

theorem getElem_bytes_five (q : Request) (h : 5 < q.bytes.length) :
    q.bytes[5] = UInt8.ofNat q.payload.length := rfl

theorem toNat_length (q : Request) : (UInt8.ofNat q.payload.length).toNat = q.payload.length := by
  rw [UInt8.toNat_ofNat']
  exact Nat.mod_eq_of_lt q.short

end Request

/-- The bytes of some request. -/
def IsRequest (l : List UInt8) : Prop := ∃ q : Request, q.bytes = l

/-! ### The parser -/

/-- The test for a request at index `i`. -/
def requestProbe (cvalue : Mem) (i : ℕ) : Probe :=
  if cvalue i = 0x01 ∧ cvalue (i + 1) = 0x02 then
    .hit ((cvalue (i + 5)).toNat + 6) ((cvalue (i + 5)).toNat + 6)
  else .pass

theorem requestProbe_eq_hit {m : Mem} {i size step : ℕ} :
    requestProbe m i = .hit size step ↔ (m i = 0x01 ∧ m (i + 1) = 0x02) ∧
      size = (m (i + 5)).toNat + 6 ∧ step = (m (i + 5)).toNat + 6 := by
  unfold requestProbe
  split_ifs with h
  · simp only [Probe.hit.injEq, h, true_and]
    exact ⟨fun h => ⟨h.1.symm, h.2.symm⟩, fun h => ⟨h.1.symm, h.2.symm⟩⟩
  · constructor
    · intro h'
      cases h'
    · rintro ⟨h', -⟩
      exact absurd h' h

theorem requestProbe_ne_halt {m : Mem} {i : ℕ} : requestProbe m i ≠ .halt := by
  unfold requestProbe
  split_ifs <;> simp

/-- The call `CommandProcess( setBuffer, size )` for a request that starts at index `start`. -/
structure TcpCall where
  start : ℕ
  size : ℕ
  setBuffer : Mem

/-- The request in the buffer. -/
def TcpCall.request (c : TcpCall) : List UInt8 := c.setBuffer.slice 0 c.size

/-- The parser of the request connection. -/
def tcpParser : Parser TcpCall where
  probe := fun cvalue _ i => requestProbe cvalue i
  header := 0
  room := bufferSize
  call _ _ setBuffer c := ⟨c.start, c.size, setBuffer⟩

/-- `ParsingReceiveValue`. -/
def parsingReceiveValue (setBuffer cvalue : Mem) (len : ℕ) (remainSize : ℤ) : Parsed TcpCall :=
  tcpParser.parsingReceiveValue setBuffer cvalue len remainSize

/-- The receive loop of `SocketPorcess`. -/
def socketPorcess : RecvLoop TcpCall :=
  { tcpParser with
    bufferSize := bufferSize
    skips := fun _ readMsgSize => decide (bufferSize ≤ readMsgSize)
    resets := false }

/-- What a request makes IoTManager do. -/
inductive TcpCommand where
  | getIOStatus
  | getCommStatus
  | setCountClear (port : UInt8)
deriving DecidableEq, Repr

/-- `CommandProcess`. -/
def commandProcess (buffer : Mem) : Option TcpCommand :=
  let type := buffer 7
  if type = 2 then some .getIOStatus
  else if type = 4 then some .getCommStatus
  else if type = 5 then some (.setCountClear (buffer 9))
  else none

theorem requestProbe_advances (m : Mem) : Advances (requestProbe m) := by
  intro i size step hp
  obtain ⟨-, hsize, hstep⟩ := requestProbe_eq_hit.mp hp
  omega

theorem requestProbe_of_request {m : Mem} {i : ℕ} {q : Request}
    (hm : m.slice i q.bytes.length = q.bytes) :
    requestProbe m i = .hit q.bytes.length q.bytes.length := by
  have hlen := q.length_bytes
  rw [requestProbe_eq_hit, Mem.eq_getElem_of_slice hm (show 5 < q.bytes.length by omega),
    q.getElem_bytes_five, q.toNat_length, hlen]
  exact ⟨⟨(Mem.eq_getElem_of_slice hm (by omega)).trans (q.getElem_bytes_zero _),
    (Mem.eq_getElem_of_slice hm (by omega)).trans (q.getElem_bytes_one _)⟩, rfl, rfl⟩

/-- What is found in the beginning of a request reaches past the bytes received. -/
theorem requestProbe_partly {m : Mem} {n i size step : ℕ} {q : Request}
    (hn : n < i + q.bytes.length) (hm : m.slice i (n - i) = q.bytes.take (n - i))
    (hp : requestProbe m i = .hit size step) : n < i + size := by
  obtain ⟨-, hsize, -⟩ := requestProbe_eq_hit.mp hp
  have hlen := q.length_bytes
  rcases Nat.lt_or_ge (i + 5) n with h5 | h5
  · have htake : 5 < (q.bytes.take (n - i)).length := by
      rw [List.length_take]
      omega
    rw [Mem.eq_getElem_of_slice hm htake, List.getElem_take, q.getElem_bytes_five,
      q.toNat_length] at hsize
    omega
  · omega

theorem socketPorcess_eager : socketPorcess.Eager TcpCall.request IsRequest where
  reports m b c := by
    simp only [TcpCall.request, socketPorcess, tcpParser, Parser.copy, Nat.add_zero, Nat.sub_zero]
    exact Mem.slice_memcpy b 0 m c.start c.size
  step_eq m n i size step hp := by
    obtain ⟨-, hsize, hstep⟩ := requestProbe_eq_hit.mp hp
    omega
  no_halt m n i := requestProbe_ne_halt
  room m n i size step hp := by
    obtain ⟨-, hsize, -⟩ := requestProbe_eq_hit.mp hp
    have := (m (i + 5)).toNat_lt
    change size - 0 ≤ 2048
    omega
  whole m n i l hl hm hn := by
    obtain ⟨q, rfl⟩ := hl
    exact requestProbe_of_request hm
  partly m n i l size step hl hi hn hm hp := by
    obtain ⟨q, rfl⟩ := hl
    exact requestProbe_partly hn hm hp
  ne_nil l hl := by
    obtain ⟨q, rfl⟩ := hl
    exact q.bytes_ne_nil

/-! ### The remainder -/

/-- Index behind the last request that was processed. -/
def consumed (calls : List TcpCall) : ℕ := calls.foldl (fun _ c => c.start + c.size) 0

/-- The length that the parser returns is between `0` and `len`, and the remainder consists of
the bytes behind the last request. -/
def RemainderExact (setBuffer cvalue : Mem) (len : ℕ) (remainSize : ℤ) : Prop :=
  let p := parsingReceiveValue setBuffer cvalue len remainSize
  0 ≤ p.remainSize ∧ p.remainSize ≤ len ∧ p.remainSize = len - consumed p.calls ∧
    p.remainder = cvalue.slice (consumed p.calls) p.remainSize.toNat

theorem foldl_stop_callsOf (cvalue : Mem) (cs : List Cut) : ∀ (d : ℕ) (setBuffer : Mem),
    (tcpParser.callsOf cvalue setBuffer cs).foldl (fun _ c => c.start + c.size) d =
      lastStop d cs := by
  induction cs with
  | nil => intro d setBuffer; rfl
  | cons c cs ih =>
      intro d setBuffer
      exact ih _ _

theorem remainderExact_iff (setBuffer cvalue : Mem) (len : ℕ) (remainSize : ℤ) :
    RemainderExact setBuffer cvalue len remainSize ↔
      ∀ cs, Scans (requestProbe cvalue) len 0 cs false →
        (∀ c ∈ cs, c.stop ≤ len) ∧ (cs = [] → remainSize = 0) := by
  have adv := requestProbe_advances cvalue
  obtain ⟨cs, hs⟩ := exists_scan_of_ne_halt adv (fun i => requestProbe_ne_halt) len 0
  have hall : (∀ cs', Scans (requestProbe cvalue) len 0 cs' false →
      (∀ c ∈ cs', c.stop ≤ len) ∧ (cs' = [] → remainSize = 0)) ↔
      (∀ c ∈ cs, c.stop ≤ len) ∧ (cs = [] → remainSize = 0) := by
    refine ⟨fun h => h cs hs, fun h cs' hs' => ?_⟩
    obtain ⟨rfl, -⟩ := hs.unique hs'
    exact h
  rw [hall, ← tcpParser.remainSize_exact_iff adv hs remainSize]
  have hconsumed : consumed (tcpParser.callsOf cvalue setBuffer cs) = lastStop 0 cs :=
    foldl_stop_callsOf cvalue cs 0 setBuffer
  unfold RemainderExact parsingReceiveValue
  simp only [tcpParser.parsingReceiveValue_eq adv hs, Bool.false_eq_true, if_false, hconsumed]
  refine and_congr_right (fun _ => and_congr_right (fun _ => and_iff_left_of_imp (fun h => ?_)))
  rw [show Parser.endOf remainSize cs = (lastStop 0 cs : ℤ) by omega, Int.toNat_natCast]

/-- **When requests are processed exactly**: `CommandProcess` is called for the requests sent,
each once and in order, exactly when every read is in step; and one call of the parser leaves
exactly the bytes it has not processed if and only if the requests that begin in the buffer end
in it and, when there are none, the `remainSize` passed in is zero. -/
theorem socketPorcess_exact_iff (receiveBuffer : Mem) (requests : List Request) (reads : List Read)
    (hne : ∀ r ∈ reads, r.data ≠ [])
    (h : reads.flatMap Read.data = requests.flatMap Request.bytes)
    (setBuffer cvalue : Mem) (len : ℕ) (remainSize : ℤ) :
    (socketPorcess.Delivers TcpCall.request id receiveBuffer reads (requests.map Request.bytes) ↔
      ∀ pre r post, reads = pre ++ r :: post → ∀ s,
        (socketPorcess.receiver TcpCall.request).run (RecvState.start receiveBuffer) pre =
          some s →
        socketPorcess.InStep s ((requests.map Request.bytes).drop s.calls.length) r) ∧
    (RemainderExact setBuffer cvalue len remainSize ↔
      ∀ cs, Scans (requestProbe cvalue) len 0 cs false →
        (∀ c ∈ cs, c.stop ≤ len) ∧ (cs = [] → remainSize = 0)) := by
  refine ⟨?_, remainderExact_iff setBuffer cvalue len remainSize⟩
  have hv : ∀ l ∈ requests.map Request.bytes, IsRequest l := by
    intro l hl
    obtain ⟨q, -, rfl⟩ := List.mem_map.mp hl
    exact ⟨q, rfl⟩
  exact socketPorcess_eager.delivers_iff receiveBuffer (requests.map Request.bytes) reads hv hne
    (h.trans (List.flatMap_def ..))

/-- The request that clears counter 3. -/
def countClear : Request := ⟨0, 0, 0, [0x01, 0x05, 0x00, 0x03, 0xFF, 0x00], by decide⟩

/-- Two count clears, the second of them in two reads. -/
def countClearReads : List Read :=
  [⟨countClear.bytes, fun _ => 0⟩, ⟨[0x01, 0x02], fun _ => 0⟩,
    ⟨countClear.bytes.drop 2, fun _ => 0⟩]

theorem socketPorcess_exact_countClear :
    socketPorcess.Delivers TcpCall.request id (fun _ => 0) countClearReads
        ([countClear, countClear].map Request.bytes) ↔
      ∀ pre r post, countClearReads = pre ++ r :: post → ∀ s,
        (socketPorcess.receiver TcpCall.request).run (RecvState.start fun _ => 0) pre = some s →
        socketPorcess.InStep s (([countClear, countClear].map Request.bytes).drop s.calls.length) r :=
  (socketPorcess_exact_iff (fun _ => 0) [countClear, countClear] countClearReads (by decide)
    (by decide) (fun _ => 0) (fun _ => 0) 0 0).1

/-- What the first two bytes of the second one make IoTManager do. -/
example :
    (parsingReceiveValue (fun _ => 0) (Mem.store (fun _ => 0) 0 countClear.bytes) 2 0).calls.map
      (fun c => commandProcess c.setBuffer) = [some (.setCountClear 3)] := by decide

/-- The first two bytes of the second count clear are completed with the bytes of the first
one: the command is executed again and the remainder has length `-10`. -/
theorem socketPorcess_exact_wrong : ¬
    ((∀ (receiveBuffer : Mem) (requests : List Request) (reads : List Read),
      (∀ r ∈ reads, r.data ≠ []) →
      reads.flatMap Read.data = requests.flatMap Request.bytes →
      socketPorcess.Delivers TcpCall.request id receiveBuffer reads
        (requests.map Request.bytes)) ∧
    ∀ (setBuffer cvalue : Mem) (len : ℕ) (remainSize : ℤ),
      RemainderExact setBuffer cvalue len remainSize) := by
  rintro ⟨h, -⟩
  obtain ⟨s, hr, -⟩ :=
    h (fun _ => 0) [countClear, countClear] countClearReads (by decide) (by decide)
  have hnone : ((socketPorcess.receiver TcpCall.request).run (RecvState.start fun _ => 0)
      countClearReads).isSome = false := by decide
  rw [hr] at hnone
  cases hnone

end IdcuIot.IoTManager
