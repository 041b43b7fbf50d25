import IdcuIot.Lib.Memory
import IdcuIot.Lib.Reassembly
import IdcuIot.Lib.Scan

/-! # The receive loops

Every program of the repository reads its serial line or its socket through the same two
pieces of code, copied from program to program:

* a parser `ParsingReceiveValue( cvalue, len, remainder, remainSize )`, which scans the
  first `len` bytes of `cvalue`, copies each frame it finds into a local buffer, hands that
  on, and copies the bytes after the last frame into `remainder`;
* a loop that appends what was read to `receiveBuffer`, calls the parser and moves the
  remainder to the front of `receiveBuffer`.

`Parser` and `RecvLoop` are these two with what differs as parameters.  The local buffer of
a parser and the receive buffers are never initialised, and the clearing
`memset( receiveBuffer, 0, sizeof(BUFFER_SIZE) )` reaches four bytes only, so the bytes
after `receiveSize` are whatever earlier reads or the stack left there. -/

namespace IdcuIot

open Memory Scan Reassembly

/-! ### Parsers -/

/-- What differs between the `ParsingReceiveValue` functions; `κ` is the call they make. -/
structure Parser (κ : Type) where
  /-- What the loop body finds at index `i` of the first `len` bytes of `cvalue`. -/
  probe : Mem → ℕ → ℕ → Probe
  /-- Number of leading bytes of a frame that are not copied into the local buffer. -/
  header : ℕ
  /-- Size of the local buffer. -/
  room : ℕ
  /-- The call made for a frame in the buffer: the local buffer before and after the copy. -/
  call : Mem → Mem → Mem → Cut → κ

/-- Locals of a parser: its buffer, the variable `remainSize`, the calls made so far, and
whether a copy went past the end of the local buffer. -/
structure ParseState (κ : Type) where
  setBuffer : Mem
  remainSize : ℤ
  calls : List κ
  overrun : Bool

/-- Outcome of a parser: the calls it made, the length it returns, the bytes it put into
`remainder`, and whether it wrote past the end of its local buffer. -/
structure Parsed (κ : Type) where
  calls : List κ
  remainSize : ℤ
  remainder : List UInt8
  overrun : Bool

namespace Parser

variable {κ : Type} (P : Parser κ)

/-- The `memcpy` of a frame into the local buffer. -/
def copy (cvalue : Mem) (c : Cut) (setBuffer : Mem) : Mem :=
  setBuffer.memcpy 0 cvalue (c.start + P.header) (c.size - P.header)

/-- The loop body at a frame. -/
def body (cvalue : Mem) (c : Cut) (s : ParseState κ) : ParseState κ :=
  let setBuffer := P.copy cvalue c s.setBuffer
  { setBuffer := setBuffer
    remainSize := c.stop
    calls := s.calls ++ [P.call cvalue s.setBuffer setBuffer c]
    overrun := s.overrun || decide (P.room < c.size - P.header) }

/-- `ParsingReceiveValue`: the scan, then `remainSize = len - remainSize` and the copy of
that many bytes from `cvalue+(len-(remainSize))`; a scan that halts returns `0`. -/
def parsingReceiveValue (setBuffer cvalue : Mem) (len : ℕ) (remainSize : ℤ) : Parsed κ :=
  let r := Scan.run (P.probe cvalue len) (P.body cvalue) len ⟨setBuffer, remainSize, [], false⟩
  if r.2 then ⟨r.1.calls, 0, [], r.1.overrun⟩
  else
    ⟨r.1.calls, len - r.1.remainSize,
      cvalue.slice r.1.remainSize.toNat (len - r.1.remainSize).toNat, r.1.overrun⟩

/-- The calls made for a list of frames. -/
def callsOf (cvalue : Mem) : Mem → List Cut → List κ
  | _, [] => []
  | setBuffer, c :: cs =>
      P.call cvalue setBuffer (P.copy cvalue c setBuffer) c ::
        callsOf cvalue (P.copy cvalue c setBuffer) cs

/-- Value of `remainSize` after the loop. -/
def endOf (remainSize : ℤ) (cs : List Cut) : ℤ := if cs = [] then remainSize else lastStop 0 cs

/-- Some frame does not fit in the local buffer. -/
def overruns (cs : List Cut) : Bool := cs.any (fun c => decide (P.room < c.size - P.header))

@[simp] theorem endOf_nil (remainSize : ℤ) : endOf remainSize [] = remainSize := if_pos rfl

theorem endOf_of_ne_nil (remainSize : ℤ) (d : ℕ) {cs : List Cut} (h : cs ≠ []) :
    endOf remainSize cs = lastStop d cs := by
  rw [endOf, if_neg h, lastStop_of_ne_nil 0 d h]

theorem endOf_zero (cs : List Cut) : endOf 0 cs = (lastStop 0 cs : ℕ) := by
  unfold endOf
  split_ifs with h
  · rw [h]
    rfl
  · rfl

theorem foldl_body (cvalue : Mem) (cs : List Cut) : ∀ s : ParseState κ,
    (cs.foldl (fun s c => P.body cvalue c s) s).calls = s.calls ++ P.callsOf cvalue s.setBuffer cs ∧
      (cs.foldl (fun s c => P.body cvalue c s) s).remainSize = endOf s.remainSize cs ∧
      (cs.foldl (fun s c => P.body cvalue c s) s).overrun = (s.overrun || P.overruns cs) := by
  induction cs with
  | nil => intro s; simp [callsOf, overruns]
  | cons c cs ih =>
      intro s
      obtain ⟨h1, h2, h3⟩ := ih (P.body cvalue c s)
      rw [List.foldl_cons, h1, h2, h3]
      refine ⟨by simp [body, callsOf], ?_, by simp [body, overruns, Bool.or_assoc]⟩
      by_cases hn : cs = []
      · subst hn
        simp [body, endOf]
      · rw [endOf_of_ne_nil _ 0 hn, endOf_of_ne_nil _ 0 (List.cons_ne_nil c cs), lastStop_cons,
          lastStop_of_ne_nil 0 c.stop hn]

/-- Every call is made for one of the frames, on the local buffer after its copy. -/
theorem exists_of_mem_callsOf {cvalue : Mem} {cs : List Cut} {setBuffer : Mem} {k : κ}
    (hk : k ∈ P.callsOf cvalue setBuffer cs) :
    ∃ c ∈ cs, ∃ before, k = P.call cvalue before (P.copy cvalue c before) c := by
  induction cs generalizing setBuffer with
  | nil => simp [callsOf] at hk
  | cons c cs ih =>
      rcases List.mem_cons.mp hk with rfl | hk
      · exact ⟨c, List.mem_cons_self, setBuffer, rfl⟩
      · obtain ⟨c', hc', before, h⟩ := ih hk
        exact ⟨c', List.mem_cons_of_mem c hc', before, h⟩

/-- What depends on the frame alone is the same for the calls and for the frames. -/
theorem map_callsOf {α : Type} {f : κ → α} {g : Cut → α} {cvalue : Mem}
    (h : ∀ before c, f (P.call cvalue before (P.copy cvalue c before) c) = g c) :
    ∀ (cs : List Cut) (setBuffer : Mem), (P.callsOf cvalue setBuffer cs).map f = cs.map g
  | [], _ => rfl
  | c :: cs, setBuffer => by
      rw [callsOf, List.map_cons, List.map_cons, h setBuffer c, map_callsOf h cs]

theorem parsingReceiveValue_eq {cvalue : Mem} {len : ℕ} (adv : Advances (P.probe cvalue len))
    {cs : List Cut} {h : Bool} (hs : Scans (P.probe cvalue len) len 0 cs h) (setBuffer : Mem)
    (remainSize : ℤ) :
    P.parsingReceiveValue setBuffer cvalue len remainSize =
      if h then ⟨P.callsOf cvalue setBuffer cs, 0, [], P.overruns cs⟩
      else ⟨P.callsOf cvalue setBuffer cs, len - endOf remainSize cs,
        cvalue.slice (endOf remainSize cs).toNat (len - endOf remainSize cs).toNat,
        P.overruns cs⟩ := by
  obtain ⟨h1, h2, h3⟩ := P.foldl_body cvalue cs ⟨setBuffer, remainSize, [], false⟩
  unfold parsingReceiveValue
  simp only [run_eq adv _ hs, h1, h2, h3, List.nil_append, Bool.false_or]

/-- The length returned is that of the bytes behind the last frame, and between `0` and `len`,
exactly when the frames lie within the bytes received and, if there are none, the `remainSize`
passed in is zero. -/
theorem remainSize_exact_iff {cvalue : Mem} {len : ℕ} (adv : Advances (P.probe cvalue len))
    {cs : List Cut} (hs : Scans (P.probe cvalue len) len 0 cs false) (remainSize : ℤ) :
    0 ≤ len - endOf remainSize cs ∧ len - endOf remainSize cs ≤ len ∧
        len - endOf remainSize cs = (len : ℤ) - lastStop 0 cs ↔
      (∀ c ∈ cs, c.stop ≤ len) ∧ (cs = [] → remainSize = 0) := by
  by_cases hn : cs = []
  · subst hn
    simp only [endOf_nil, lastStop_nil, List.not_mem_nil, false_imp_iff, implies_true, true_and,
      true_imp_iff]
    omega
  · rw [endOf_of_ne_nil remainSize 0 hn]
    constructor
    · rintro ⟨h0, -, -⟩
      refine ⟨fun c hc => ?_, fun h => absurd h hn⟩
      have := hs.stop_le_lastStop adv c hc
      omega
    · rintro ⟨hall, -⟩
      have hlast : lastStop 0 cs ≤ len := lastStop_le_of_forall hall (Nat.zero_le len)
      omega

theorem exists_of_mem_calls {cvalue setBuffer : Mem} {len : ℕ} {remainSize : ℤ}
    (adv : Advances (P.probe cvalue len)) {k : κ}
    (hk : k ∈ (P.parsingReceiveValue setBuffer cvalue len remainSize).calls) :
    ∃ c step before, c.start < len ∧ P.probe cvalue len c.start = .hit c.size step ∧
      k = P.call cvalue before (P.copy cvalue c before) c := by
  obtain ⟨cs, b, hs⟩ := exists_scan adv len 0
  have hcalls : (P.parsingReceiveValue setBuffer cvalue len remainSize).calls =
      P.callsOf cvalue setBuffer cs := by
    rw [P.parsingReceiveValue_eq adv hs]
    split_ifs <;> rfl
  rw [hcalls] at hk
  obtain ⟨c, hc, before, h⟩ := P.exists_of_mem_callsOf hk
  obtain ⟨-, hlt, step, hp⟩ := hs.hit_of_mem c hc
  exact ⟨c, step, before, hlt, hp, h⟩

end Parser

/-! ### Receive loops -/

/-- One read: the bytes it delivers, and what the stack holds at the parser's local buffer
when the parser is called for it. -/
structure Read where
  data : List UInt8
  setBuffer : Mem

/-- Locals of a receive loop, and the calls the parser has made so far. -/
structure RecvState (κ : Type) where
  receiveBuffer : Mem
  receiveSize : ℕ
  parsingSize : ℤ
  calls : List κ

/-- A loop that has read nothing: its buffers hold whatever the stack held. -/
def RecvState.start {κ : Type} (receiveBuffer : Mem) : RecvState κ := ⟨receiveBuffer, 0, 0, []⟩

/-- What differs between the receive loops. -/
structure RecvLoop (κ : Type) extends Parser κ where
  bufferSize : ℕ
  /-- The guard before `continue`: of `receiveSize` and `ReadMsgSize`. -/
  skips : ℕ → ℕ → Bool
  /-- Whether the loop sets `parsingSize = 0` after each read. -/
  resets : Bool

namespace RecvLoop

variable {κ : Type} (L : RecvLoop κ)

/-- The body of a receive loop for one read.  `none` where C leaves the behaviour
undefined: a copy past the end of `receiveBuffer` or of the parser's buffer, or a `memcpy`
of a length that is not between `0` and `len`. -/
def receive (s : RecvState κ) (r : Read) : Option (RecvState κ) :=
  if L.skips s.receiveSize r.data.length then some s
  else if L.bufferSize < s.receiveSize + r.data.length then none
  else
    let receiveBuffer := s.receiveBuffer.store s.receiveSize r.data
    let receiveSize := s.receiveSize + r.data.length
    let p := L.parsingReceiveValue r.setBuffer receiveBuffer receiveSize s.parsingSize
    if p.overrun = false ∧ 0 ≤ p.remainSize ∧ p.remainSize ≤ receiveSize then
      some
        { receiveBuffer := (receiveBuffer.clear 0 4).store 0 p.remainder
          receiveSize := p.remainSize.toNat
          parsingSize := if L.resets then 0 else p.remainSize
          calls := s.calls ++ p.calls }
    else none

/-- The bytes left over from earlier reads. -/
def leftover (s : RecvState κ) : List UInt8 := s.receiveBuffer.slice 0 s.receiveSize

/-- The receive buffer when the parser is called for the read `r`. -/
def buffered (s : RecvState κ) (r : Read) : Mem := s.receiveBuffer.store s.receiveSize r.data

/-- The loop as a receiver of a byte stream, `event` telling what a call delivers. -/
def receiver {ε : Type} (event : κ → ε) : Receiver (RecvState κ) Read UInt8 ε where
  read := L.receive
  data := Read.data
  kept := leftover
  out s := s.calls.map event

/-- From `s`, what is left over and the next read fit the receive buffer, read by read. -/
def Fits : RecvState κ → List Read → Prop
  | _, [] => True
  | s, r :: rs => s.receiveSize + r.data.length ≤ L.bufferSize ∧ ∀ s' ∈ L.receive s r, Fits s' rs

instance decidableFits : ∀ (s : RecvState κ) (rs : List Read), Decidable (L.Fits s rs)
  | _, [] => inferInstanceAs (Decidable True)
  | _, _ :: rs =>
      have := fun s' => decidableFits s' rs
      inferInstanceAs (Decidable (_ ∧ _))

/-- `parsingSize` is the number of bytes left over, or zero where the loop resets it. -/
def Inv (s : RecvState κ) : Prop := s.parsingSize = if L.resets then 0 else (s.receiveSize : ℤ)

theorem inv_start (m : Mem) : L.Inv (RecvState.start m) := by
  simp [Inv, RecvState.start]

@[simp] theorem leftover_start (m : Mem) : leftover (RecvState.start m : RecvState κ) = [] := rfl

theorem Fits.of_run {L : RecvLoop κ} {ε : Type} {event : κ → ε} : ∀ {pre : List Read} {r : Read}
    {post : List Read} {s s' : RecvState κ}, L.Fits s (pre ++ r :: post) →
    (L.receiver event).run s pre = some s' → s'.receiveSize + r.data.length ≤ L.bufferSize
  | [], _, _, _, _, h, hr => by
      cases Option.some.inj hr
      exact h.1
  | c :: pre, _, _, s, s', h, hr => by
      rw [Receiver.run_cons] at hr
      obtain ⟨s₁, h₁, h₂⟩ := Option.bind_eq_some_iff.mp hr
      exact Fits.of_run (h.2 s₁ h₁) h₂

theorem slice_buffered (s : RecvState κ) (r : Read) :
    (buffered s r).slice 0 (s.receiveSize + r.data.length) = leftover s ++ r.data := by
  have h := s.receiveBuffer.slice_store_append 0 s.receiveSize r.data
  rwa [Nat.zero_add] at h

theorem slice_buffered_drop (s : RecvState κ) (r : Read) {a : ℕ}
    (h : a ≤ s.receiveSize + r.data.length) :
    (buffered s r).slice a (s.receiveSize + r.data.length - a) = (leftover s ++ r.data).drop a := by
  rw [← slice_buffered, Mem.slice_drop _ 0 h, Nat.zero_add]

/-- A read that the loop survives: skipped, or parsed into the frames of a scan. -/
theorem receive_cases {s s' : RecvState κ} {r : Read} (h : L.receive s r = some s')
    {cs : List Cut} {b : Bool}
    (adv : Advances (L.probe (buffered s r) (s.receiveSize + r.data.length)))
    (hs : Scans (L.probe (buffered s r) (s.receiveSize + r.data.length))
      (s.receiveSize + r.data.length) 0 cs b) :
    (L.skips s.receiveSize r.data.length = true ∧ s' = s) ∨
    (L.skips s.receiveSize r.data.length = false ∧
      s.receiveSize + r.data.length ≤ L.bufferSize ∧ L.overruns cs = false ∧
      s'.calls = s.calls ++ L.callsOf (buffered s r) r.setBuffer cs ∧
      s'.parsingSize = (if L.resets then 0 else (s'.receiveSize : ℤ)) ∧
      if b then leftover s' = []
      else (s'.receiveSize : ℤ) = (s.receiveSize + r.data.length : ℕ) - Parser.endOf s.parsingSize cs ∧
        leftover s' = (buffered s r).slice (Parser.endOf s.parsingSize cs).toNat s'.receiveSize) := by
  unfold receive at h
  rw [show s.receiveBuffer.store s.receiveSize r.data = buffered s r from rfl] at h
  simp only [L.parsingReceiveValue_eq adv hs] at h
  by_cases hsk : L.skips s.receiveSize r.data.length = true
  · rw [if_pos hsk] at h
    exact Or.inl ⟨hsk, (Option.some.inj h).symm⟩
  rw [if_neg hsk] at h
  by_cases hfit : L.bufferSize < s.receiveSize + r.data.length
  · rw [if_pos hfit] at h
    cases h
  rw [if_neg hfit] at h
  refine Or.inr ⟨by simpa using hsk, by omega, ?_⟩
  cases b with
  | true =>
      simp only [if_true, le_refl, true_and] at h
      split_ifs at h with hok <;> cases Option.some.inj h <;> simp [leftover, hok.1, *]
  | false =>
      simp only [Bool.false_eq_true, if_false] at h ⊢
      by_cases hok : L.overruns cs = false ∧
        (0 : ℤ) ≤ (s.receiveSize + r.data.length : ℕ) - Parser.endOf s.parsingSize cs ∧
        ((s.receiveSize + r.data.length : ℕ) : ℤ) - Parser.endOf s.parsingSize cs ≤
          (s.receiveSize + r.data.length : ℕ)
      · rw [if_pos hok] at h
        obtain rfl := Option.some.inj h
        obtain ⟨hover, h0, h1⟩ := hok
        refine ⟨hover, rfl, ?_, ?_, ?_⟩
        · rw [Int.toNat_of_nonneg h0]
        · rw [Int.toNat_of_nonneg h0]
        · have := ((buffered s r).clear 0 4).slice_store 0
            ((buffered s r).slice (Parser.endOf s.parsingSize cs).toNat
              (↑(s.receiveSize + r.data.length) - Parser.endOf s.parsingSize cs).toNat)
          rwa [Mem.length_slice] at this
      · rw [if_neg hok] at h
        cases h

/-- A read whose frames all fit and end at index `k` at the latest: what is left over begins
there. -/
theorem receive_scanned {s : RecvState κ} {r : Read} {cs : List Cut} {k : ℕ}
    (hsk : L.skips s.receiveSize r.data.length = false)
    (hfit : s.receiveSize + r.data.length ≤ L.bufferSize)
    (adv : Advances (L.probe (buffered s r) (s.receiveSize + r.data.length)))
    (hs : Scans (L.probe (buffered s r) (s.receiveSize + r.data.length))
      (s.receiveSize + r.data.length) 0 cs false) (hover : L.overruns cs = false)
    (hend : Parser.endOf s.parsingSize cs = k) (hk : k ≤ s.receiveSize + r.data.length) :
    ∃ s', L.receive s r = some s' ∧
      s'.calls = s.calls ++ L.callsOf (buffered s r) r.setBuffer cs ∧
      leftover s' = (leftover s ++ r.data).drop k := by
  have hsome : ∃ s', L.receive s r = some s' := by
    unfold receive
    rw [if_neg (by simp [hsk]), if_neg (by omega)]
    simp only [show s.receiveBuffer.store s.receiveSize r.data = buffered s r from rfl,
      L.parsingReceiveValue_eq adv hs, Bool.false_eq_true, if_false, hover, true_and]
    rw [if_pos (by omega)]
    exact ⟨_, rfl⟩
  obtain ⟨s', hs'⟩ := hsome
  rcases L.receive_cases hs' adv hs with ⟨hskip, -⟩ | ⟨-, -, -, hcalls, -, hrest⟩
  · rw [hsk] at hskip
    cases hskip
  rw [if_neg Bool.false_ne_true, hend, Int.toNat_natCast] at hrest
  refine ⟨s', hs', hcalls, ?_⟩
  rw [hrest.2, show s'.receiveSize = s.receiveSize + r.data.length - k by omega,
    slice_buffered_drop s r hk]

end RecvLoop
end IdcuIot
