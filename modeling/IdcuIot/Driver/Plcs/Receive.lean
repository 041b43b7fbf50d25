import IdcuIot.Lib.Marked
import IdcuIot.Receiver

/-! # The PLCS drivers: receiving frames

`ParsingReceiveValue`, `ParsingReceiveValue_12` and `ParsingReceiveValue_12ex` with the loops
`Socket_Manager` that call them.  A frame begins with the bytes `":",33` (`":",3` for PLCS_12ex)
and ends before a carriage return.  The parsers differ in what they do with a frame; here a
frame is handed on.

The test for the first bytes of a frame looks past `len`.  When no frame is open at the end of
the buffer everything is dropped, so that the beginning of a frame survives there only if the
bytes behind `len` complete it (`Completes`). -/

namespace IdcuIot.Driver

open Memory Reassembly Marked History

/-- The PLCS drivers. -/
inductive Plcs where
  | plcs10
  | plcs12
  | plcs12ex
deriving DecidableEq, Repr

namespace Plcs

/-- `BUFFER_SIZE*10`. -/
def bufferSize : ℕ := 10240

/-- The bytes that the test for a frame compares with. -/
def start : Plcs → List UInt8
  | .plcs10 | .plcs12 => [0x22, 0x3A, 0x22, 0x2C, 0x33, 0x33]
  | .plcs12ex => [0x22, 0x3A, 0x22, 0x2C, 0x33]

/-- The frames of a driver. -/
def format (d : Plcs) : Format UInt8 where
  start := d.start
  stop := 0x0D
  start_ne_nil := by cases d <;> decide
  stop_notMem := by cases d <;> decide
  unbordered := by cases d <;> decide

variable (d : Plcs)

/-- The test for a frame at index `i`. -/
def At (cvalue : Mem) (i : ℕ) : Prop := cvalue.slice i d.start.length = d.start

instance (cvalue : Mem) (i : ℕ) : Decidable (d.At cvalue i) := inferInstanceAs (Decidable (_ = _))

/-- The first carriage return from index `i` on. -/
def crOffset (cvalue : Mem) (len i : ℕ) : Option ℕ :=
  (List.range' i (len - i)).find? (fun k => cvalue k == 0x0D)

/-- Locals of the parser: the frames handed on so far and `remainSize`. -/
structure ParseState where
  frames : List (List UInt8)
  remainSize : ℤ

/-- The loop over `cvalue` from index `i` on. -/
def scan (cvalue : Mem) (len : ℕ) : ℕ → ℕ → ParseState → ParseState
  | 0, _, s => s
  | fuel + 1, i, s =>
      if i < len then
        if d.At cvalue i then
          match crOffset cvalue len i with
          | some cr =>
              scan cvalue len fuel (cr + 1) ⟨s.frames ++ [cvalue.slice i (cr - i)], (cr + 1 : ℕ)⟩
          -- `i += crOffset` ends the loop
          | none => ⟨s.frames, i⟩
        else if i + 1 = len then ⟨s.frames, len⟩
        else scan cvalue len fuel (i + 1) s
      else s

/-- Outcome of a parser: the frames, the length it returns, and what it puts into `remainder`. -/
structure Parsed where
  frames : List (List UInt8)
  remainSize : ℤ
  remainder : List UInt8

/-- `ParsingReceiveValue`, `ParsingReceiveValue_12`, `ParsingReceiveValue_12ex`. -/
def parsingReceiveValue (cvalue : Mem) (len : ℕ) (remainSize : ℤ) : Parsed :=
  let s := d.scan cvalue len len 0 ⟨[], remainSize⟩
  ⟨s.frames, len - s.remainSize, cvalue.slice s.remainSize.toNat (len - s.remainSize).toNat⟩

/-- The body of `Socket_Manager` for what `recv` delivers.  `none` where C leaves the behaviour
undefined: a copy past the end of `receiveBuffer`, or of a length that is not between `0` and
`len`. -/
def receive (s : RecvState (List UInt8)) (data : List UInt8) : Option (RecvState (List UInt8)) :=
  if bufferSize ≤ data.length then some s
  else if bufferSize < s.receiveSize + data.length then none
  else
    let receiveBuffer := s.receiveBuffer.store s.receiveSize data
    let receiveSize := s.receiveSize + data.length
    if bufferSize ≤ receiveSize then
      some { s with receiveBuffer := receiveBuffer.clear 0 40, receiveSize := 0 }
    else
      let p := d.parsingReceiveValue receiveBuffer receiveSize s.parsingSize
      if 0 ≤ p.remainSize ∧ p.remainSize ≤ receiveSize then
        some
          { receiveBuffer := (receiveBuffer.clear 0 40).store 0 p.remainder
            receiveSize := p.remainSize.toNat
            parsingSize := p.remainSize
            calls := s.calls ++ p.frames }
      else none

/-- The loop as a receiver of a byte stream that delivers frames. -/
def receiver : Receiver (RecvState (List UInt8)) (List UInt8) UInt8 (List UInt8) where
  read := d.receive
  data := id
  kept := RecvLoop.leftover
  out := RecvState.calls

/-- From `s`, what is left over and the next read stay below the size of the buffer, read by
read. -/
def Fits : RecvState (List UInt8) → List (List UInt8) → Prop
  | _, [] => True
  | s, r :: rs => s.receiveSize + r.length < bufferSize ∧ ∀ s' ∈ d.receive s r, Fits s' rs

instance decidableFits : ∀ (s : RecvState (List UInt8)) (rs : List (List UInt8)),
    Decidable (d.Fits s rs)
  | _, [] => inferInstanceAs (Decidable True)
  | _, _ :: rs =>
      have := fun s' => decidableFits s' rs
      inferInstanceAs (Decidable (_ ∧ _))

/-! ### The parser as a relation -/

/-- From index `i` the parser hands on the frames `fs` and keeps the bytes from `e` on. -/
inductive Parses (m : Mem) (len : ℕ) : ℕ → List (List UInt8) → ℕ → Prop
  | done : Parses m len len [] len
  | frame {i cr e : ℕ} {fs : List (List UInt8)} : i < len → d.At m i →
      crOffset m len i = some cr → Parses m len (cr + 1) fs e →
      Parses m len i (m.slice i (cr - i) :: fs) e
  | opened {i : ℕ} : i < len → d.At m i → crOffset m len i = none → Parses m len i [] i
  | pass {i e : ℕ} {fs : List (List UInt8)} : i < len → ¬ d.At m i → Parses m len (i + 1) fs e →
      Parses m len i fs e

section
variable {d} {m : Mem} {len i e : ℕ} {fs : List (List UInt8)}

theorem crOffset_eq_some {cr : ℕ} (h : crOffset m len i = some cr) :
    i ≤ cr ∧ cr < len ∧ m cr = 0x0D ∧ ∀ k, i ≤ k → k < cr → m k ≠ 0x0D := by
  obtain ⟨hcr, hmem, hbefore⟩ := List.find?_range'_eq_some.mp h
  obtain ⟨h1, h2⟩ := List.mem_range'_1.mp hmem
  exact ⟨h1, by omega, by simpa using hcr, fun k hk hlt => by simpa using hbefore k hk hlt⟩

theorem crOffset_eq_none (h : crOffset m len i = none) : ∀ k, i ≤ k → k < len → m k ≠ 0x0D :=
  fun k hk hlt => by simpa using List.find?_range'_eq_none.mp h k hk (by omega)

theorem exists_parses (d : Plcs) (m : Mem) (len : ℕ) : ∀ (fuel i : ℕ) (s : ParseState),
    i ≤ len → len ≤ i + fuel → (i = len → s.remainSize = len) →
    ∃ fs e, d.Parses m len i fs e ∧ d.scan m len fuel i s = ⟨s.frames ++ fs, (e : ℕ)⟩
  | 0, i, s, hi, hf, hs => by
      obtain rfl : i = len := by omega
      refine ⟨[], i, .done, ?_⟩
      rw [scan, List.append_nil, ← hs rfl]
  | fuel + 1, i, s, hi, hf, hs => by
      by_cases hlt : i < len
      · by_cases hat : d.At m i
        · cases hcr : crOffset m len i with
          | some cr =>
              obtain ⟨hle, hlt', -⟩ := crOffset_eq_some hcr
              obtain ⟨fs, e, hp, hscan⟩ := exists_parses d m len fuel (cr + 1)
                ⟨s.frames ++ [m.slice i (cr - i)], (cr + 1 : ℕ)⟩ (by omega) (by omega)
                (fun h => by rw [h])
              refine ⟨_, e, .frame hlt hat hcr hp, ?_⟩
              rw [scan, if_pos hlt, if_pos hat]
              simp only [hcr, hscan, List.append_assoc, List.singleton_append]
          | none =>
              refine ⟨[], i, .opened hlt hat hcr, ?_⟩
              rw [scan, if_pos hlt, if_pos hat]
              simp only [hcr, List.append_nil]
        · by_cases hlast : i + 1 = len
          · subst hlast
            refine ⟨[], i + 1, .pass hlt hat .done, ?_⟩
            rw [scan, if_pos hlt, if_neg hat, if_pos rfl, List.append_nil]
          · obtain ⟨fs, e, hp, hscan⟩ := exists_parses d m len fuel (i + 1) s (by omega) (by omega)
              (fun h => absurd h hlast)
            exact ⟨fs, e, .pass hlt hat hp, by
              rw [scan, if_pos hlt, if_neg hat, if_neg hlast, hscan]⟩
      · obtain rfl : i = len := by omega
        refine ⟨[], i, .done, ?_⟩
        rw [scan, if_neg hlt, List.append_nil, ← hs rfl]

theorem exists_parsed (d : Plcs) (m : Mem) (hlen : 0 < len) (remainSize : ℤ) :
    ∃ fs e, d.Parses m len 0 fs e ∧
      d.parsingReceiveValue m len remainSize = ⟨fs, len - (e : ℕ), m.slice e (len - e)⟩ := by
  obtain ⟨fs, e, hp, hscan⟩ := exists_parses d m len len 0 ⟨[], remainSize⟩ (Nat.zero_le _)
    (by omega) (by omega)
  refine ⟨fs, e, hp, ?_⟩
  simp only [parsingReceiveValue, hscan, List.nil_append, Int.toNat_natCast, Int.toNat_sub]

/-! ### What one scan does to a text -/

theorem slice_eq_cons (h : i < len) :
    m.slice i (len - i) = m i :: m.slice (i + 1) (len - (i + 1)) := by
  rw [show len - i = 1 + (len - (i + 1)) by omega, Mem.slice_add]
  rfl

theorem notMem_slice {n : ℕ} (h : ∀ k, i ≤ k → k < i + n → m k ≠ 0x0D) :
    d.format.stop ∉ m.slice i n := by
  intro hmem
  obtain ⟨k, hk, hb⟩ := List.mem_iff_getElem.mp hmem
  rw [Mem.length_slice] at hk
  rw [Mem.getElem_slice] at hb
  exact h (i + k) (by omega) (by omega) hb

theorem at_of_start {n : ℕ} (h : d.format.start <+: m.slice i n) : d.At m i := by
  have hle := h.length_le
  rw [Mem.length_slice] at hle
  change d.start.length ≤ n at hle
  rw [At, ← m.slice_take i hle]
  exact (List.prefix_iff_eq_take.mp h).symm

theorem At.prefix_slice {n : ℕ} (h : d.At m i) (hn : d.start.length ≤ n) :
    d.format.start <+: m.slice i n := by
  apply List.prefix_iff_eq_take.mpr
  rw [show d.format.start.length = d.start.length from rfl, m.slice_take i hn]
  exact h.symm

theorem At.ne_stop (h : d.At m i) {k : ℕ} (hk : i ≤ k) (hlt : k < i + d.start.length) :
    m k ≠ 0x0D := by
  intro hstop
  obtain ⟨c, rfl⟩ := Nat.exists_eq_add_of_le hk
  have hget := Mem.eq_getElem_of_slice h (show c < d.start.length by omega)
  apply d.format.stop_notMem
  rw [show d.format.stop = m (i + c) from hstop.symm, hget]
  exact List.getElem_mem _

theorem frame_split {cr : ℕ} (hat : d.At m i) (hcr : crOffset m len i = some cr) :
    m.slice i (len - i) =
        m.slice i (cr - i) ++ d.format.stop :: m.slice (cr + 1) (len - (cr + 1)) ∧
      d.format.start <+: m.slice i (cr - i) ∧ d.format.stop ∉ m.slice i (cr - i) := by
  obtain ⟨h1, h2, hstop, hbefore⟩ := crOffset_eq_some hcr
  refine ⟨?_, hat.prefix_slice ?_, notMem_slice (fun k hk hlt => hbefore k hk (by omega))⟩
  · rw [show len - i = cr - i + (len - cr) by omega, Mem.slice_add,
      show i + (cr - i) = cr by omega, slice_eq_cons h2, hstop]
    rfl
  · by_contra hlt
    exact hat.ne_stop h1 (by omega) hstop

theorem Parses.bounds (h : d.Parses m len i fs e) (hi : i ≤ len) : i ≤ e ∧ e ≤ len := by
  induction h with
  | done => exact ⟨le_rfl, le_rfl⟩
  | frame hlt hat hcr hp ih =>
      obtain ⟨h1, h2, -⟩ := crOffset_eq_some hcr
      have := ih (by omega)
      omega
  | opened hlt => omega
  | pass hlt _ _ ih =>
      have := ih hlt
      omega

theorem Parses.stop_notMem (h : d.Parses m len i fs e) : d.format.stop ∉ m.slice e (len - e) := by
  induction h with
  | done => simp
  | frame _ _ _ _ ih | pass _ _ _ ih => exact ih
  | @opened i hlt hat hcr => exact notMem_slice (fun k hk hk' => crOffset_eq_none hcr k hk (by omega))

/-- No byte is handed on twice: the frames of a scan and those of the text that is kept weigh no
more than the frames of the whole text. -/
theorem Parses.weight_le (h : d.Parses m len i fs e) (y : List UInt8) :
    fs.flatten.length + (frames d.format (m.slice e (len - e) ++ y)).flatten.length ≤
      (frames d.format (m.slice i (len - i) ++ y)).flatten.length := by
  induction h with
  | done => simp
  | @frame i cr e fs hlt hat hcr hp ih =>
      obtain ⟨heq, hinitial, hstop⟩ := frame_split hat hcr
      rw [heq, List.append_assoc, List.cons_append, frames_of_prefix hinitial hstop,
        List.flatten_cons, List.flatten_cons, List.length_append, List.length_append]
      omega
  | opened => simp
  | pass hlt hat hp ih =>
      rw [slice_eq_cons hlt, List.cons_append]
      exact ih.trans (weight_frames_le _ _)

/-! ### The exact condition on a read -/

/-- The bytes behind `len` complete a start word that begins, at the latest, `j` bytes before
`len`. -/
def Completes (d : Plcs) (m : Mem) (len j : ℕ) : Prop :=
  ∃ i, i + j ≤ len ∧ len < i + d.start.length ∧ d.At m i

theorem Parses.carries (h : d.Parses m len i fs e) {y : List UInt8} {gs : List (List UInt8)}
    (hgood : ∀ j, Cuts d.format (m.slice i (len - i)) y j → d.Completes m len j)
    (hno : ∀ k, k < i → len < k + d.start.length → ¬ d.At m k)
    (hc : Carries d.format gs (m.slice i (len - i) ++ y)) :
    ∃ gs', gs = fs ++ gs' ∧ Carries d.format gs' (m.slice e (len - e) ++ y) := by
  induction h generalizing gs with
  | done => exact ⟨gs, rfl, hc⟩
  | opened => exact ⟨gs, rfl, hc⟩
  | @frame i cr e fs hlt hat hcr hp ih =>
      obtain ⟨heq, hinitial, hstop⟩ := frame_split hat hcr
      obtain ⟨h1, h2, hcr', -⟩ := crOffset_eq_some hcr
      rw [heq, List.append_assoc, List.cons_append] at hc
      obtain ⟨gs₁, rfl, hc₁⟩ := (carries_append_iff hinitial hstop).mp hc
      obtain ⟨gs', rfl, hc'⟩ := ih (fun j hj => hgood j (by rwa [heq, cuts_append_iff hinitial hstop]))
        (fun k hk hlen hat' => hat'.ne_stop (by omega) (by omega) hcr') hc₁
      exact ⟨gs', rfl, hc'⟩
  | @pass i e fs hlt hat hp ih =>
      have hcons := slice_eq_cons (m := m) hlt
      have hreal : ¬ d.format.start <+: m.slice i (len - i) := fun h => hat (at_of_start h)
      have hno' : ∀ k, k < i + 1 → len < k + d.start.length → ¬ d.At m k := by
        intro k hk hlen
        rcases Nat.lt_or_eq_of_le (Nat.le_of_lt_succ hk) with hk' | rfl
        · exact hno k hk' hlen
        · exact hat
      -- a start word begins here only if the read ends in it, and then nothing completes it
      have hnot : ¬ d.format.start <+: m.slice i (len - i) ++ y := by
        intro hp
        have hlt' : (m.slice i (len - i)).length < d.format.start.length := by
          by_contra hge
          exact hreal (List.prefix_of_prefix_length_le hp (List.prefix_append _ _) (by omega))
        obtain ⟨-, hcuts⟩ := cuts_of_prefix hp (by rw [hcons]; exact List.cons_ne_nil _ _) hlt'
        obtain ⟨k, hk, hlen, hat'⟩ := hgood _ hcuts
        rw [Mem.length_slice] at hk
        exact hno' k (by omega) hlen hat'
      rw [hcons] at hgood hreal
      rw [hcons, List.cons_append] at hc hnot
      exact ih (fun j hj => hgood j (hj.cons hreal)) hno' (hc.tail hnot)

/-- A frame cut in its start word is lost when nothing completes the start word. -/
theorem Parses.weight_lt (h : d.Parses m len i fs e) {y : List UInt8} {j : ℕ}
    (hcuts : Cuts d.format (m.slice i (len - i)) y j) (hbad : ¬ d.Completes m len j)
    {gs : List (List UInt8)} (hc : Carries d.format gs (m.slice i (len - i) ++ y)) :
    fs.flatten.length + (frames d.format (m.slice e (len - e) ++ y)).flatten.length <
      (frames d.format (m.slice i (len - i) ++ y)).flatten.length := by
  induction h generalizing gs with
  | done =>
      obtain ⟨h0, hj, fs, u, -, hu, -⟩ := hcuts
      have := congrArg List.length hu
      simp only [List.length_append, List.length_take, Nat.sub_self, Mem.slice_zero,
        List.length_nil] at this
      omega
  | @opened i hlt hat hcr =>
      exfalso
      have hstop : d.format.stop ∉ m.slice i (len - i) :=
        notMem_slice (fun k hk hk' => crOffset_eq_none hcr k hk (by omega))
      rcases Nat.lt_or_ge len (i + d.start.length) with hshort | hfull
      · obtain ⟨h0, hj, fs, u, -, hu, -⟩ := hcuts
        have := congrArg List.length hu
        simp only [List.length_append, List.length_take, Mem.length_slice] at this
        exact hbad ⟨i, by omega, hshort, hat⟩
      · exact not_cuts_of_prefix (hat.prefix_slice (by omega)) hstop hcuts
  | @frame i cr e fs hlt hat hcr hp ih =>
      obtain ⟨heq, hinitial, hstop⟩ := frame_split hat hcr
      rw [heq, cuts_append_iff hinitial hstop] at hcuts
      rw [heq, List.append_assoc, List.cons_append] at hc
      obtain ⟨gs₁, rfl, hc₁⟩ := (carries_append_iff hinitial hstop).mp hc
      have := ih hcuts hc₁
      rw [heq, List.append_assoc, List.cons_append, frames_of_prefix hinitial hstop,
        List.flatten_cons, List.flatten_cons, List.length_append, List.length_append]
      omega
  | @pass i e fs hlt hat hp ih =>
      have hcons := slice_eq_cons (m := m) hlt
      have hreal : ¬ d.format.start <+: m.slice i (len - i) := fun h => hat (at_of_start h)
      rw [hcons] at hcuts hreal hc ⊢
      rw [List.cons_append] at hc ⊢
      by_cases hne : m i :: m.slice (i + 1) (len - (i + 1)) = d.format.start.take j
      · -- the start word begins here
        obtain ⟨-, -, fs', u, -, -, hy⟩ := hcuts
        have hp' : d.format.start <+: m i :: (m.slice (i + 1) (len - (i + 1)) ++ y) := by
          rw [← List.cons_append, hne]
          obtain ⟨r, rfl⟩ := hy
          exact ⟨r, by rw [← List.append_assoc, List.take_append_drop]⟩
        obtain ⟨b, fs'', l', heq, -⟩ := hc.of_prefix hp'
        have hmem : d.format.stop ∈ m.slice (i + 1) (len - (i + 1)) ++ y := by
          have htail := congrArg List.tail heq
          rw [List.tail_cons, List.tail_append_of_ne_nil d.format.start_ne_nil] at htail
          rw [htail]
          simp
        exact (hp.weight_le y).trans_lt (weight_frames_lt hp' hmem)
      · have hgap := hcuts.not_prefix hreal hne
        exact (ih (hcuts.tail hreal hne) (hc.tail hgap)).trans_le (weight_frames_le _ _)

end

/-! ### A run -/

open RecvLoop (leftover)

/-- The receive buffer when the parser is called for the read `r`. -/
def buffered (s : RecvState (List UInt8)) (r : List UInt8) : Mem :=
  s.receiveBuffer.store s.receiveSize r

/-- A read that cuts a frame in its start word leaves it in a buffer that completes the word;
`rest` is what comes after the read. -/
def Keeps (s : RecvState (List UInt8)) (r rest : List UInt8) : Prop :=
  ∀ j, Cuts d.format (leftover s ++ r) rest j →
    d.Completes (buffered s r) (s.receiveSize + r.length) j

section
variable {d} {s s' : RecvState (List UInt8)} {r rest : List UInt8} {es : List (List UInt8)}

theorem slice_buffered (s : RecvState (List UInt8)) (r : List UInt8) :
    (buffered s r).slice 0 (s.receiveSize + r.length - 0) = leftover s ++ r := by
  have h := s.receiveBuffer.slice_store_append 0 s.receiveSize r
  rwa [Nat.zero_add] at h

/-- A read that stays below the size of the buffer is parsed. -/
theorem receive_parses (hr : r ≠ []) (hfit : s.receiveSize + r.length < bufferSize) :
    ∃ s' fs e, d.receive s r = some s' ∧
      d.Parses (buffered s r) (s.receiveSize + r.length) 0 fs e ∧ s'.calls = s.calls ++ fs ∧
      leftover s' = (buffered s r).slice e (s.receiveSize + r.length - e) := by
  have hpos := List.length_pos_of_ne_nil hr
  obtain ⟨fs, e, hp, hparse⟩ := exists_parsed d (buffered s r)
    (show 0 < s.receiveSize + r.length by omega) s.parsingSize
  obtain ⟨-, he⟩ := hp.bounds (Nat.zero_le _)
  unfold receive
  rw [if_neg (by omega), if_neg (by omega), if_neg (by omega)]
  rw [show s.receiveBuffer.store s.receiveSize r = buffered s r from rfl, hparse]
  rw [if_pos ⟨by push_cast; omega, by push_cast; omega⟩]
  refine ⟨_, fs, e, rfl, hp, rfl, ?_⟩
  have hstore := ((buffered s r).clear 0 40).slice_store 0
    ((buffered s r).slice e (s.receiveSize + r.length - e))
  rw [Mem.length_slice] at hstore
  unfold leftover
  rwa [show (((s.receiveSize + r.length : ℕ) : ℤ) - (e : ℕ)).toNat = s.receiveSize + r.length - e by
    omega]

/-- A read that keeps what it cuts hands on the next frames. -/
theorem receive_of_keeps (hr : r ≠ []) (hfit : s.receiveSize + r.length < bufferSize)
    (hc : Carries d.format es (leftover s ++ (r ++ rest))) (hk : d.Keeps s r rest) :
    ∃ s' fs es', d.receive s r = some s' ∧ s'.calls = s.calls ++ fs ∧ es = fs ++ es' ∧
      d.format.stop ∉ leftover s' ∧ Carries d.format es' (leftover s' ++ rest) := by
  obtain ⟨s', fs, e, hs', hp, hcalls, hleft⟩ := receive_parses (d := d) hr hfit
  rw [← List.append_assoc, ← slice_buffered] at hc
  unfold Keeps at hk
  rw [← slice_buffered] at hk
  obtain ⟨es', rfl, hc'⟩ := hp.carries hk (fun k hk => absurd hk (Nat.not_lt_zero k)) hc
  exact ⟨s', fs, es', hs', hcalls, rfl, by rw [hleft]; exact hp.stop_notMem, by rwa [hleft]⟩

theorem receive_weight_le (hr : r ≠ []) (hfit : s.receiveSize + r.length < bufferSize)
    (hs' : d.receive s r = some s') (rest : List UInt8) :
    ∃ fs, s'.calls = s.calls ++ fs ∧
      fs.flatten.length + (frames d.format (leftover s' ++ rest)).flatten.length ≤
        (frames d.format (leftover s ++ (r ++ rest))).flatten.length := by
  obtain ⟨s₁, fs, e, hs₁, hp, hcalls, hleft⟩ := receive_parses (d := d) hr hfit
  obtain rfl := Option.some.inj (hs'.symm.trans hs₁)
  have := hp.weight_le rest
  rw [slice_buffered, ← hleft, List.append_assoc] at this
  exact ⟨fs, hcalls, this⟩

/-- A read that does not keep what it cuts loses frame bytes. -/
theorem receive_weight_lt (hr : r ≠ []) (hfit : s.receiveSize + r.length < bufferSize)
    (hc : Carries d.format es (leftover s ++ (r ++ rest))) (hk : ¬ d.Keeps s r rest)
    (hs' : d.receive s r = some s') :
    ∃ fs, s'.calls = s.calls ++ fs ∧
      fs.flatten.length + (frames d.format (leftover s' ++ rest)).flatten.length <
        es.flatten.length := by
  obtain ⟨s₁, fs, e, hs₁, hp, hcalls, hleft⟩ := receive_parses (d := d) hr hfit
  obtain rfl := Option.some.inj (hs'.symm.trans hs₁)
  unfold Keeps at hk
  simp only [not_forall] at hk
  obtain ⟨j, hcuts, hbad⟩ := hk
  rw [← List.append_assoc, ← slice_buffered] at hc
  rw [← slice_buffered] at hcuts
  have := hp.weight_lt hcuts hbad hc
  rw [hc.frames_eq, ← hleft] at this
  exact ⟨fs, hcalls, this⟩

end

/-- Over a whole run, the frames delivered weigh no more than those of the text. -/
theorem run_weight_le : ∀ {reads : List (List UInt8)} {s s' : RecvState (List UInt8)},
    (∀ r ∈ reads, r ≠ []) → d.Fits s reads → d.receiver.run s reads = some s' →
    ∃ fs, s'.calls = s.calls ++ fs ∧
      fs.flatten.length ≤ (frames d.format (leftover s ++ reads.flatten)).flatten.length
  | [], s, s', _, _, h => by
      cases Option.some.inj h
      exact ⟨[], by simp⟩
  | r :: reads, s, s', hne, hfit, h => by
      rw [Receiver.run_cons] at h
      obtain ⟨s₁, h₁, h₂⟩ := Option.bind_eq_some_iff.mp h
      obtain ⟨fs₁, hcalls₁, hle₁⟩ :=
        receive_weight_le (hne r List.mem_cons_self) hfit.1 h₁ reads.flatten
      obtain ⟨fs₂, hcalls₂, hle₂⟩ :=
        run_weight_le (fun r' h' => hne r' (List.mem_cons_of_mem r h')) (hfit.2 s₁ h₁) h₂
      refine ⟨fs₁ ++ fs₂, by rw [hcalls₂, hcalls₁, List.append_assoc], ?_⟩
      rw [List.flatten_append, List.length_append, List.flatten_cons]
      omega

/-- The frames of a text come out exactly when every read keeps what it cuts. -/
theorem run_iff : ∀ {reads : List (List UInt8)} {s : RecvState (List UInt8)}
    {es : List (List UInt8)}, (∀ r ∈ reads, r ≠ []) → d.Fits s reads →
    d.format.stop ∉ leftover s → Carries d.format es (leftover s ++ reads.flatten) →
    ((∃ s', d.receiver.run s reads = some s' ∧ s'.calls = s.calls ++ es) ↔
      ∀ pre r post, reads = pre ++ r :: post → ∀ s', d.receiver.run s pre = some s' →
        d.Keeps s' r post.flatten)
  | [], s, es, _, _, hstop, hc => by
      have hes : es = [] := by
        rw [← hc.frames_eq]
        exact frames_of_notMem _ (by simpa using hstop)
      subst hes
      exact iff_of_true ⟨s, rfl, (List.append_nil _).symm⟩ forall_split_nil
  | r :: reads, s, es, hne, hfit, hstop, hc => by
      have hr := hne r List.mem_cons_self
      have hne' : ∀ r' ∈ reads, r' ≠ [] := fun r' h' => hne r' (List.mem_cons_of_mem r h')
      by_cases hk : d.Keeps s r reads.flatten
      · obtain ⟨s₁, fs, es', h₁, hcalls, rfl, hstop₁, hc₁⟩ := receive_of_keeps hr hfit.1 hc hk
        have ih := run_iff hne' (hfit.2 s₁ h₁) hstop₁ hc₁
        have hread : d.receiver.read s r = some s₁ := h₁
        rw [Receiver.run_cons_of_read _ hread, ← List.append_assoc, ← hcalls, ih, forall_split_cons]
        simp only [Receiver.run_nil, Option.some.injEq, forall_eq',
          Receiver.run_cons_of_read _ hread, hk, true_and]
      · constructor
        · rintro ⟨s', hrun, hcalls⟩
          exfalso
          rw [Receiver.run_cons] at hrun
          obtain ⟨s₁, h₁, h₂⟩ := Option.bind_eq_some_iff.mp hrun
          obtain ⟨fs₁, hcalls₁, hlt⟩ := receive_weight_lt hr hfit.1 hc hk h₁
          obtain ⟨fs₂, hcalls₂, hle⟩ := d.run_weight_le hne' (hfit.2 s₁ h₁) h₂
          have hes : fs₁ ++ fs₂ = es := by
            rw [hcalls₂, hcalls₁, List.append_assoc] at hcalls
            exact List.append_cancel_left hcalls
          rw [← hes, List.flatten_append, List.length_append] at hlt
          omega
        · intro hall
          exact absurd (hall [] r reads rfl s rfl) hk

/-- **When the frames come out**: read in pieces that stay below the size of the buffer, the
frames of a text are handed on each once and in order exactly when no read cuts a frame in its
start word, unless the bytes behind the read complete the word in the buffer. -/
theorem run_frames_iff (receiveBuffer : Mem) (es reads : List (List UInt8))
    (hne : ∀ r ∈ reads, r ≠ []) (hfit : d.Fits (RecvState.start receiveBuffer) reads)
    (h : Carries d.format es reads.flatten) :
    (∃ s, d.receiver.run (RecvState.start receiveBuffer) reads = some s ∧ s.calls = es) ↔
      ∀ pre r post, reads = pre ++ r :: post → ∀ s,
        d.receiver.run (RecvState.start receiveBuffer) pre = some s →
          ∀ j, Cuts d.format (leftover s ++ r) post.flatten j →
            d.Completes (buffered s r) (s.receiveSize + r.length) j := by
  have hcarries : Carries d.format es
      (leftover (RecvState.start receiveBuffer : RecvState (List UInt8)) ++ reads.flatten) := by
    simpa using h
  simpa [RecvState.start, Keeps] using d.run_iff hne hfit (by simp) hcarries

/-- A frame without fields, cut behind the second byte of its start word. -/
def cutFrame : List (List UInt8) := [[0x22, 0x3A], [0x22, 0x2C, 0x33, 0x33, 0x0D, 0x0A]]

theorem carries_cutFrame : Carries plcs10.format [plcs10.start] cutFrame.flatten := by
  have hquiet : ∀ l : List UInt8, l.length < 6 → ¬ plcs10.format.start <:+: l :=
    fun l hl h => absurd h.length_le (by change ¬ 6 ≤ l.length; omega)
  exact .frame (b := []) (l := [0x0A]) (hquiet [] (by decide)) (by decide)
    (.gap (hquiet [0x0A] (by decide)))

theorem run_frames_cut :
    (∃ s, plcs10.receiver.run (RecvState.start fun _ => 0) cutFrame = some s ∧
        s.calls = [plcs10.start]) ↔
      ∀ pre r post, cutFrame = pre ++ r :: post → ∀ s,
        plcs10.receiver.run (RecvState.start fun _ => 0) pre = some s →
          ∀ j, Cuts plcs10.format (leftover s ++ r) post.flatten j →
            plcs10.Completes (buffered s r) (s.receiveSize + r.length) j :=
  run_frames_iff plcs10 (fun _ => 0) [plcs10.start] cutFrame (by decide) (by decide)
    carries_cutFrame

/-- The frame is lost. -/
theorem run_frames_lost : ¬ ∀ (d : Plcs) (receiveBuffer : Mem)
    (es reads : List (List UInt8)), (∀ r ∈ reads, r ≠ []) →
    d.Fits (RecvState.start receiveBuffer) reads → Carries d.format es reads.flatten →
    ∃ s, d.receiver.run (RecvState.start receiveBuffer) reads = some s ∧ s.calls = es := by
  intro h
  obtain ⟨s, hr, hs⟩ := h plcs10 (fun _ => 0) [plcs10.start] cutFrame (by decide) (by decide)
    carries_cutFrame
  have hlost : (plcs10.receiver.run (RecvState.start fun _ => 0) cutFrame).map RecvState.calls =
      some [] := by decide
  rw [hr, Option.map_some, hs] at hlost
  revert hlost
  decide

end Plcs
end IdcuIot.Driver
