import IdcuIot.IoTManager.OwnBytes
import IdcuIot.Lib.Loop

/-! # UartManager: the serial side

`ParsingReceiveValue` of UartManager is that of IoTManager with the counts taken where the frame is
accepted.  The loop that takes them runs over the index of the scan and leaves `8` there: behind an
accepted frame the scan goes on from index `9`, over bytes it has been through.  What it accepts
there it accepts again and again, so that the scan does not end (`returns_iff_acceptsOnce`).

The counts are put together without shifts; `storedAlike_iff` says for which reports IoTManager
stores the same ones. -/

namespace IdcuIot.UartManager

open Memory Scan Loop

/-- `BUFFER_SIZE` in `CommManager.h`. -/
def bufferSize : ℕ := 1024

/-- `_getCheckSum`: the sum of `buffer[1]`, …, `buffer[len-3]` in an `unsigned char`. -/
def getCheckSum (buffer : Mem) (len : ℕ) : UInt8 := (buffer.slice 1 (len - 3)).sum

/-- The count whose four bytes begin at `cntOffset`: the bytes are put on top of each other. -/
def cntAt (buffer : Mem) (cntOffset : ℕ) : UInt32 :=
  (buffer cntOffset).toUInt32 ||| (buffer (cntOffset + 1)).toUInt32 |||
    (buffer (cntOffset + 2)).toUInt32 ||| (buffer (cntOffset + 3)).toUInt32

/-- The inner loop: `node`. -/
def nodeOf (buffer : Mem) : MGData := ⟨fun i => cntAt buffer (4 + 6 * i)⟩

/-- Locals of the parser, and the nodes it has passed to `_sqlite3_update`. -/
structure Locals where
  i : ℕ
  setBuffer : Mem
  remainSize : ℤ
  nodes : List MGData

/-- The copy of a frame into `setBuffer`. -/
def put (cvalue : Mem) (c : Cut) (setBuffer : Mem) : Mem := setBuffer.memcpy 0 cvalue c.start c.size

/-- The sum taken up to index `stop` is the byte two places before it. -/
def SumRight (setBuffer : Mem) (stop : ℕ) : Prop := getCheckSum setBuffer stop = setBuffer (stop - 2)

instance (setBuffer : Mem) (stop : ℕ) : Decidable (SumRight setBuffer stop) :=
  inferInstanceAs (Decidable (_ = _))

/-- A frame whose sum does not come out right: the index moves behind it. -/
def Locals.skip (cvalue : Mem) (c : Cut) (s : Locals) : Locals :=
  { s with i := c.stop, setBuffer := put cvalue c s.setBuffer, remainSize := c.stop }

/-- A frame whose sum comes out right: the inner loop leaves `8` in `i`. -/
def Locals.accept (cvalue : Mem) (c : Cut) (s : Locals) : Locals :=
  let setBuffer := put cvalue c s.setBuffer
  { i := 8 + 1
    setBuffer := setBuffer
    remainSize := c.stop
    nodes := s.nodes ++ [nodeOf setBuffer] }

/-- The loop body and the `i++` behind it. -/
def body (cvalue : Mem) (len : ℕ) (s : Locals) : Locals :=
  match frameProbe 3 cvalue len s.i with
  | .hit size _ =>
      let c : Cut := ⟨s.i, size⟩
      if SumRight (put cvalue c s.setBuffer) c.stop then s.accept cvalue c else s.skip cvalue c
  | _ => { s with i := s.i + 1 }

/-- The loop `for( i = 0; i < len; i++ )`. -/
def next (cvalue : Mem) (len : ℕ) (s : Locals) : Option Locals :=
  if s.i < len then some (body cvalue len s) else none

/-- The locals when the loop begins. -/
def entry (setBuffer : Mem) (remainSize : ℤ) : Locals := ⟨0, setBuffer, remainSize, []⟩

/-- Outcome of the parser: the nodes it has passed on, the length it returns, and the bytes it put
into `remainder`. -/
structure Parsed where
  nodes : List MGData
  remainSize : ℤ
  remainder : List UInt8

/-- `ParsingReceiveValue`; `none` when `fuel` rounds of the loop are not enough. -/
def parsingReceiveValue (fuel : ℕ) (setBuffer cvalue : Mem) (len : ℕ) (remainSize : ℤ) :
    Option Parsed :=
  (Loop.run (next cvalue len) fuel (entry setBuffer remainSize)).map (fun s : Locals =>
    let remainSize : ℤ := len - s.remainSize
    ⟨s.nodes, remainSize, cvalue.slice s.remainSize.toNat remainSize.toNat⟩)

/-- The parser returns. -/
def Returns (setBuffer cvalue : Mem) (len : ℕ) (remainSize : ℤ) : Prop :=
  ∃ fuel, (parsingReceiveValue fuel setBuffer cvalue len remainSize).isSome

theorem returns_iff {setBuffer cvalue : Mem} {len : ℕ} {remainSize : ℤ} :
    Returns setBuffer cvalue len remainSize ↔
      Terminates (next cvalue len) (entry setBuffer remainSize) := by
  simp only [Returns, Terminates, parsingReceiveValue, Option.isSome_map, Option.isSome_iff_exists]

/-! ### Passes -/

/-- The frames that lie one behind the other from index `i` on. -/
def framesFrom (cvalue : Mem) (len i : ℕ) : List Cut :=
  (Scan.loop (frameProbe 3 cvalue len) (fun c cs => cs ++ [c]) len len i []).1

/-- `setBuffer` with the first frame whose sum comes out right, over what the ones before it and the
buffer left behind it. -/
def firstAccepted (cvalue : Mem) : Mem → List Cut → Option Mem
  | _, [] => none
  | setBuffer, c :: cs =>
      if SumRight (put cvalue c setBuffer) c.stop then some (put cvalue c setBuffer)
      else firstAccepted cvalue (put cvalue c setBuffer) cs

/-- The scan accepts no frame, or none of those from index `9` on over what the first one left in
`setBuffer`. -/
def AcceptsOnce (setBuffer cvalue : Mem) (len : ℕ) : Prop :=
  ∀ after ∈ firstAccepted cvalue setBuffer (framesFrom cvalue len 0),
    firstAccepted cvalue after (framesFrom cvalue len 9) = none

section
variable {cvalue : Mem} {len : ℕ}

theorem scans_framesFrom (cvalue : Mem) (len i : ℕ) :
    Scans (frameProbe 3 cvalue len) len i (framesFrom cvalue len i) false := by
  have adv : Advances (frameProbe 3 cvalue len) := IoTManager.uartParser_advances cvalue len
  obtain ⟨cs, hs⟩ := exists_scan_of_ne_halt adv (fun _ => frameProbe_ne_halt) len i
  have hcs : framesFrom cvalue len i = cs := congrArg Prod.fst (loop_snoc adv hs)
  rwa [hcs]

theorem put_apply_of_lt (c : Cut) (m m' : Mem) {k : ℕ} (hk : k < c.size) :
    put cvalue c m k = put cvalue c m' k := by
  unfold put Mem.memcpy
  rw [Mem.store_zero _ (by rwa [Mem.length_slice]), Mem.store_zero _ (by rwa [Mem.length_slice])]

theorem put_apply_of_le (c : Cut) (m : Mem) {k : ℕ} (hk : c.size ≤ k) :
    put cvalue c m k = m k := by
  unfold put Mem.memcpy
  exact m.store_of_le (by rwa [Mem.length_slice, Nat.zero_add])

/-- Over a buffer that is partly as it was before a pass and partly as it is afterwards, the pass
accepts a frame again. -/
theorem firstAccepted_again {cs : List Cut} {before after : Mem}
    (h : firstAccepted cvalue before cs = some after) {m : Mem}
    (hm : ∀ k, m k = before k ∨ m k = after k) : ∃ again, firstAccepted cvalue m cs = some again := by
  induction cs generalizing before m with
  | nil => cases h
  | cons c cs ih =>
      unfold firstAccepted at h ⊢
      by_cases hnow : SumRight (put cvalue c m) c.stop
      · exact ⟨_, if_pos hnow⟩
      rw [if_neg hnow]
      by_cases hright : SumRight (put cvalue c before) c.stop
      · rw [if_pos hright] at h
        cases h
        -- the two copies are the same
        have heq : put cvalue c m = put cvalue c before := by
          funext k
          rcases Nat.lt_or_ge k c.size with hk | hk
          · exact put_apply_of_lt c m before hk
          · have hk' := hm k
            rw [put_apply_of_le c before hk, or_self_iff] at hk'
            rw [put_apply_of_le c m hk, put_apply_of_le c before hk, hk']
        rw [heq] at hnow
        exact absurd hright hnow
      · rw [if_neg hright] at h
        apply ih h
        intro k
        rcases Nat.lt_or_ge k c.size with hk | hk
        · exact Or.inl (put_apply_of_lt c m before hk)
        · rw [put_apply_of_le c m hk, put_apply_of_le c before hk]
          exact hm k

theorem next_of_le {s : Locals} (h : len ≤ s.i) : next cvalue len s = none :=
  if_neg (Nat.not_lt.mpr h)

theorem next_of_pass {s : Locals} (hlt : s.i < len) (hp : frameProbe 3 cvalue len s.i = .pass) :
    next cvalue len s = some { s with i := s.i + 1 } := by
  simp only [next, if_pos hlt, body, hp]

theorem next_of_hit {s : Locals} (hlt : s.i < len) {size step : ℕ}
    (hp : frameProbe 3 cvalue len s.i = .hit size step) :
    next cvalue len s = some (if SumRight (put cvalue ⟨s.i, size⟩ s.setBuffer) (s.i + size)
      then s.accept cvalue ⟨s.i, size⟩ else s.skip cvalue ⟨s.i, size⟩) := by
  simp only [next, if_pos hlt, body, hp]
  rfl

theorem step_eq_size {i size step : ℕ} (hp : frameProbe 3 cvalue len i = .hit size step) :
    step = size := by
  obtain ⟨-, -, -, h1, h2⟩ := frameProbe_eq_hit.mp hp
  exact h2.trans h1.symm

theorem steps_of_none {i : ℕ} {cs : List Cut} (hs : Scans (frameProbe 3 cvalue len) len i cs false)
    {s : Locals} (hi : s.i = i) (h : firstAccepted cvalue s.setBuffer cs = none) :
    ∃ n t, Steps (next cvalue len) n s t ∧ next cvalue len t = none ∧ t.nodes = s.nodes := by
  generalize hb : false = b at hs
  induction hs generalizing s with
  | done hle =>
      subst hi
      exact ⟨0, s, rfl, next_of_le hle, rfl⟩
  | pass hlt hp _ ih =>
      subst hi
      obtain ⟨n, t, hsteps, hend, hnodes⟩ := ih (s := { s with i := s.i + 1 }) rfl h hb
      exact ⟨n + 1, t, ⟨_, next_of_pass hlt hp, hsteps⟩, hend, hnodes⟩
  | @hit i size step cs b hlt hp _ ih =>
      subst hi
      obtain rfl := step_eq_size hp
      have hnext := next_of_hit hlt hp
      change (if SumRight (put cvalue ⟨s.i, step⟩ s.setBuffer) (s.i + step) then _ else _) = _ at h
      split_ifs at h hnext
      obtain ⟨n, t, hsteps, hend, hnodes⟩ := ih (s := s.skip cvalue ⟨s.i, step⟩) rfl h hb
      exact ⟨n + 1, t, ⟨_, hnext, hsteps⟩, hend, hnodes⟩
  | halt => cases hb

theorem steps_of_some {i : ℕ} {cs : List Cut} (hs : Scans (frameProbe 3 cvalue len) len i cs false)
    {s : Locals} (hi : s.i = i) {after : Mem}
    (h : firstAccepted cvalue s.setBuffer cs = some after) :
    ∃ n t, 0 < n ∧ Steps (next cvalue len) n s t ∧ t.i = 9 ∧ t.setBuffer = after := by
  generalize hb : false = b at hs
  induction hs generalizing s with
  | done => cases h
  | pass hlt hp _ ih =>
      subst hi
      obtain ⟨n, t, -, hsteps, ht⟩ := ih (s := { s with i := s.i + 1 }) rfl h hb
      exact ⟨n + 1, t, Nat.succ_pos n, ⟨_, next_of_pass hlt hp, hsteps⟩, ht⟩
  | @hit i size step cs b hlt hp _ ih =>
      subst hi
      obtain rfl := step_eq_size hp
      have hnext := next_of_hit hlt hp
      change (if SumRight (put cvalue ⟨s.i, step⟩ s.setBuffer) (s.i + step) then _ else _) = _ at h
      split_ifs at h hnext with hright
      · cases h
        exact ⟨1, _, Nat.one_pos, Steps.one hnext, rfl, rfl⟩
      · obtain ⟨n, t, -, hsteps, ht⟩ := ih (s := s.skip cvalue ⟨s.i, step⟩) rfl h hb
        exact ⟨n + 1, t, Nat.succ_pos n, ⟨_, hnext, hsteps⟩, ht⟩
  | halt => cases hb

theorem not_terminates_of_accepted {s : Locals} (hi : s.i = 9) {after : Mem}
    (h : firstAccepted cvalue s.setBuffer (framesFrom cvalue len 9) = some after) :
    ¬ Terminates (next cvalue len) s := by
  apply not_terminates_of_recurs (I := fun s => s.i = 9 ∧
    ∃ after, firstAccepted cvalue s.setBuffer (framesFrom cvalue len 9) = some after) _ ⟨hi, after, h⟩
  rintro s ⟨hi, after, h⟩
  obtain ⟨n, t, hn, hsteps, ht, hafter⟩ := steps_of_some (scans_framesFrom cvalue len 9) hi h
  refine ⟨n, t, hn, hsteps, ht, ?_⟩
  rw [hafter]
  exact firstAccepted_again h (fun _ => Or.inr rfl)

end

/-- **When the parser returns**: exactly when it does not accept one frame, and then another one from
index `9` on. -/
theorem returns_iff_acceptsOnce (setBuffer cvalue : Mem) (len : ℕ) (remainSize : ℤ) :
    Returns setBuffer cvalue len remainSize ↔ AcceptsOnce setBuffer cvalue len := by
  rw [returns_iff]
  have hscan := scans_framesFrom cvalue len 0
  cases h : firstAccepted cvalue setBuffer (framesFrom cvalue len 0) with
  | none =>
      obtain ⟨n, t, hsteps, hend, -⟩ := steps_of_none hscan (s := entry setBuffer remainSize) rfl h
      refine iff_of_true (terminates_of_steps hsteps hend) (fun after hafter => ?_)
      rw [h] at hafter
      cases hafter
  | some after =>
      obtain ⟨n, t, -, hsteps, ht, hafter⟩ :=
        steps_of_some hscan (s := entry setBuffer remainSize) rfl h
      rw [hsteps.terminates_iff]
      constructor
      · intro hterm after' hafter'
        rw [h] at hafter'
        cases hafter'
        by_contra hne
        obtain ⟨again, hagain⟩ := Option.ne_none_iff_exists'.mp hne
        exact not_terminates_of_accepted ht (by rwa [hafter]) hterm
      · intro honce
        obtain ⟨k, u, hsteps', hend, -⟩ := steps_of_none (scans_framesFrom cvalue len 9) ht
          (by rw [hafter]; exact honce after h)
        exact terminates_of_steps hsteps' hend

/-- Two frames whose own sums are right. -/
def twoFrames : Mem :=
  Mem.store (fun _ => 0) 0
    [0xFE, 0x06, 0x01, 0x00, 0x00, 0x00, 0x00, 0x07, 0xFF, 0xFE, 0x05, 0x7C, 0x00, 0x00, 0x00, 0x81,
      0xFF]

theorem returns_wrong : ¬ ∀ (setBuffer cvalue : Mem) (len : ℕ) (remainSize : ℤ), len ≤ bufferSize →
    Returns setBuffer cvalue len remainSize := by
  intro h
  have hright : SumRight (put twoFrames ⟨0, 9⟩ (fun _ => 0)) (0 + 9) := by decide
  have hright' : SumRight (put twoFrames ⟨9, 8⟩ (put twoFrames ⟨0, 9⟩ (fun _ => 0))) (9 + 8) := by
    decide
  have hnext := next_of_hit (s := entry (fun _ => 0) 0) (show 0 < 17 by decide)
    (show frameProbe 3 twoFrames 17 0 = .hit 9 9 by decide)
  rw [if_pos (by exact hright)] at hnext
  have hterm := returns_iff.mp (h (fun _ => 0) twoFrames 17 0 (by decide))
  rw [(Steps.one hnext).terminates_iff] at hterm
  have hagain : firstAccepted twoFrames (put twoFrames ⟨0, 9⟩ (fun _ => 0))
      (framesFrom twoFrames 17 9) =
        some (put twoFrames ⟨9, 8⟩ (put twoFrames ⟨0, 9⟩ (fun _ => 0))) := by
    rw [show framesFrom twoFrames 17 9 = [⟨9, 8⟩] by decide]
    exact if_pos hright'
  exact not_terminates_of_accepted rfl hagain hterm

/-! ### The counts of a report -/

/-- The bytes received are one report: `FE`, a length, TLVs with counts, the right sum and `FF`. -/
structure IsReport (cvalue : Mem) (len : ℕ) : Prop where
  first : cvalue 0 = 0xFE
  length : len = (cvalue 1).toNat + 3
  last : cvalue (len - 1) = 0xFF
  sum : (cvalue.slice 1 (len - 3)).sum = cvalue (len - 2)
  counts : cvalue 2 ≠ 1
  whole : 76 ≤ len

/-- UartManager stores one node for the report, first of all and, when it returns, alone; and in
every state IoTManager sets the same counts from it. -/
def StoredAlike (setBuffer cvalue : Mem) (len : ℕ) (remainSize : ℤ) : Prop :=
  ∃ node : MGData,
    (∀ n t, 0 < n → Steps (next cvalue len) n (entry setBuffer remainSize) t →
      t.nodes.head? = some node) ∧
    (∀ fuel p, parsingReceiveValue fuel setBuffer cvalue len remainSize = some p →
      p.nodes = [node]) ∧
    ∀ (s s' : IoTManager.State) (r : IoTManager.Report), Mem.AgreeBelow len cvalue r.buffer →
      IoTManager.receiveEvent s r = some s' → s'.node = node

/-- Every count of a report is below 256: its three high bytes are zero. -/
def SmallCounts (cvalue : Mem) : Prop :=
  ∀ i : Fin 8, cvalue (4 + 6 * i) = 0 ∧ cvalue (4 + 6 * i + 1) = 0 ∧ cvalue (4 + 6 * i + 2) = 0

section
variable {cvalue setBuffer : Mem} {len : ℕ} {remainSize : ℤ}

theorem nodeOf_congr {m m' : Mem} (h : Mem.AgreeBelow 74 m m') : nodeOf m = nodeOf m' := by
  refine congrArg MGData.mk (funext fun i => ?_)
  unfold cntAt
  rw [h _ (by omega), h _ (by omega), h _ (by omega), h _ (by omega)]

/-- Bytes put on top of each other and bytes put behind each other are the same number when only the
last one is there. -/
theorem or_eq_ofBytes_iff (b3 b2 b1 b0 : UInt8) :
    b3.toUInt32 ||| b2.toUInt32 ||| b1.toUInt32 ||| b0.toUInt32 = Words.ofBytes b3 b2 b1 b0 ↔
      b3 = 0 ∧ b2 = 0 ∧ b1 = 0 := by
  constructor
  · intro h
    have hnat := congrArg UInt32.toNat h
    have hor : b3.toNat ||| b2.toNat ||| b1.toNat ||| b0.toNat < 2 ^ 8 :=
      Nat.or_lt_two_pow (Nat.or_lt_two_pow (Nat.or_lt_two_pow b3.toNat_lt b2.toNat_lt) b1.toNat_lt)
        b0.toNat_lt
    rw [Words.toNat_ofBytes] at hnat
    simp only [UInt32.toNat_or, UInt8.toNat_toUInt32] at hnat
    rw [hnat] at hor
    refine ⟨?_, ?_, ?_⟩ <;> apply UInt8.toNat.inj <;> rw [UInt8.toNat_zero] <;> omega
  · rintro ⟨rfl, rfl, rfl⟩
    apply UInt32.toNat.inj
    rw [Words.toNat_ofBytes]
    simp

/-- The two programs take the same counts from bytes in which these are small. -/
theorem nodeOf_eq_iff : nodeOf cvalue = IoTManager.nodeOf cvalue ↔ SmallCounts cvalue := by
  have hone : ∀ i : Fin 8, cntAt cvalue (4 + 6 * i) = IoTManager.cntAt cvalue (4 + 6 * i) ↔
      cvalue (4 + 6 * i) = 0 ∧ cvalue (4 + 6 * i + 1) = 0 ∧ cvalue (4 + 6 * i + 2) = 0 := by
    intro i
    rw [IoTManager.cntAt_eq]
    exact or_eq_ofBytes_iff _ _ _ _
  constructor
  · intro h i
    exact (hone i).mp (congrFun (congrArg MGData.cnt h) i)
  · intro h
    exact congrArg MGData.mk (funext fun i => (hone i).mpr (h i))

/-- IoTManager sets the counts of the report, whatever becomes of its transaction. -/
theorem node_of_receiveEvent {s s' : IoTManager.State} {r : IoTManager.Report}
    (hcounts : r.buffer 2 ≠ 1) (h : IoTManager.receiveEvent s r = some s') :
    s'.node = IoTManager.nodeOf r.buffer := by
  unfold IoTManager.receiveEvent at h
  rw [if_neg hcounts] at h
  obtain ⟨db, -, rfl⟩ := Option.map_eq_some_iff.mp h
  rfl

theorem put_zero_apply {k : ℕ} (hk : k < len) : put cvalue ⟨0, len⟩ setBuffer k = cvalue k := by
  unfold put Mem.memcpy
  rw [Mem.store_zero _ (by rwa [Mem.length_slice]), Mem.getElem_slice, Nat.zero_add]

variable (setBuffer remainSize) in
theorem next_of_isReport (h : IsReport cvalue len) :
    next cvalue len (entry setBuffer remainSize) =
      some ((entry setBuffer remainSize).accept cvalue ⟨0, len⟩) := by
  obtain ⟨hfirst, hlen, hlast, hsum, -, hwhole⟩ := h
  have hprobe : frameProbe 3 cvalue len 0 = .hit len len := by
    have h1 : (cvalue (0 + 1)).toNat + 3 = len := hlen.symm
    rw [show len - 1 = 0 + ((cvalue (0 + 1)).toNat + 2) by omega] at hlast
    exact frameProbe_eq_hit.mpr ⟨hfirst, by omega, hlast, h1.symm, h1.symm⟩
  have hput : ∀ k < len, put cvalue ⟨0, len⟩ setBuffer k = cvalue k :=
    fun k hk => put_zero_apply hk
  have hright : SumRight (put cvalue ⟨0, len⟩ setBuffer) (0 + len) := by
    unfold SumRight getCheckSum
    rw [Nat.zero_add, hput (len - 2) (by omega), ← hsum,
      Mem.slice_congr (fun k hk => hput (1 + k) (by omega))]
  have hnext := next_of_hit (s := entry setBuffer remainSize) (show 0 < len by omega) hprobe
  rwa [if_pos (by exact hright)] at hnext

theorem nodeOf_put (hwhole : 76 ≤ len) : nodeOf (put cvalue ⟨0, len⟩ setBuffer) = nodeOf cvalue := by
  apply nodeOf_congr
  exact fun k hk => put_zero_apply (by omega)

theorem head_nodes_of_steps {n : ℕ} {s t : Locals} (h : Steps (next cvalue len) n s t) {node : MGData}
    (hs : s.nodes.head? = some node) : t.nodes.head? = some node := by
  induction n generalizing s with
  | zero =>
      cases h
      exact hs
  | succ n ih =>
      obtain ⟨s', hnext, h⟩ := h
      apply ih h
      unfold next at hnext
      split_ifs at hnext
      cases hnext
      unfold body
      split
      · dsimp only
        split_ifs
        · unfold Locals.accept
          rw [List.head?_append, hs]
          rfl
        · exact hs
      · exact hs

variable (setBuffer remainSize) in
theorem nodes_of_isReport (h : IsReport cvalue len) :
    (∀ n t, 0 < n → Steps (next cvalue len) n (entry setBuffer remainSize) t →
      t.nodes.head? = some (nodeOf cvalue)) ∧
    ∀ fuel p, parsingReceiveValue fuel setBuffer cvalue len remainSize = some p →
      p.nodes = [nodeOf cvalue] := by
  have hnext := next_of_isReport setBuffer remainSize h
  have hnodes : ((entry setBuffer remainSize).accept cvalue ⟨0, len⟩).nodes = [nodeOf cvalue] := by
    unfold Locals.accept entry
    dsimp only
    rw [List.nil_append, nodeOf_put h.whole]
  constructor
  · intro n t hn hsteps
    obtain ⟨n, rfl⟩ := Nat.exists_eq_add_of_lt hn
    rw [Nat.zero_add] at hsteps
    obtain ⟨s', hs', hsteps⟩ := hsteps
    rw [hnext] at hs'
    cases hs'
    exact head_nodes_of_steps hsteps (by rw [hnodes]; rfl)
  · intro fuel p hp
    obtain ⟨t, ht, rfl⟩ := Option.map_eq_some_iff.mp hp
    -- the parser returns, so that it accepts nothing more from index `9` on
    have hterm := (Steps.one hnext).terminates_iff.mp ⟨fuel, t, ht⟩
    have hnone : firstAccepted cvalue ((entry setBuffer remainSize).accept cvalue ⟨0, len⟩).setBuffer
        (framesFrom cvalue len 9) = none := by
      by_contra hne
      obtain ⟨again, hagain⟩ := Option.ne_none_iff_exists'.mp hne
      exact not_terminates_of_accepted rfl hagain hterm
    obtain ⟨n, u, hsteps, hend, hu⟩ := steps_of_none (scans_framesFrom cvalue len 9) rfl hnone
    have hrun := run_eq_some_iff.mpr
      ⟨1 + n, Nat.lt_succ_self _, (Steps.one hnext).trans hsteps, hend⟩
    rw [run_unique ht hrun]
    exact hu.trans hnodes

/-- IoTManager, when it receives the report for the second time, sets the counts and saves nothing. -/
theorem nodeOf_eq_of_storedAlike (h : IsReport cvalue len)
    (halike : StoredAlike setBuffer cvalue len remainSize) :
    nodeOf cvalue = IoTManager.nodeOf cvalue := by
  obtain ⟨hhead, -⟩ := nodes_of_isReport setBuffer remainSize h
  obtain ⟨node, hfirst, -, hevent⟩ := halike
  have hstep := Steps.one (next_of_isReport setBuffer remainSize h)
  have hnode := (hhead 1 _ Nat.one_pos hstep).symm.trans (hfirst 1 _ Nat.one_pos hstep)
  cases hnode
  have hsame := IoTManager.receiveEvent_same
    (s := ⟨⟨fun _ => 0⟩, IoTManager.nodeOf cvalue, fun _ => 0, 0, ⟨⟨[], none⟩, []⟩⟩)
    (r := ⟨cvalue, ⟨⟨.ok, false⟩, ⟨.ok, false⟩, []⟩⟩) h.counts (IoTManager.not_changes_iff.mpr rfl)
  exact (hevent _ _ _ (fun _ _ => rfl) hsame).symm

end

/-- **When the two serial managers decode a report alike**: exactly when all its counts are below
256. -/
theorem storedAlike_iff (setBuffer cvalue : Mem) (len : ℕ) (remainSize : ℤ)
    (h : IsReport cvalue len) :
    StoredAlike setBuffer cvalue len remainSize ↔ SmallCounts cvalue := by
  constructor
  · exact fun halike => nodeOf_eq_iff.mp (nodeOf_eq_of_storedAlike h halike)
  · intro hsmall
    obtain ⟨hhead, halone⟩ := nodes_of_isReport setBuffer remainSize h
    refine ⟨nodeOf cvalue, hhead, halone, ?_⟩
    intro s s' r hr hs'
    have hwhole := h.whole
    have hcounts : r.buffer 2 ≠ 1 := by
      rw [← hr 2 (by omega)]
      exact h.counts
    rw [node_of_receiveEvent hcounts hs', nodeOf_eq_iff.mpr hsmall]
    exact (IoTManager.nodeOf_congr (hr.mono (by omega))).symm

/-- A report whose first count is `256 * high`. -/
def reportOf (high : UInt8) : Mem :=
  Mem.store (fun _ => 0) 0
    ([0xFE, 0x49, 0x00, 0x04, 0x00, 0x00, high] ++ List.replicate 67 0 ++ [0x4D + high, 0xFF])

set_option maxRecDepth 4000 in
theorem isReport_reportOf : IsReport (reportOf 0) 76 ∧ IsReport (reportOf 1) 76 :=
  ⟨⟨by decide, by decide, by decide, by decide, by decide, by decide⟩,
    ⟨by decide, by decide, by decide, by decide, by decide, by decide⟩⟩

theorem storedAlike_zero : StoredAlike (fun _ => 0) (reportOf 0) 76 0 ↔ SmallCounts (reportOf 0) :=
  storedAlike_iff (fun _ => 0) (reportOf 0) 76 0 isReport_reportOf.1

theorem storedAlike_wrong : ¬ ∀ (setBuffer cvalue : Mem) (len : ℕ) (remainSize : ℤ),
    IsReport cvalue len → StoredAlike setBuffer cvalue len remainSize := by
  intro h
  have heq := nodeOf_eq_of_storedAlike isReport_reportOf.2
    (h (fun _ => 0) (reportOf 1) 76 0 isReport_reportOf.2)
  exact absurd (nodeOf_eq_iff.mp heq 0).2.2 (by decide)

end IdcuIot.UartManager
