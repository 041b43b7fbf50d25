import IdcuIot.Driver.IdcuReceive
import IdcuIot.IoTManager.Serial
import IdcuIot.SetupManager.Commands

/-! # Parsers and the bytes behind the input

A parser is called for the first `len` bytes of a buffer, and behind these lies what earlier reads
left there.  The test for a frame reads on: its length byte may be the first byte that was not
received, and its last byte lies as far behind as the length byte says.

IoTManager asks for all bytes of a frame and so keeps to its input (`uart_staysInside`).  M2MManager
and SetupManager ask for three bytes too few, and the driver of iDCU_IoT does not ask at all;
`pack_staysInside_iff` and `reply_staysInside_iff` say on which inputs they keep to it all the
same. -/

namespace IdcuIot

open Memory Scan

namespace Parser

variable {κ : Type} (P : Parser κ)

/-- The frames that the scan of the first `len` bytes cuts. -/
def cuts (cvalue : Mem) (len : ℕ) : List Cut :=
  (Scan.run (P.probe cvalue len) (fun c cs => cs ++ [c]) len []).1

/-- A parser keeps to the first `len` bytes: the frames it hands on lie in them, bytes behind them
change nothing, and it returns what lies behind the last frame. -/
structure StaysInside (cut : κ → Cut) (setBuffer cvalue : Mem) (len : ℕ) : Prop where
  inside : ∀ k ∈ (P.parsingReceiveValue setBuffer cvalue len 0).calls, (cut k).stop ≤ len
  own : ∀ cvalue', Mem.AgreeBelow len cvalue cvalue' →
    P.parsingReceiveValue setBuffer cvalue' len 0 = P.parsingReceiveValue setBuffer cvalue len 0
  bounds : 0 ≤ (P.parsingReceiveValue setBuffer cvalue len 0).remainSize ∧
    (P.parsingReceiveValue setBuffer cvalue len 0).remainSize ≤ len
  behind : (P.parsingReceiveValue setBuffer cvalue len 0).remainSize =
    len - lastStop 0 ((P.parsingReceiveValue setBuffer cvalue len 0).calls.map cut)
  remainder : (P.parsingReceiveValue setBuffer cvalue len 0).remainder =
    (cvalue.slice 0 len).drop
      (lastStop 0 ((P.parsingReceiveValue setBuffer cvalue len 0).calls.map cut))

variable {P} {m m' : Mem} {len : ℕ} {cs : List Cut}

theorem cuts_eq (adv : Advances (P.probe m len)) {h : Bool}
    (hs : Scans (P.probe m len) len 0 cs h) : P.cuts m len = cs := by
  unfold cuts Scan.run
  rw [loop_snoc adv hs]

theorem callsOf_congr (hcall : ∀ before setBuffer c, P.call m' before setBuffer c =
      P.call m before setBuffer c) (hm : Mem.AgreeBelow len m m') :
    ∀ (cs : List Cut), (∀ c ∈ cs, c.stop ≤ len) → ∀ setBuffer : Mem,
      P.callsOf m' setBuffer cs = P.callsOf m setBuffer cs
  | [], _, _ => rfl
  | c :: cs, hin, setBuffer => by
      obtain ⟨hc, hin⟩ := List.forall_mem_cons.mp hin
      have hcopy : P.copy m' c setBuffer = P.copy m c setBuffer := by
        unfold copy Mem.memcpy
        rw [Mem.slice_congr (fun k hk => (hm (c.start + P.header + k) ?_).symm)]
        unfold Cut.stop at hc
        omega
      rw [callsOf, callsOf, hcopy, hcall, callsOf_congr hcall hm cs hin]

/-- A parser whose scan is decided by the bytes received keeps to them. -/
theorem staysInside_of_scans {cut : κ → Cut}
    (hcut : ∀ m before setBuffer c, cut (P.call m before setBuffer c) = c)
    (hcall : ∀ m m' before setBuffer c, P.call m' before setBuffer c =
      P.call m before setBuffer c)
    (adv : ∀ m, Advances (P.probe m len))
    (hown : ∀ m', Mem.AgreeBelow len m m' → Scans (P.probe m' len) len 0 cs false)
    (hin : ∀ c ∈ cs, c.stop ≤ len) (setBuffer : Mem) : P.StaysInside cut setBuffer m len := by
  have hs := hown m (fun _ _ => rfl)
  have hlast : lastStop 0 cs ≤ len := lastStop_le_of_forall hin (Nat.zero_le len)
  have hcalls : (P.callsOf m setBuffer cs).map cut = cs := by
    have hmap : (P.callsOf m setBuffer cs).map cut = cs.map id :=
      P.map_callsOf (fun before c => hcut m before _ c) cs setBuffer
    rwa [List.map_id] at hmap
  have hparsed : P.parsingReceiveValue setBuffer m len 0 =
      ⟨P.callsOf m setBuffer cs, len - lastStop 0 cs,
        m.slice (lastStop 0 cs) (len - lastStop 0 cs), P.overruns cs⟩ := by
    rw [P.parsingReceiveValue_eq (adv m) hs, if_neg Bool.false_ne_true, endOf_zero,
      Int.toNat_natCast, ← Nat.cast_sub hlast, Int.toNat_natCast]
  constructor
  · intro k hk
    rw [hparsed] at hk
    have hmem := List.mem_map_of_mem (f := cut) hk
    rw [hcalls] at hmem
    exact hin _ hmem
  · intro m' hm
    rw [hparsed, P.parsingReceiveValue_eq (adv m') (hown m' hm), if_neg Bool.false_ne_true,
      endOf_zero, Int.toNat_natCast, ← Nat.cast_sub hlast, Int.toNat_natCast,
      callsOf_congr (hcall m m') hm cs hin]
    rw [Mem.slice_congr (fun k hk => hm (lastStop 0 cs + k) (by omega))]
  · rw [hparsed]
    dsimp only
    omega
  · rw [hparsed]
    dsimp only
    rw [hcalls]
  · rw [hparsed]
    dsimp only
    rw [hcalls, Mem.slice_drop m 0 hlast, Nat.zero_add]

end Parser

/-! ### The test for a frame -/

section
variable {m m' : Mem} {n i : ℕ}

/-- Asking for three bytes, or where it makes no difference, the test reads the bytes received. -/
theorem frameProbe_congr {need : ℕ} (hneed : need ≤ 3) (hm : Mem.AgreeBelow n m m') (hi : i < n)
    (h : m i = 0xFE → need < 3 → i + 1 < n ∧ (i + ((m (i + 1)).toNat + need) ≤ n →
      i + ((m (i + 1)).toNat + 3) ≤ n)) :
    frameProbe need m' n i = frameProbe 3 m n i := by
  unfold frameProbe
  rw [← hm i hi]
  by_cases h0 : m i = 0xFE
  · rw [if_pos h0, if_pos h0]
    by_cases h1 : i + 1 < n
    · rw [← hm (i + 1) h1]
      by_cases h3 : i + ((m (i + 1)).toNat + 3) ≤ n
      · rw [← hm (i + ((m (i + 1)).toNat + 2)) (by omega)]
        simp only [show i + ((m (i + 1)).toNat + need) ≤ n by omega, h3]
      · have hno : ¬ i + ((m (i + 1)).toNat + need) ≤ n := by
          intro hle
          rcases Nat.lt_or_ge need 3 with hlt | hge
          · exact h3 ((h h0 hlt).2 hle)
          · omega
        rw [if_neg (fun hc => hno hc.1), if_neg (fun hc => h3 hc.1)]
    · -- the length byte has not arrived
      have hneed3 : need = 3 := by
        by_contra hne
        exact h1 (h h0 (by omega)).1
      rw [if_neg (fun hc => by omega), if_neg (fun hc => by omega)]
  · rw [if_neg h0, if_neg h0]

/-- The test of IoTManager does not look at the bytes that were not received. -/
theorem frameProbe_three_congr (hm : Mem.AgreeBelow n m m') (hi : i < n) :
    frameProbe 3 m' n i = frameProbe 3 m n i :=
  frameProbe_congr le_rfl hm hi (fun _ h => absurd h (lt_irrefl 3))

theorem scans_three_congr (hm : Mem.AgreeBelow n m m') {cs : List Cut} {b : Bool}
    (hs : Scans (frameProbe 3 m n) n 0 cs b) : Scans (frameProbe 3 m' n) n 0 cs b :=
  hs.congr (fun _ hj => frameProbe_three_congr hm hj.lt)

theorem stop_le_of_scans_three {cs : List Cut} {b : Bool}
    (hs : Scans (frameProbe 3 m n) n 0 cs b) : ∀ c ∈ cs, c.stop ≤ n := by
  intro c hc
  obtain ⟨-, -, step, hp⟩ := hs.hit_of_mem c hc
  obtain ⟨-, hle, -, hsize, -⟩ := frameProbe_eq_hit.mp hp
  unfold Cut.stop
  omega

end

/-! ### IoTManager -/

namespace IoTManager

/-- Where the frame of a call lies. -/
def UartCall.cut (c : UartCall) : Cut := ⟨c.start, c.size⟩

/-- **The serial side of IoTManager keeps to the bytes received**: the frames it cuts are disjoint,
in order and each of the form `FE`, `L`, …, `FF`; they lie in the bytes received, what was not
received changes nothing, and what is left over begins behind the last of them. -/
theorem uart_staysInside (setBuffer cvalue : Mem) (len : ℕ) :
    uartParser.StaysInside UartCall.cut setBuffer cvalue len ∧
      (uartParsingReceiveValue setBuffer cvalue len 0).calls.Pairwise
        (fun c c' => c.cut.stop ≤ c'.cut.start) ∧
      ∀ c ∈ (uartParsingReceiveValue setBuffer cvalue len 0).calls,
        ∃ f : Frame, f.bytes = cvalue.slice c.start c.size := by
  have adv : ∀ m, Advances (uartParser.probe m len) := fun m => uartParser_advances m len
  obtain ⟨cs, hs⟩ := exists_scan_of_ne_halt (adv cvalue) (fun _ => frameProbe_ne_halt) len 0
  have hcut : ∀ before c, UartCall.cut (uartParser.call cvalue before
    (uartParser.copy cvalue c before) c) = id c := fun _ _ => rfl
  have hcalls := uartParser.map_callsOf hcut cs setBuffer
  have hparsed : (uartParsingReceiveValue setBuffer cvalue len 0).calls =
      uartParser.callsOf cvalue setBuffer cs := by
    unfold uartParsingReceiveValue
    rw [uartParser.parsingReceiveValue_eq (adv cvalue) hs, if_neg Bool.false_ne_true]
  refine ⟨?_, ?_, ?_⟩
  · exact Parser.staysInside_of_scans (fun _ _ _ _ => rfl) (fun _ _ _ _ _ => rfl) adv
      (fun m' hm => scans_three_congr hm hs) (stop_le_of_scans_three hs) setBuffer
  · have hpair := hs.pairwise (adv cvalue)
    rw [← List.map_id cs, ← hcalls, List.pairwise_map] at hpair
    rw [hparsed]
    exact hpair
  · intro c hc
    rw [hparsed] at hc
    obtain ⟨cut, hmem, before, rfl⟩ := uartParser.exists_of_mem_callsOf hc
    obtain ⟨-, -, step, hp⟩ := hs.hit_of_mem cut hmem
    obtain ⟨h0, -, h2, hsize, -⟩ := frameProbe_eq_hit.mp hp
    obtain ⟨f, hf⟩ := exists_frame h0 h2
    refine ⟨f, hf.trans ?_⟩
    change _ = cvalue.slice cut.start cut.size
    rw [hsize]

end IoTManager

/-! ### M2MManager and SetupManager -/

namespace M2MManager

/-- Where the frame of a call lies. -/
def PackCall.cut (c : PackCall) : Cut := ⟨c.start, c.size⟩

/-- No frame is in doubt: behind a start byte that the scan comes to the length byte has arrived,
and the bytes it asks for have arrived with the check byte and the end byte or are not there. -/
def Decided (cvalue : Mem) (len : ℕ) : Prop :=
  ∀ i, Visits (frameProbe 3 cvalue len) len 0 i → cvalue i = 0xFE →
    i + 1 < len ∧ (i + (cvalue (i + 1)).toNat ≤ len → i + ((cvalue (i + 1)).toNat + 3) ≤ len)

section
variable {m : Mem} {len : ℕ}

/-- A frame in doubt is completed by some bytes that were not received. -/
theorem exists_hit {i : ℕ} (hi : i < len) (h0 : m i = 0xFE) (h : ¬ (i + 1 < len ∧
    (i + (m (i + 1)).toNat ≤ len → i + ((m (i + 1)).toNat + 3) ≤ len))) :
    ∃ m', Mem.AgreeBelow len m m' ∧ ∃ size, frameProbe 0 m' len i = .hit size size ∧
      len < i + size := by
  by_cases h1 : i + 1 < len
  · -- the last byte is missing
    have hle : i + (m (i + 1)).toNat ≤ len := by
      by_contra hgt
      exact h ⟨h1, fun hle => absurd hle hgt⟩
    have hlt : len < i + ((m (i + 1)).toNat + 3) := by
      by_contra hge
      exact h ⟨h1, fun _ => by omega⟩
    have hm := Mem.agreeBelow_update (show len ≤ i + ((m (i + 1)).toNat + 2) by omega) m 0xFF
    refine ⟨_, hm, (m (i + 1)).toNat + 3, frameProbe_eq_hit.mpr ?_, by omega⟩
    rw [← hm i hi, ← hm (i + 1) h1]
    exact ⟨h0, by omega, Function.update_self _ _ _, rfl, rfl⟩
  · -- the length byte is missing, too
    obtain rfl : len = i + 1 := by omega
    have hm := Mem.agreeBelow_update (le_refl (i + 1)) m 0x00
    have hm' := Mem.agreeBelow_update (Nat.le_succ (i + 1)) (Function.update m (i + 1) 0x00) 0xFF
    refine ⟨_, fun j hj => (hm j hj).trans (hm' j hj), 3, frameProbe_eq_hit.mpr ?_, by omega⟩
    have h1' : Function.update (Function.update m (i + 1) 0x00) (i + 1).succ 0xFF (i + 1) = 0x00 := by
      rw [Function.update_of_ne (by omega), Function.update_self]
    rw [← hm' i hi, ← hm i hi, h1']
    exact ⟨h0, by simp, Function.update_self _ _ _, rfl, rfl⟩

/-- From a frame in doubt on, some bytes that were not received make the parser cut a frame that was
not received. -/
theorem exists_cut_behind {i j : ℕ} (hv : Visits (frameProbe 3 m len) len i j)
    (h0 : m j = 0xFE) (h : ¬ (j + 1 < len ∧
      (j + (m (j + 1)).toNat ≤ len → j + ((m (j + 1)).toNat + 3) ≤ len))) :
    ∃ m', Mem.AgreeBelow len m m' ∧ ∃ cs, Scans (frameProbe 0 m' len) len i cs false ∧
      ∃ c ∈ cs, len < c.stop := by
  have here : ∀ {i : ℕ}, i < len → m i = 0xFE → ¬ (i + 1 < len ∧
      (i + (m (i + 1)).toNat ≤ len → i + ((m (i + 1)).toNat + 3) ≤ len)) →
      ∃ m', Mem.AgreeBelow len m m' ∧ ∃ cs, Scans (frameProbe 0 m' len) len i cs false ∧
        ∃ c ∈ cs, len < c.stop := by
    intro i hi h0 h
    obtain ⟨m', hm, size, hp, hlt⟩ := exists_hit hi h0 h
    exact ⟨m', hm, [⟨i, size⟩], .hit hi hp (.done (by omega)), _, List.mem_singleton_self _, hlt⟩
  induction hv with
  | here hi => exact here hi h0 h
  | @pass i j hi hp _ ih =>
      by_cases hd : m i = 0xFE → 0 < 3 → i + 1 < len ∧
        (i + ((m (i + 1)).toNat + 0) ≤ len → i + ((m (i + 1)).toNat + 3) ≤ len)
      · obtain ⟨m', hm, cs, hs, hc⟩ := ih h0 h
        exact ⟨m', hm, cs, .pass hi ((frameProbe_congr (Nat.zero_le 3) hm hi hd).trans hp) hs, hc⟩
      · rw [Classical.not_imp] at hd
        exact here hi hd.1 (fun hok => hd.2 (fun _ => hok))
  | @hit i j size step hi hp _ ih =>
      by_cases hd : m i = 0xFE → 0 < 3 → i + 1 < len ∧
        (i + ((m (i + 1)).toNat + 0) ≤ len → i + ((m (i + 1)).toNat + 3) ≤ len)
      · obtain ⟨m', hm, cs, hs, c, hc, hlt⟩ := ih h0 h
        exact ⟨m', hm, _, .hit hi ((frameProbe_congr (Nat.zero_le 3) hm hi hd).trans hp) hs, c,
          List.mem_cons_of_mem _ hc, hlt⟩
      · rw [Classical.not_imp] at hd
        exact here hi hd.1 (fun hok => hd.2 (fun _ => hok))

theorem calls_cut (setBuffer m : Mem) (len : ℕ) {cs : List Cut}
    (hs : Scans (frameProbe 0 m len) len 0 cs false) :
    (parser.parsingReceiveValue setBuffer m len 0).calls.map PackCall.cut = cs := by
  have hcut : ∀ before c, PackCall.cut (parser.call m before (parser.copy m c before) c) = id c :=
    fun _ _ => rfl
  rw [parser.parsingReceiveValue_eq (parser_advances m len) hs, if_neg Bool.false_ne_true,
    parser.map_callsOf hcut, List.map_id]

/-- **When M2MManager and SetupManager keep to the bytes received**: exactly when no frame is in
doubt. -/
theorem pack_staysInside_iff (setBuffer cvalue : Mem) (len : ℕ) :
    (parser.StaysInside PackCall.cut setBuffer cvalue len ∧
      SetupManager.parser.StaysInside PackCall.cut setBuffer cvalue len) ↔ Decided cvalue len := by
  change (parser.StaysInside PackCall.cut setBuffer cvalue len ∧
    parser.StaysInside PackCall.cut setBuffer cvalue len) ↔ _
  rw [and_self_iff]
  have adv : ∀ m, Advances (parser.probe m len) := fun m => parser_advances m len
  constructor
  · intro h i hv h0
    by_contra hd
    obtain ⟨m', hm, cs, hs, c, hc, hlt⟩ := exists_cut_behind hv h0 hd
    -- the frame that was not received is not handed on, as the input decides
    have hcalls := calls_cut setBuffer m' len hs
    rw [h.own m' hm] at hcalls
    rw [← hcalls] at hc
    obtain ⟨k, hk, rfl⟩ := List.mem_map.mp hc
    exact absurd (h.inside k hk) (Nat.not_le.mpr hlt)
  · intro hd
    obtain ⟨cs, hs⟩ := exists_scan_of_ne_halt (SetupManager.frameProbe_advances 3 cvalue len)
      (fun _ => frameProbe_ne_halt) len 0
    refine Parser.staysInside_of_scans (fun _ _ _ _ => rfl) (fun _ _ _ _ _ => rfl) adv
      (fun m' hm => ?_) (stop_le_of_scans_three hs) setBuffer
    exact hs.congr (fun j hj => frameProbe_congr (Nat.zero_le 3) hm hj.lt (fun h0 _ => hd j hj h0))

end

/-- A start byte, and behind it two bytes that an earlier read left there. -/
def startByte : Mem := Mem.store (fun _ => 0) 0 [0xFE, 0x00, 0xFF]

theorem pack_staysInside_wrong : ¬ ∀ (setBuffer cvalue : Mem) (len : ℕ),
    parser.StaysInside PackCall.cut setBuffer cvalue len ∧
      SetupManager.parser.StaysInside PackCall.cut setBuffer cvalue len := by
  intro h
  have hbounds := (h (fun _ => 0) startByte 1).1.bounds
  have hsize : (parser.parsingReceiveValue (fun _ => 0) startByte 1 0).remainSize = -2 := by decide
  rw [hsize] at hbounds
  omega

end M2MManager

/-! ### iDCU_IoT -/

namespace Driver

/-- The driver keeps to its two buffers: every payload fits into `byteBuffer` and lies in the bytes
received, and the length returned is that of bytes received. -/
def ReplyInside (byteBuffer cvalue : Mem) (len : ℕ) (remainSize : ℤ) : Prop :=
  (∀ c ∈ parser.cuts cvalue len,
      c.size - parser.header ≤ 64 ∧ c.start + parser.header + (c.size - parser.header) ≤ len) ∧
    0 ≤ (parsingReceiveValue byteBuffer cvalue len remainSize).remainSize ∧
    (parsingReceiveValue byteBuffer cvalue len remainSize).remainSize ≤ len

/-- Behind every marker that the scan comes to and whose two lengths agree lie at most 64 bytes, and
they have arrived; and where there is no marker at all, `remainSize` is the length of bytes
received. -/
def Carried (cvalue : Mem) (len : ℕ) (remainSize : ℤ) : Prop :=
  (∀ i, Visits (replyProbe cvalue) len 0 i → Marker cvalue i →
      (cvalue (i + 5)).toNat = (cvalue (i + 8)).toNat + 3 →
      (cvalue (i + 8)).toNat ≤ 64 ∧ i + 9 + (cvalue (i + 8)).toNat ≤ len) ∧
    ((∀ i < len, ¬ Marker cvalue i) → 0 ≤ remainSize ∧ remainSize ≤ len)

section
variable {byteBuffer cvalue : Mem} {len : ℕ} {remainSize : ℤ} {cs : List Cut} {b : Bool}

/-- The payloads that are copied, by what their packets say. -/
theorem cuts_inside_iff (hs : Scans (replyProbe cvalue) len 0 cs b) :
    (∀ c ∈ cs, c.size - parser.header ≤ 64 ∧
        c.start + parser.header + (c.size - parser.header) ≤ len) ↔
      ∀ i, Visits (replyProbe cvalue) len 0 i → Marker cvalue i →
        (cvalue (i + 5)).toNat = (cvalue (i + 8)).toNat + 3 →
        (cvalue (i + 8)).toNat ≤ 64 ∧ i + 9 + (cvalue (i + 8)).toNat ≤ len := by
  have hheader : parser.header = 9 := rfl
  rw [hheader]
  constructor
  · intro hin i hv hm h58
    have hc := hin _ (hv.mem_of_hit (replyProbe_eq_hit.mpr ⟨hm, h58, rfl, rfl⟩) hs)
    dsimp only at hc
    omega
  · intro hin c hc
    obtain ⟨hv, step, hp⟩ := hs.visits_of_mem c hc
    obtain ⟨hm, h58, hsize, -⟩ := replyProbe_eq_hit.mp hp
    have hpayload := hin c.start hv hm h58
    omega

theorem cuts_eq_nil_iff (hs : Scans (replyProbe cvalue) len 0 cs b) :
    (∀ i < len, ¬ Marker cvalue i) ↔ cs = [] ∧ b = false := by
  constructor
  · intro hno
    have hnil : Scans (replyProbe cvalue) len 0 [] false :=
      scans_of_pass len 0 (by omega) (fun j _ hj => replyProbe_eq_pass.mpr (hno j hj))
    exact hs.unique hnil
  · rintro ⟨rfl, rfl⟩ i hi
    exact replyProbe_eq_pass.mp (hs.pass_of_nil i (Nat.zero_le i) hi)

/-- The length that is returned, when what is cut has arrived. -/
theorem remainSize_inside_iff (hs : Scans (replyProbe cvalue) len 0 cs b)
    (hin : ∀ c ∈ cs, c.stop ≤ len) :
    (0 ≤ (parsingReceiveValue byteBuffer cvalue len remainSize).remainSize ∧
        (parsingReceiveValue byteBuffer cvalue len remainSize).remainSize ≤ len) ↔
      ((∀ i < len, ¬ Marker cvalue i) → 0 ≤ remainSize ∧ remainSize ≤ len) := by
  have hsize : (parsingReceiveValue byteBuffer cvalue len remainSize).remainSize =
      if b then 0 else len - Parser.endOf remainSize cs := by
    unfold parsingReceiveValue
    rw [parser.parsingReceiveValue_eq (replyProbe_advances cvalue) hs]
    split_ifs <;> rfl
  have hlast : lastStop 0 cs ≤ len := lastStop_le_of_forall hin (Nat.zero_le len)
  rw [hsize, cuts_eq_nil_iff hs]
  cases b with
  | true => simp
  | false =>
      rw [if_neg Bool.false_ne_true]
      by_cases hnil : cs = []
      · subst hnil
        rw [Parser.endOf_nil]
        constructor
        · intro hbounds _
          omega
        · intro hbounds
          have := hbounds ⟨rfl, rfl⟩
          omega
      · rw [Parser.endOf_of_ne_nil remainSize 0 hnil]
        refine iff_of_true ⟨by omega, by omega⟩ (fun h => absurd h.1 hnil)

end

/-- **When the driver keeps to its buffers**: exactly when the lengths in its input are those of bytes
that it can hold and has got. -/
theorem reply_staysInside_iff (byteBuffer cvalue : Mem) (len : ℕ) (remainSize : ℤ) :
    ReplyInside byteBuffer cvalue len remainSize ↔ Carried cvalue len remainSize := by
  have adv := replyProbe_advances cvalue
  obtain ⟨cs, b, hs⟩ := exists_scan adv len 0
  unfold ReplyInside Carried
  rw [show parser.cuts cvalue len = cs from Parser.cuts_eq adv hs, ← cuts_inside_iff hs]
  refine and_congr_right (fun hin => remainSize_inside_iff hs (fun c hc => ?_))
  -- what is copied is the frame behind its header
  obtain ⟨-, hle⟩ := hin c hc
  unfold Cut.stop
  omega

/-- A marker whose lengths agree on 252 bytes, of which none has arrived. -/
def longReply : Mem :=
  Mem.store (fun _ => 0) 0 [0x01, 0x02, 0x00, 0x00, 0x00, 0xFF, 0x01, 0x04, 0xFC]

theorem reply_staysInside_wrong : ¬ ∀ (byteBuffer cvalue : Mem) (len : ℕ) (remainSize : ℤ),
    ReplyInside byteBuffer cvalue len remainSize := by
  intro h
  have hin := (h (fun _ => 0) longReply 9 0).1 ⟨0, 261⟩ (by decide)
  exact absurd hin.1 (by decide)

end Driver
end IdcuIot
