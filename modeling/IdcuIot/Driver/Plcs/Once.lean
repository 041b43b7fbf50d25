import IdcuIot.Driver.Plcs.Receive

/-! # The PLCS drivers: no frame comes twice

The test for the first bytes of a frame looks past `len`, up to five bytes.  A marker that is found
there makes the parser keep what it would have dropped, and nothing else: a frame ends before a
carriage return, and none is left where the marker begins.  So the frames depend on the bytes
received alone, and each of their bytes is handed on once. -/

namespace IdcuIot.Driver.Plcs

open Memory Scan Reassembly
open RecvLoop (leftover)

variable (d : Plcs)

/-- One call of a parser: the frames are disjoint segments of the bytes received, in order, each from
a marker to a carriage return; what is left over begins behind them; and bytes behind `len` and the
carried `remainSize` do not change them. -/
structure ParsedOnce (cvalue : Mem) (len : ℕ) (remainSize : ℤ) : Prop where
  bounds : 0 ≤ (d.parsingReceiveValue cvalue len remainSize).remainSize ∧
    (d.parsingReceiveValue cvalue len remainSize).remainSize ≤ len
  remainder : (d.parsingReceiveValue cvalue len remainSize).remainder =
    (cvalue.slice 0 len).drop
      (len - (d.parsingReceiveValue cvalue len remainSize).remainSize.toNat)
  placed : ∃ cs : List Cut,
    (d.parsingReceiveValue cvalue len remainSize).frames =
      cs.map (fun c => cvalue.slice c.start c.size) ∧
    cs.Pairwise (fun c c' => c.stop < c'.start) ∧
    ∀ c ∈ cs, c.stop < len ∧ d.start <+: cvalue.slice c.start c.size ∧ cvalue c.stop = 0x0D ∧
      (c.stop : ℤ) < len - (d.parsingReceiveValue cvalue len remainSize).remainSize
  own : ∀ cvalue' remainSize', Mem.AgreeBelow len cvalue cvalue' →
    (d.parsingReceiveValue cvalue' len remainSize').frames =
      (d.parsingReceiveValue cvalue len remainSize).frames

/-- A frame with its carriage return. -/
def ended (frame : List UInt8) : List UInt8 := frame ++ [0x0D]

section
variable {d} {m m' : Mem} {len i e e' : ℕ} {fs fs' : List (List UInt8)}

/-! ### Where the frames lie -/

theorem Parses.exists_cuts (h : d.Parses m len i fs e) (hi : i ≤ len) :
    ∃ cs : List Cut, fs = cs.map (fun c => m.slice c.start c.size) ∧
      cs.Pairwise (fun c c' => c.stop < c'.start) ∧
      ∀ c ∈ cs, i ≤ c.start ∧ c.stop < e ∧ d.start <+: m.slice c.start c.size ∧ m c.stop = 0x0D := by
  induction h with
  | done | opened => exact ⟨[], rfl, .nil, by simp⟩
  | @frame i cr e fs hlt hat hcr hp ih =>
      obtain ⟨h1, h2, hstop, -⟩ := crOffset_eq_some hcr
      obtain ⟨-, hinitial, -⟩ := frame_split hat hcr
      obtain ⟨hle, -⟩ := hp.bounds h2
      obtain ⟨cs, rfl, hpair, hcs⟩ := ih h2
      have hcut : Cut.stop ⟨i, cr - i⟩ = cr := Nat.add_sub_of_le h1
      refine ⟨⟨i, cr - i⟩ :: cs, rfl, .cons (fun c hc => ?_) hpair, ?_⟩
      · rw [hcut]
        exact (hcs c hc).1
      · intro c hc
        rcases List.mem_cons.mp hc with rfl | hc
        · rw [hcut]
          exact ⟨le_rfl, by omega, hinitial, hstop⟩
        · obtain ⟨h3, hrest⟩ := hcs c hc
          exact ⟨by omega, hrest⟩
  | pass hlt _ _ ih =>
      obtain ⟨cs, hfs, hpair, hcs⟩ := ih hlt
      refine ⟨cs, hfs, hpair, fun c hc => ?_⟩
      obtain ⟨h1, hrest⟩ := hcs c hc
      exact ⟨by omega, hrest⟩

/-! ### What the frames depend on -/

theorem crOffset_congr (hm : Mem.AgreeBelow len m m') (i : ℕ) :
    crOffset m' len i = crOffset m len i := by
  unfold crOffset
  refine List.find?_congr (fun k hk => ?_)
  obtain ⟨h1, h2⟩ := List.mem_range'_1.mp hk
  rw [hm k (by omega)]

theorem At.le_of_stop (h : d.At m i) {cr : ℕ} (hle : i ≤ cr) (hcr : m cr = 0x0D) :
    i + d.start.length ≤ cr := by
  by_contra hlt
  exact h.ne_stop hle (by omega) hcr

theorem At.congr (h : d.At m i) (hm : Mem.AgreeBelow len m m') (hle : i + d.start.length ≤ len) :
    d.At m' i := by
  have hslice : m'.slice i d.start.length = m.slice i d.start.length := by
    refine Mem.slice_congr (fun k hk => ?_)
    exact (hm (i + k) (by omega)).symm
  exact hslice.trans h

theorem Parses.eq_nil (h : d.Parses m len i fs e) (hno : ∀ k, i ≤ k → k < len → m k ≠ 0x0D) :
    fs = [] := by
  induction h with
  | done | opened => rfl
  | frame hlt hat hcr =>
      obtain ⟨h1, h2, hstop, -⟩ := crOffset_eq_some hcr
      exact absurd hstop (hno _ h1 h2)
  | pass hlt _ _ ih => exact ih (fun k hk => hno k (by omega))

/-- Where a frame is found in one buffer, it is found in any buffer with the same bytes received. -/
theorem At.of_crOffset (h : d.At m i) (hm : Mem.AgreeBelow len m m') {cr : ℕ}
    (hcr : crOffset m len i = some cr) : d.At m' i ∧ crOffset m' len i = some cr := by
  obtain ⟨h1, h2, hstop, -⟩ := crOffset_eq_some hcr
  have hle := h.le_of_stop h1 hstop
  exact ⟨h.congr hm (by omega), by rw [crOffset_congr hm, hcr]⟩

theorem Parses.frames_congr (h : d.Parses m len i fs e) (hm : Mem.AgreeBelow len m m')
    (h' : d.Parses m' len i fs' e') : fs' = fs := by
  have hm' : Mem.AgreeBelow len m' m := fun k hk => (hm k hk).symm
  induction h generalizing fs' e' with
  | done =>
      cases h' with
      | done => rfl
      | frame hlt | opened hlt | pass hlt => omega
  | @frame i cr e fs hlt hat hcr hp ih =>
      obtain ⟨hat', hcr'⟩ := hat.of_crOffset hm hcr
      obtain ⟨h1, h2, -⟩ := crOffset_eq_some hcr
      cases h' with
      | done => omega
      | frame _ _ hcr'' h'' =>
          rw [hcr'] at hcr''
          cases hcr''
          rw [ih h'', Mem.slice_congr (fun k hk => hm' (i + k) (by omega))]
      | opened _ _ hcr'' => rw [hcr'] at hcr''; cases hcr''
      | pass _ hno => exact absurd hat' hno
  | @opened i hlt hat hcr =>
      -- no carriage return is left, whatever the other buffer takes for a marker
      refine h'.eq_nil (fun k hk hlt' => ?_)
      rw [← hm k hlt']
      exact crOffset_eq_none hcr k hk hlt'
  | @pass i e fs hlt hno hp ih =>
      cases h' with
      | done => omega
      | frame _ hat' hcr' => exact absurd (hat'.of_crOffset hm' hcr').1 hno
      | opened _ _ hcr' =>
          refine (hp.eq_nil (fun k hk hlt' => ?_)).symm
          rw [hm k hlt']
          exact crOffset_eq_none hcr' k (by omega) hlt'
      | pass _ _ h' => exact ih h'

/-! ### Runs -/

/-- One scan: the frames, each with its carriage return, and what is left over lie one behind the
other in the text. -/
theorem Parses.sublist (h : d.Parses m len i fs e) :
    (fs.flatMap ended ++ m.slice e (len - e)).Sublist (m.slice i (len - i)) := by
  induction h with
  | done => simp
  | @frame i cr e fs hlt hat hcr hp ih =>
      obtain ⟨heq, -, -⟩ := frame_split hat hcr
      rw [heq, List.flatMap_cons, ended, List.append_assoc, List.append_assoc]
      exact (ih.cons_cons d.format.stop).append_left _
  | opened => exact List.Sublist.refl _
  | pass hlt _ _ ih =>
      rw [slice_eq_cons hlt]
      exact ih.cons _

/-- One read, also one that is skipped or fills the buffer. -/
theorem receive_sublist {s s' : RecvState (List UInt8)} {r : List UInt8} (hr : r ≠ [])
    (h : d.receive s r = some s') : ∃ fs, s'.calls = s.calls ++ fs ∧
      (fs.flatMap ended ++ leftover s').Sublist (leftover s ++ r) := by
  by_cases hskip : bufferSize ≤ r.length
  · unfold receive at h
    rw [if_pos hskip] at h
    cases h
    exact ⟨[], (List.append_nil _).symm, List.sublist_append_left _ _⟩
  by_cases hfit : s.receiveSize + r.length < bufferSize
  · obtain ⟨s₁, fs, e, hs₁, hp, hcalls, hleft⟩ := receive_parses (d := d) hr hfit
    obtain rfl := Option.some.inj (h.symm.trans hs₁)
    refine ⟨fs, hcalls, ?_⟩
    rw [hleft, ← slice_buffered]
    exact hp.sublist
  · unfold receive at h
    rw [if_neg hskip] at h
    by_cases hover : bufferSize < s.receiveSize + r.length
    · rw [if_pos hover] at h
      cases h
    · -- the buffer is full: all of it is dropped
      rw [if_neg hover, if_pos (Nat.not_lt.mp hfit)] at h
      cases h
      exact ⟨[], (List.append_nil _).symm, List.nil_sublist _⟩

theorem run_sublist : ∀ {reads : List (List UInt8)} {s s' : RecvState (List UInt8)},
    (∀ r ∈ reads, r ≠ []) → d.receiver.run s reads = some s' →
    ∃ fs, s'.calls = s.calls ++ fs ∧
      (fs.flatMap ended ++ leftover s').Sublist (leftover s ++ reads.flatten)
  | [], s, s', _, h => by
      cases Option.some.inj h
      exact ⟨[], (List.append_nil _).symm, by simp⟩
  | r :: reads, s, s', hne, h => by
      rw [Receiver.run_cons] at h
      obtain ⟨s₁, h₁, h₂⟩ := Option.bind_eq_some_iff.mp h
      obtain ⟨fs₁, hcalls₁, hsub₁⟩ := receive_sublist (hne r List.mem_cons_self) h₁
      obtain ⟨fs₂, hcalls₂, hsub₂⟩ :=
        run_sublist (fun r' h' => hne r' (List.mem_cons_of_mem r h')) h₂
      refine ⟨fs₁ ++ fs₂, by rw [hcalls₂, hcalls₁, List.append_assoc], ?_⟩
      rw [List.flatMap_append, List.append_assoc, List.flatten_cons, ← List.append_assoc (leftover s)]
      refine (hsub₂.append_left _).trans ?_
      rw [← List.append_assoc]
      exact hsub₁.append_right _

theorem parsedOnce (d : Plcs) (m : Mem) (hlen : 1 ≤ len) (remainSize : ℤ) :
    d.ParsedOnce m len remainSize := by
  obtain ⟨fs, e, hp, hparsed⟩ := exists_parsed d m hlen remainSize
  obtain ⟨-, hle⟩ := hp.bounds (Nat.zero_le len)
  obtain ⟨cs, hfs, hpair, hcs⟩ := hp.exists_cuts (Nat.zero_le len)
  constructor
  · rw [hparsed]
    dsimp only
    omega
  · rw [hparsed]
    dsimp only
    rw [Mem.slice_drop m 0 (Nat.sub_le _ _), show len - ((len : ℤ) - (e : ℤ)).toNat = e by omega,
      Nat.zero_add]
  · rw [hparsed]
    refine ⟨cs, hfs, hpair, fun c hc => ?_⟩
    obtain ⟨-, hstop, hinitial, hcr⟩ := hcs c hc
    dsimp only
    exact ⟨by omega, hinitial, hcr, by omega⟩
  · intro m' remainSize' hm
    obtain ⟨fs', e', hp', hparsed'⟩ := exists_parsed d m' hlen remainSize'
    rw [hparsed, hparsed']
    exact hp.frames_congr hm hp'

end

/-- **The PLCS parsers neither duplicate nor invent frames**: not in one call, and over any run the
frames handed on, each with its carriage return, lie one behind the other in what was received. -/
theorem frames_once (d : Plcs) :
    (∀ (cvalue : Mem) (len : ℕ) (remainSize : ℤ), 1 ≤ len → d.ParsedOnce cvalue len remainSize) ∧
      ∀ (receiveBuffer : Mem) (reads : List (List UInt8)) (s : RecvState (List UInt8)),
        (∀ r ∈ reads, r ≠ []) → d.receiver.run (.start receiveBuffer) reads = some s →
          (s.calls.flatMap ended).Sublist reads.flatten := by
  refine ⟨fun m len remainSize hlen => parsedOnce d m hlen remainSize, ?_⟩
  intro receiveBuffer reads s hne hrun
  obtain ⟨fs, hcalls, hsub⟩ := run_sublist hne hrun
  change s.calls = [] ++ fs at hcalls
  rw [hcalls, List.nil_append]
  exact (List.sublist_append_left _ _).trans hsub

/-- A marker, and then the carriage return. -/
def twoReads : List (List UInt8) := [[0x22, 0x3A, 0x22, 0x2C, 0x33, 0x33], [0x0D]]

theorem frames_once_twoReads :
    plcs10.ParsedOnce (Mem.store (fun _ => 0) 0 twoReads.flatten) 7 0 ∧
      ∃ s, plcs10.receiver.run (.start (fun _ => 0)) twoReads = some s ∧
        (s.calls.flatMap ended).Sublist twoReads.flatten := by
  have hsome : (plcs10.receiver.run (.start (fun _ => 0)) twoReads).isSome = true := by decide
  obtain ⟨s, hs⟩ := Option.isSome_iff_exists.mp hsome
  exact ⟨(frames_once plcs10).1 _ 7 0 (by decide), s, hs,
    (frames_once plcs10).2 (fun _ => 0) twoReads s (by decide) hs⟩

end IdcuIot.Driver.Plcs
