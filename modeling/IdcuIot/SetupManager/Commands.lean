import IdcuIot.Lib.History
import IdcuIot.M2MManager.Commands

/-! # SetupManager: commands in datagrams

`Socket_Manager` of SetupManager receives datagrams with the loop that M2MManager has for its
connection: what one datagram leaves over is put in front of the next, whoever sends it.
`alone_iff` says in which runs every datagram is handled as if it had come alone. -/

namespace IdcuIot.SetupManager

open Memory Scan Reassembly History M2MManager

/-- The parser, word for word that of M2MManager. -/
def parser : Parser PackCall := M2MManager.parser

/-- `ParsingReceiveValue`. -/
def parsingReceiveValue (setBuffer cvalue : Mem) (len : ℕ) (remainSize : ℤ) : Parsed PackCall :=
  parser.parsingReceiveValue setBuffer cvalue len remainSize

/-- The loop of `Socket_Manager`, with the tests of that of M2MManager. -/
def socketManager : RecvLoop PackCall := M2MManager.socketManager

/-- The frames that lie in some bytes. -/
def framesIn (l : List UInt8) : List (List UInt8) :=
  let m := Mem.store (fun _ => 0) 0 l
  (Scan.run (frameProbe 3 m l.length) (fun c cs => cs ++ [c]) l.length []).1.map
    (fun c => m.slice c.start c.size)

/-- The commands in a datagram; one that fills the buffer is thrown away. -/
def commandsIn (l : List UInt8) : List (List UInt8) :=
  if bufferSize ≤ l.length then [] else framesIn l

/-- A datagram is handled on its own: `Pack_Manager` is called for the commands in it, and for
nothing that begins in the bytes left over. -/
def Alone (s : RecvState PackCall) (d : Read) : Prop :=
  ∃ s' new, socketManager.receive s d = some s' ∧ s'.calls = s.calls ++ new ∧
    new.map PackCall.frame = commandsIn d.data ∧ ∀ c ∈ new, s.receiveSize ≤ c.start

/-- A datagram is thrown away, or fits behind bytes left over in which no frame begins, and the
frames found in it end in it. -/
def Clean (s : RecvState PackCall) (d : Read) : Prop :=
  bufferSize ≤ d.data.length ∨ s.receiveSize + d.data.length ≤ bufferSize ∧
    (∀ i < s.receiveSize, frameProbe 0 (RecvLoop.buffered s d)
      (s.receiveSize + d.data.length) i = .pass) ∧
    ∀ cs, Scans (frameProbe 0 (RecvLoop.buffered s d) (s.receiveSize + d.data.length))
        (s.receiveSize + d.data.length) s.receiveSize cs false →
      ∀ c ∈ cs, c.stop ≤ s.receiveSize + d.data.length

section
variable {s s' : RecvState PackCall} {d : Read}

theorem frameProbe_advances (need : ℕ) (m : Mem) (n : ℕ) : Advances (frameProbe need m n) := by
  intro i size step hp
  obtain ⟨-, -, -, hsize, hstep⟩ := frameProbe_eq_hit.mp hp
  omega

theorem framesIn_eq {l : List UInt8} {cs : List Cut}
    (h : Scans (frameProbe 3 (Mem.store (fun _ => 0) 0 l) l.length) l.length 0 cs false) :
    framesIn l = cs.map (fun c => (Mem.store (fun _ => 0) 0 l).slice c.start c.size) := by
  unfold framesIn Scan.run
  dsimp only
  rw [loop_snoc (frameProbe_advances 3 _ _) h]

theorem buffered_add {i : ℕ} (hi : i < d.data.length) :
    RecvLoop.buffered s d (s.receiveSize + i) = Mem.store (fun _ => 0) 0 d.data i := by
  unfold RecvLoop.buffered
  rw [Mem.store_add _ _ hi, Mem.store_zero _ hi]

theorem frameProbe_behind {i size step : ℕ}
    (hp : frameProbe 3 (Mem.store (fun _ => 0) 0 d.data) d.data.length i = .hit size step) :
    frameProbe 0 (RecvLoop.buffered s d) (s.receiveSize + d.data.length) (s.receiveSize + i) =
      .hit size step := by
  obtain ⟨h0, hle, h2, hsize, hstep⟩ := frameProbe_eq_hit.mp hp
  have h1 := buffered_add (s := s) (d := d) (i := i + 1) (by omega)
  rw [← buffered_add (s := s) (by omega)] at h0 h2
  rw [← h1] at hle h2 hsize hstep
  rw [← Nat.add_assoc] at h2
  refine frameProbe_eq_hit.mpr ⟨h0, ?_, h2, hsize, hstep⟩
  change s.receiveSize + i + ((RecvLoop.buffered s d (s.receiveSize + (i + 1))).toNat + 0) ≤ _
  omega

/-- A frame found behind the bytes left over lies in the datagram if it ends there. -/
theorem frameProbe_alone {i size step : ℕ}
    (hp : frameProbe 0 (RecvLoop.buffered s d) (s.receiveSize + d.data.length)
      (s.receiveSize + i) = .hit size step)
    (hle : s.receiveSize + i + size ≤ s.receiveSize + d.data.length) :
    frameProbe 3 (Mem.store (fun _ => 0) 0 d.data) d.data.length i = .hit size step := by
  obtain ⟨h0, -, h2, hsize, hstep⟩ := frameProbe_eq_hit.mp hp
  have h1 := buffered_add (s := s) (d := d) (i := i + 1) (by omega)
  rw [Nat.add_assoc] at h2
  rw [show s.receiveSize + i + 1 = s.receiveSize + (i + 1) from rfl, h1] at h2 hsize hstep
  rw [buffered_add (by omega)] at h0 h2
  exact frameProbe_eq_hit.mpr ⟨h0, by omega, h2, hsize, hstep⟩

/-- The frames found behind the bytes left over are those in the datagram when all of them end in
it. -/
theorem framesIn_of_scans {cs : List Cut}
    (hs : Scans (frameProbe 0 (RecvLoop.buffered s d) (s.receiveSize + d.data.length))
      (s.receiveSize + d.data.length) s.receiveSize cs false)
    (hin : ∀ c ∈ cs, c.stop ≤ s.receiveSize + d.data.length) :
    framesIn d.data = cs.map (fun c => (RecvLoop.buffered s d).slice c.start c.size) := by
  have hback : Scans (frameProbe 3 (Mem.store (fun _ => 0) 0 d.data) d.data.length) d.data.length 0
      (cs.map (Cut.back s.receiveSize)) false := by
    refine hs.back (fun i hi hp => ?_) (fun i size step => frameProbe_alone) hin 0 rfl
    cases hp' : frameProbe 3 (Mem.store (fun _ => 0) 0 d.data) d.data.length i with
    | pass => rfl
    | halt => exact absurd hp' frameProbe_ne_halt
    | hit size step =>
        rw [frameProbe_behind hp'] at hp
        cases hp
  rw [framesIn_eq hback, List.map_map]
  apply List.map_congr_left
  intro c hc
  have hstart := (hs.hit_of_mem c hc).1
  have hstop := hin c hc
  unfold Cut.stop at hstop
  change Mem.slice _ (c.start - s.receiveSize) c.size = _
  apply List.map_congr_left
  intro k hk
  have hlt := List.mem_range.mp hk
  rw [← buffered_add (s := s) (by omega)]
  exact congrArg _ (by omega)

theorem exists_scans (s : RecvState PackCall) (d : Read) (i : ℕ) : ∃ cs,
    Scans (frameProbe 0 (RecvLoop.buffered s d) (s.receiveSize + d.data.length))
      (s.receiveSize + d.data.length) i cs false :=
  exists_scan_of_ne_halt (frameProbe_advances 0 _ _) (fun _ => frameProbe_ne_halt) _ i

/-- A datagram that is handled on its own fits, no frame begins in the bytes left over, and none
runs on behind the datagram. -/
theorem clean_of_alone (hskip : ¬ bufferSize ≤ d.data.length) (h : Alone s d) : Clean s d := by
  have hadv := frameProbe_advances 0 (RecvLoop.buffered s d) (s.receiveSize + d.data.length)
  obtain ⟨cs, hs⟩ := exists_scans s d 0
  obtain ⟨s', new, h, hnew, -, hplace⟩ := h
  rcases socketManager.receive_cases h hadv hs with ⟨hskip', -⟩ | ⟨-, hfits, -, hcalls, -, hrest⟩
  · exact absurd (of_decide_eq_true hskip') hskip
  rw [if_neg Bool.false_ne_true] at hrest
  obtain rfl := List.append_cancel_left (hnew.symm.trans hcalls)
  have hstarts : (socketManager.callsOf (RecvLoop.buffered s d) d.setBuffer cs).map PackCall.start =
      cs.map Cut.start := socketManager.map_callsOf (fun _ _ => rfl) cs _
  have hbehind : ∀ c ∈ cs, s.receiveSize ≤ c.start := by
    intro c hc
    have hmem : c.start ∈ cs.map Cut.start := List.mem_map_of_mem hc
    rw [← hstarts] at hmem
    obtain ⟨k, hk, hstart⟩ := List.mem_map.mp hmem
    exact hstart ▸ hplace k hk
  have hpass := hs.pass_of_le_start (Nat.le_add_right _ _) hbehind
  refine Or.inr ⟨hfits, fun i hi => hpass i (Nat.zero_le i) hi, fun cs' hs' c hc => ?_⟩
  obtain ⟨rfl, -⟩ := hs.unique (hs'.of_pass (Nat.le_add_right _ _) (Nat.zero_le _) hpass)
  have hstop := hs.stop_le_lastStop hadv c hc
  have hend := hrest.1
  rw [Parser.endOf_of_ne_nil _ 0 (List.ne_nil_of_mem hc)] at hend
  omega

theorem alone_of_clean (hinv : socketManager.Inv s) (hskip : ¬ bufferSize ≤ d.data.length)
    (h : Clean s d) : Alone s d := by
  have hresets : s.parsingSize = s.receiveSize := hinv
  obtain ⟨hfits, hpass, hin⟩ := h.resolve_left hskip
  obtain ⟨cs, hs⟩ := exists_scans s d s.receiveSize
  have hscan := hs.of_pass (Nat.le_add_right _ _) (Nat.zero_le _) (fun j _ hj => hpass j hj)
  have hend : ∃ k, Parser.endOf s.parsingSize cs = (k : ℕ) ∧ k ≤ s.receiveSize + d.data.length := by
    by_cases hn : cs = []
    · exact ⟨s.receiveSize, by rw [hn, Parser.endOf_nil, hresets], Nat.le_add_right _ _⟩
    · exact ⟨lastStop 0 cs, Parser.endOf_of_ne_nil _ 0 hn,
        lastStop_le_of_forall (hin cs hs) (Nat.zero_le _)⟩
  obtain ⟨k, hend, hk⟩ := hend
  obtain ⟨s', h, hcalls, -⟩ := socketManager.receive_scanned (decide_eq_false hskip) hfits
    (frameProbe_advances 0 _ _) hscan (M2MManager.socketManager_eager.no_overrun hscan) hend hk
  have hcommands : commandsIn d.data = framesIn d.data := if_neg hskip
  refine ⟨s', _, h, hcalls, ?_, ?_⟩
  · rw [hcommands, framesIn_of_scans hs (hin cs hs)]
    exact RecvLoop.map_event_callsOf M2MManager.socketManager_eager.reports _ cs d.setBuffer
  · intro c hc
    obtain ⟨cut, hcut, before, rfl⟩ := socketManager.exists_of_mem_callsOf hc
    exact (hs.hit_of_mem cut hcut).1

/-- **One datagram**: it is handled as if it had come alone exactly when it is clean. -/
theorem alone_iff_clean (hinv : socketManager.Inv s) : Alone s d ↔ Clean s d := by
  by_cases hskip : bufferSize ≤ d.data.length
  · have hcommands : commandsIn d.data = [] := if_pos hskip
    have hsame : socketManager.receive s d = some s := if_pos (decide_eq_true hskip)
    exact iff_of_true ⟨s, [], hsame, (List.append_nil _).symm, hcommands.symm, by simp⟩
      (Or.inl hskip)
  · exact ⟨clean_of_alone hskip, alone_of_clean hinv hskip⟩

end

theorem inv_run {m : Mem} {reads : List Read} : ∀ {s : RecvState PackCall},
    (socketManager.receiver PackCall.frame).run (.start m) reads = some s →
    socketManager.Inv s := by
  induction reads using List.reverseRecOn with
  | nil =>
      intro s h
      exact Option.some_inj.mp h ▸ socketManager.inv_start m
  | append_singleton reads r ih =>
      intro s h
      rw [Receiver.run_append, Option.bind_eq_some_iff] at h
      obtain ⟨s₁, hrun, hlast⟩ := h
      rw [Receiver.run_cons, Option.bind_eq_some_iff] at hlast
      obtain ⟨s₂, h₂, hs⟩ := hlast
      exact Option.some_inj.mp hs ▸
        RecvLoop.inv_receive M2MManager.parser_advances (ih hrun) h₂

/-- **When datagrams do not meet**: over every run of datagrams, each is handled as if it had come
alone exactly when each is clean where it arrives. -/
theorem alone_iff (m : Mem) (datagrams : List Read) :
    AtEvery (fun before d => ∀ s,
        (socketManager.receiver PackCall.frame).run (.start m) before = some s → Alone s d)
      datagrams ↔
    AtEvery (fun before d => ∀ s,
        (socketManager.receiver PackCall.frame).run (.start m) before = some s → Clean s d)
      datagrams := by
  constructor
  · exact fun h before d after heq s hs =>
      (alone_iff_clean (inv_run hs)).mp (h before d after heq s hs)
  · exact fun h before d after heq s hs =>
      (alone_iff_clean (inv_run hs)).mpr (h before d after heq s hs)

/-- Two bytes `FE 00` from one client, and one byte `FF` from another. -/
def fragment : Read := ⟨[0xFE, 0x00], fun _ => 0⟩

def stray : Read := ⟨[0xFF], fun _ => 0⟩

/-- The second datagram completes a command with what the first one left over. -/
theorem alone_wrong : ¬ ∀ (m : Mem) (datagrams : List Read),
    AtEvery (fun before d => ∀ s,
      (socketManager.receiver PackCall.frame).run (.start m) before = some s → Alone s d)
      datagrams := by
  intro h
  have hfirst : ((socketManager.receiver PackCall.frame).run (.start fun _ => 0) [fragment]).map
      (fun s => s.calls.map PackCall.frame) = some [] := by decide
  have hboth : ((socketManager.receiver PackCall.frame).run (.start fun _ => 0)
      [fragment, stray]).map (fun s => s.calls.map PackCall.frame) =
        some [[0xFE, 0x00, 0xFF]] := by decide
  obtain ⟨s, hs, hcalls⟩ := Option.map_eq_some_iff.mp hfirst
  obtain ⟨s₂, hs₂, hcalls₂⟩ := Option.map_eq_some_iff.mp hboth
  obtain ⟨s', new, hs', hnew, hframes, -⟩ :=
    h (fun _ => 0) [fragment, stray] [fragment] stray [] rfl s hs
  have hrun : (socketManager.receiver PackCall.frame).run (.start fun _ => 0) [fragment, stray] =
      some s' := by
    change (socketManager.receiver PackCall.frame).run (.start fun _ => 0)
      ([fragment] ++ [stray]) = some s'
    rw [Receiver.run_append, hs, Option.bind_some]
    exact Receiver.run_cons_of_read _ hs' []
  obtain rfl := Option.some_inj.mp (hs₂.symm.trans hrun)
  have hnone : new.map PackCall.frame = [] := hframes.trans (by decide)
  rw [hnew, List.map_append, hcalls, hnone] at hcalls₂
  cases hcalls₂

end IdcuIot.SetupManager
