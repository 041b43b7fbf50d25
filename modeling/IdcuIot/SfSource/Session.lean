import IdcuIot.SfSource.Packets

/-! # sfsource: the two ends of a connection

`init_sf_source` sends `T!`, asks for a `T` and a version from `' '` on, and for a version above
`' '` exchanges four bytes of `platform`.  `initSfSource_cases` says all it can do, with any other
end.  `received_of_session` is about two ends that both run it. -/

namespace IdcuIot.SfSource

open PrefixCode Reassembly

/-! ### The start of a connection -/

/-- The value of a `char`, which may have a sign or not. -/
def charValue (signed : Bool) (b : UInt8) : ℤ := if signed then b.toInt8.toInt else b.toNat

/-- `us`: `'T'` and the version `'!'`. -/
def us : List UInt8 := [0x54, 0x21]

/-- `nonce`, the bytes of `platform`. -/
def nonce (platform : UInt32) : List UInt8 :=
  [platform.toUInt8, (platform >>> 8).toUInt8, (platform >>> 16).toUInt8, (platform >>> 24).toUInt8]

/-- What `init_sf_source` returns, what it sent, and what it left of the connection. -/
structure Started where
  result : ℤ
  sent : List UInt8
  room : List Room
  script : List Incoming
deriving DecidableEq, Repr

def initSfSource (signed : Bool) (platform : UInt32) (room : List Room) (script : List Incoming) :
    Started :=
  let w := safewrite room us
  if w.actual ≠ 2 then ⟨-1, w.sent, w.room, script⟩
  else
    match readFull script 2 with
    | (some [check0, check1], script) =>
        if check0 ≠ 0x54 ∨ charValue signed check1 < 32 then ⟨-1, w.sent, w.room, script⟩
        else
          let version := if 33 < charValue signed check1 then 33 else charValue signed check1
          if version = 33 then
            let w' := safewrite w.room (nonce platform)
            if w'.actual ≠ 4 then ⟨-1, w.sent ++ w'.sent, w'.room, script⟩
            else
              match readFull script 4 with
              | (some _, script) => ⟨0, w.sent ++ w'.sent, w'.room, script⟩
              | (none, script) => ⟨-1, w.sent ++ w'.sent, w'.room, script⟩
          else ⟨0, w.sent, w.room, script⟩
    | (_, script) => ⟨-1, w.sent, w.room, script⟩

/-- All that may be sent before the packets. -/
def hello (platform : UInt32) : List UInt8 := us ++ nonce platform

@[simp] theorem length_us : us.length = 2 := rfl

@[simp] theorem length_nonce (platform : UInt32) : (nonce platform).length = 4 := rfl

@[simp] theorem length_hello (platform : UInt32) : (hello platform).length = 6 := rfl

theorem us_prefix_hello (platform : UInt32) : us <+: hello platform := List.prefix_append _ _

/-- What the other end sent, when `init_sf_source` accepted it: its version `v`, and four bytes
for every version above `' '`. -/
def Accepts (signed : Bool) (platform : UInt32) (script : List Incoming) (s : Started) : Prop :=
  ∃ v rest, arriving script = 0x54 :: v :: rest ∧
    ((charValue signed v = 32 ∧ s.sent = us ∧ arriving s.script = rest) ∨
      (32 < charValue signed v ∧ s.sent = hello platform ∧ 4 ≤ rest.length ∧
        arriving s.script = rest.drop 4))

theorem readFull_cases (script : List Incoming) (count : ℕ) :
    (readFull script count).1 = none ∨
      ∃ script', readFull script count = (some ((arriving script).take count), script') ∧
        count ≤ (arriving script).length ∧ arriving script' = (arriving script).drop count := by
  by_cases h : count ≤ (arriving script).length
  · obtain ⟨script', hread, hleft⟩ := readFull_of_le h
    exact Or.inr ⟨script', hread, h, hleft⟩
  · exact Or.inl (readFull_of_lt (by omega))

/-- **What `init_sf_source` can do**, whatever is at the other end. -/
theorem initSfSource_cases (signed : Bool) (platform : UInt32) (room : List Room)
    (script : List Incoming) :
    ((initSfSource signed platform room script).result = -1 ∧
        (initSfSource signed platform room script).sent <+: hello platform) ∨
      ((initSfSource signed platform room script).result = 0 ∧
        Accepts signed platform script (initSfSource signed platform room script)) := by
  unfold initSfSource
  dsimp only
  rcases safewrite_cases room us with ⟨hactual, hsent⟩ | ⟨hactual, hsent, -⟩
  swap
  · rw [if_pos (by rw [hactual]; decide)]
    exact Or.inl ⟨rfl, hsent.trans (us_prefix_hello platform)⟩
  rw [if_neg (by rw [hactual]; decide), hsent]
  rcases readFull_cases script 2 with hnone | ⟨script₁, hread, hle, hleft⟩
  · left
    split
    · rename_i heq
      rw [heq] at hnone
      cases hnone
    · exact ⟨rfl, us_prefix_hello platform⟩
  · obtain ⟨c, v, rest, harr⟩ : ∃ c v rest, arriving script = c :: v :: rest := by
      match harr : arriving script, hle with
      | c :: v :: rest, _ => exact ⟨c, v, rest, rfl⟩
    have htwo : readFull script 2 = (some [c, v], script₁) := by rw [hread, harr]; rfl
    have hrest : arriving script₁ = rest := by rw [hleft, harr]; rfl
    rw [htwo]
    dsimp only
    by_cases hcheck : c ≠ 0x54 ∨ charValue signed v < 32
    · rw [if_pos hcheck]
      exact Or.inl ⟨rfl, us_prefix_hello platform⟩
    rw [if_neg hcheck]
    rw [not_or, not_not, not_lt] at hcheck
    obtain ⟨rfl, hv⟩ := hcheck
    by_cases hversion : charValue signed v = 32
    · rw [hversion]
      exact Or.inr ⟨rfl, v, rest, harr, Or.inl ⟨hversion, rfl, hrest⟩⟩
    have habove : 32 < charValue signed v := by omega
    rw [if_pos (by split_ifs <;> omega)]
    rcases safewrite_cases (safewrite room us).room (nonce platform) with
      ⟨hactual', hsent'⟩ | ⟨hactual', hsent', -⟩
    swap
    · rw [if_pos (by rw [hactual']; decide)]
      exact Or.inl ⟨rfl, (List.prefix_append_right_inj _).mpr hsent'⟩
    rw [if_neg (by rw [hactual', length_nonce]; decide), hsent']
    rcases readFull_cases script₁ 4 with hnone | ⟨script₂, hread₂, hle₂, hleft₂⟩
    · left
      split
      · rename_i heq
        rw [heq] at hnone
        cases hnone
      · exact ⟨rfl, List.prefix_rfl⟩
    · rw [hread₂]
      right
      rw [hrest] at hle₂ hleft₂
      exact ⟨rfl, v, rest, harr, Or.inr ⟨habove, rfl, hle₂, hleft₂⟩⟩

/-! ### Two ends -/

/-- A program at one end of a connection: what its socket meets, the packets it gives to
`write_sf_packet`, and how often it calls `read_sf_packet`. -/
structure Peer where
  charSigned : Bool
  platform : UInt32
  room : List Room
  incoming : List Incoming
  packets : List (List UInt8)
  reads : ℕ
deriving DecidableEq, Repr

/-- What it gets and what it sends; it gives up a connection at the first failure. -/
structure Session where
  result : ℤ
  sent : List UInt8
  accepted : ℕ
  received : List (List UInt8)
deriving DecidableEq, Repr

def Peer.session (p : Peer) : Session :=
  let s := initSfSource p.charSigned p.platform p.room p.incoming
  if s.result < 0 then ⟨s.result, s.sent, 0, []⟩
  else
    let w := writeSfPackets s.room p.packets
    ⟨s.result, s.sent ++ w.sent, w.accepted, readSfPackets p.reads s.script⟩

theorem sent_session (p : Peer) : p.session.sent <+: us ∨ us <+: p.session.sent := by
  unfold Peer.session
  dsimp only
  rcases initSfSource_cases p.charSigned p.platform p.room p.incoming with
    ⟨hresult, hsent⟩ | ⟨hresult, v, rest, -, ⟨-, hsent, -⟩ | ⟨-, hsent, -⟩⟩
  · rw [if_pos (by rw [hresult]; decide)]
    exact List.prefix_or_prefix_of_prefix hsent (us_prefix_hello p.platform)
  · rw [if_neg (by rw [hresult]; decide), hsent]
    exact Or.inr (List.prefix_append _ _)
  · rw [if_neg (by rw [hresult]; decide), hsent]
    exact Or.inr ((us_prefix_hello p.platform).trans (List.prefix_append _ _))

/-- An end whose other end is a session of this program too: it fails before any packet, or both
have sent `T!`, and the packets come behind six bytes. -/
theorem session_cases {p q : Peer} (h : arriving p.incoming <+: q.session.sent) :
    (p.session.result = -1 ∧ p.session.accepted = 0 ∧ p.session.received = [] ∧
        p.session.sent <+: hello p.platform) ∨
      (p.session.result = 0 ∧ 6 ≤ (arriving p.incoming).length ∧
        p.session.received = readMany packetOf p.reads ((arriving p.incoming).drop 6) ∧
        ∃ sent, p.session.sent = hello p.platform ++ sent ∧ sent <+: stream frame p.packets ∧
          arrived frame p.packets sent.length = p.session.accepted) := by
  unfold Peer.session
  dsimp only
  rcases initSfSource_cases p.charSigned p.platform p.room p.incoming with
    ⟨hresult, hsent⟩ | ⟨hresult, v, rest, harr, hcases⟩
  · rw [if_pos (by rw [hresult]; decide)]
    exact Or.inl ⟨hresult, rfl, rfl, hsent⟩
  have hfirst : [0x54, v] <+: us := by
    have hpre : [0x54, v] <+: q.session.sent :=
      List.IsPrefix.trans ⟨rest, harr.symm⟩ h
    rcases sent_session q with hus | hus
    · exact hpre.trans hus
    · exact List.prefix_of_prefix_length_le hpre hus (by simp)
  obtain rfl : v = 0x21 := by
    have hus := List.IsPrefix.eq_of_length hfirst rfl
    exact (List.cons.inj (List.cons.inj hus).2).1
  have hvalue : charValue p.charSigned 0x21 = 33 := by
    cases p.charSigned <;> rfl
  rcases hcases with ⟨h32, -⟩ | ⟨-, hsent, hlen, hleft⟩
  · omega
  rw [if_neg (by rw [hresult]; decide)]
  obtain ⟨hstream, haccepted⟩ := writeSfPackets_spec
    (initSfSource p.charSigned p.platform p.room p.incoming).room p.packets
  refine Or.inr ⟨hresult, ?_, ?_, _, by rw [hsent], hstream, haccepted⟩
  · rw [harr, List.length_cons, List.length_cons]
    omega
  · rw [readSfPackets_eq, hleft, harr]
    rfl

/-- What has come at one end, in packets of the other end: the first `k`, of which the calls of
`read_sf_packet` take as many as there are calls. -/
theorem received_eq_take {a b : Peer} (ha : arriving a.incoming <+: b.session.sent)
    (hb : arriving b.incoming <+: a.session.sent) :
    ∃ k ≤ a.session.accepted, b.session.received = ((a.packets.take k).take b.reads).map cut ∧
      (b.session.result = 0 → arriving b.incoming = a.session.sent → k = a.session.accepted) := by
  rcases session_cases hb with ⟨hresult, -, hreceived, -⟩ | ⟨-, hlen, hreceived, -⟩
  · refine ⟨0, Nat.zero_le _, by rw [hreceived]; simp, fun h => ?_⟩
    rw [hresult] at h
    cases h
  rw [hreceived]
  rcases session_cases ha with
    ⟨-, haccepted, -, hsent⟩ | ⟨-, -, -, sent, hsent, hstream, haccepted⟩
  · have hle := (hb.trans hsent).length_le
    rw [length_hello] at hle
    have hnil : (arriving b.incoming).drop 6 = [] := List.drop_of_length_le hle
    have hread : readMany packetOf b.reads [] = [] := by
      simpa using reads_packetOf.readMany_eq b.reads [] [] List.prefix_rfl
    refine ⟨0, Nat.zero_le _, by rw [hnil, hread]; simp, fun _ _ => haccepted.symm⟩
  · have hpre : (arriving b.incoming).drop 6 <+: sent := by
      rw [hsent] at hb
      obtain ⟨rest, hrest⟩ := List.prefix_of_prefix_length_le
        (List.prefix_append (hello a.platform) sent) hb (by simpa using hlen)
      rw [← hrest] at hb ⊢
      rw [show 6 = (hello a.platform).length from rfl, List.drop_left]
      exact (List.prefix_append_right_inj _).mp hb
    rw [reads_packetOf.readMany_eq b.reads a.packets _ (hpre.trans hstream), ← haccepted]
    refine ⟨_, arrived_mono frame a.packets hpre.length_le, ?_, fun _ hall => ?_⟩
    · rw [List.take_take]
    · rw [hall, hsent, show 6 = (hello a.platform).length from rfl, List.drop_left]

/-- **What one end writes the other end reads**: when both ends run this code, whatever portions,
interruptions and failures their sockets meet and however much of what was sent has come, the
packets that `read_sf_packet` returns at one end are the first of those whose `write_sf_packet`
returned 0 at the other end, in order and each once, cut to their length modulo 256.  They are all
of them once everything that was sent has come. -/
theorem received_of_session {a b : Peer} (ha : arriving a.incoming <+: b.session.sent)
    (hb : arriving b.incoming <+: a.session.sent) :
    b.session.received <+: (a.packets.take a.session.accepted).map cut ∧
      (b.session.result = 0 → arriving b.incoming = a.session.sent →
        a.session.accepted ≤ b.reads →
        b.session.received = (a.packets.take a.session.accepted).map cut) := by
  obtain ⟨k, hk, hreceived, hcomplete⟩ := received_eq_take ha hb
  rw [hreceived]
  refine ⟨?_, fun hresult hall hreads => ?_⟩
  · exact ((List.take_prefix _ _).trans (List.take_prefix_take_left hk)).map _
  · rw [hcomplete hresult hall, List.take_of_length_le (l := a.packets.take _)]
    rw [List.length_take]
    omega

/-- Two ends whose sockets hand over single bytes and are interrupted. -/
def onePeer : Peer where
  charSigned := true
  platform := 7
  room := [.takes 1, .interrupted, .takes 3]
  incoming := [.bytes 0x54 [], .again, .bytes 0x21 [2, 0, 0, 0]]
  packets := [[1, 2, 3], [], [4]]
  reads := 0

def otherPeer : Peer where
  charSigned := false
  platform := 2
  room := []
  incoming := [.bytes 0x54 [0x21, 7], .again, .bytes 0 [0, 0, 3, 1], .bytes 2 [3, 0, 1, 4]]
  packets := []
  reads := 4

theorem received_of_session_one : otherPeer.session.received = [[1, 2, 3], [], [4]] :=
  (received_of_session (show arriving onePeer.incoming <+: otherPeer.session.sent by decide)
    (show arriving otherPeer.incoming <+: onePeer.session.sent by decide)).2
    (by decide) (by decide) (by decide)

end IdcuIot.SfSource
