import IdcuIot.SerialSource.Link
import IdcuIot.SfSource.Forwarding

/-! # sf: from the clients to the other end of the serial line

`forward_packet` gives the packets of all clients to one `serial_source`.  Here this source runs
the code of `serialsource.c`, and so does the program at the other end of the line
(`SerialSource.Link`).  A packet that is longer than the receive buffer of that program is lost
there, and the packets of the other clients still come through. -/

namespace IdcuIot.SfSource

open SerialSource (Source Call Fresh got statusesOf writesOf)

/-- The calls of `write_serial_packet` in a run. -/
def writes (forwarded : List (ℕ × List UInt8)) : List Call :=
  forwarded.map (fun p => .write p.2)

/-- The results of `write_serial_packet` that a run went on with are those of the calls on `src`. -/
def ResultsOf (src : Source) (serial : ℕ → ℤ) (forwarded : List (ℕ × List UInt8)) : Prop :=
  statusesOf (SerialSource.run (writes forwarded) src).2 =
    (List.range forwarded.length).map serial

/-- The packets that fit in a frame. -/
def short (forwarded : List (ℕ × List UInt8)) : List (ℕ × List UInt8) :=
  forwarded.filter (fun p => decide (p.2.length ≤ 123))

/-- The packets that the program `ds` has received at the other end, with their clients. -/
def reached (ds : List Call) (other : Source) (forwarded : List (ℕ × List UInt8)) :
    List (ℕ × List UInt8) := (short forwarded).take (got ds other).length

theorem writesOf_writes (forwarded : List (ℕ × List UInt8)) :
    writesOf (writes forwarded) = forwarded.map Prod.snd := by
  induction forwarded with
  | nil => rfl
  | cons p forwarded ih =>
      rw [List.map_cons, ← ih]
      rfl

theorem map_snd_short (forwarded : List (ℕ × List UInt8)) : (short forwarded).map Prod.snd =
    (forwarded.map Prod.snd).filter (fun packet => decide (packet.length ≤ 123)) := by
  rw [List.filter_map]
  rfl

theorem packetsFrom_short (id : ℕ) (forwarded : List (ℕ × List UInt8)) :
    packetsFrom id (short forwarded) =
      (packetsFrom id forwarded).filter (fun packet => decide (packet.length ≤ 123)) := by
  unfold packetsFrom short
  rw [List.filter_comm, List.filter_map]
  rfl

theorem packetsFrom_take_isPrefix (id k : ℕ) (forwarded : List (ℕ × List UInt8)) :
    packetsFrom id (forwarded.take k) <+: packetsFrom id forwarded :=
  ((List.take_prefix k forwarded).filter _).map _

section
variable {src other : Source} {ds : List Call} {forwarded : List (ℕ × List UInt8)}

/-- The packets that have reached the other end are those that it has received. -/
theorem map_snd_reached (hsrc : Fresh src) (hother : Fresh other)
    (hline : other.input <+: (SerialSource.run (writes forwarded) src).1.written) :
    (reached ds other forwarded).map Prod.snd = got ds other := by
  have hgot := SerialSource.got_isPrefix hsrc hother (writes forwarded) ds hline
  rw [writesOf_writes, ← map_snd_short] at hgot
  rw [reached, List.map_take]
  exact (List.prefix_iff_eq_take.mp hgot).symm

theorem reached_eq_self (hsrc : Fresh src) (hother : Fresh other)
    (hline : other.input <+: (SerialSource.run (writes forwarded) src).1.written)
    (hback : src.input <+: (SerialSource.run ds other).1.written)
    {serial : ℕ → ℤ} (hresults : ResultsOf src serial forwarded)
    (hshort : ∀ p ∈ forwarded, p.2.length ≤ 123) (hzero : ∀ k < forwarded.length, serial k = 0) :
    reached ds other forwarded = forwarded := by
  have hall : short forwarded = forwarded :=
    List.filter_eq_self.mpr (fun p hp => decide_eq_true (hshort p hp))
  have hstatuses : statusesOf (SerialSource.run (writes forwarded) src).2 =
      List.replicate forwarded.length 0 := by
    rw [hresults]
    refine List.eq_replicate_iff.mpr ⟨by simp, fun r hr => ?_⟩
    obtain ⟨k, hk, rfl⟩ := List.mem_map.mp hr
    exact hzero k (List.mem_range.mp hk)
  rw [reached, hall]
  refine List.take_of_length_le (Nat.le_of_not_lt (fun hlt => ?_))
  have hwrites : ∀ p ∈ writesOf (writes forwarded), p.length ≤ 123 := by
    rw [writesOf_writes]
    intro p hp
    obtain ⟨q, hq, rfl⟩ := List.mem_map.mp hp
    exact hshort q hq
  refine Nat.lt_irrefl _ (SerialSource.lt_length_got hsrc hother hline hback hwrites
    (fun w hw hlen => ?_) (i := (got ds other).length) ?_)
  · have hmem := hw.subset
    rw [hstatuses] at hmem
    obtain ⟨r, hr⟩ := List.exists_mem_of_length_pos (l := w) (by omega)
    exact List.eq_of_mem_replicate (hmem hr) ▸ hr
  · rw [hstatuses, List.getElem?_replicate, if_pos hlt]

end

/-- **From a client to the other end of the serial line**: in every run of the forwarder, whatever
the other clients do, a program at the other end of the line has received from each client a first
part of the packets whose `write_sf_packet` returned 0, in order and each once, cut to their length
modulo 256 and then without those of more than 123 bytes; and all of them when they have come, the
client was ready often enough, the forwarder has not exited, each packet that it passed on fits in a
frame and each write to the line returned 0. -/
theorem reached_peer {charSigned : Bool} {serial : ℕ → ℤ} {turns : List Forwarder.Turn}
    {id n : ℕ} {conn : Connection} (h : Legal charSigned serial turns)
    (hid : (chances turns)[id]? = some (conn, n)) {client : Peer}
    (hclient : arriving client.incoming <+: (endOf charSigned conn n).session.sent)
    (hconn : arriving conn.script <+: client.session.sent) {src other : Source} {ds : List Call}
    (hsrc : Fresh src) (hother : Fresh other)
    (hline : other.input <+: (SerialSource.run
      (writes (Forwarder.run charSigned serial turns).forwarded) src).1.written) :
    let s := Forwarder.run charSigned serial turns
    (reached ds other s.forwarded).map Prod.snd = got ds other ∧
      packetsFrom id (reached ds other s.forwarded) <+:
        ((client.packets.take client.session.accepted).map cut).filter
          (fun packet => decide (packet.length ≤ 123)) ∧
      (src.input <+: (SerialSource.run ds other).1.written → ResultsOf src serial s.forwarded →
        (∀ p ∈ s.forwarded, p.2.length ≤ 123) → (∀ k < s.forwarded.length, serial k = 0) →
        s.exited = false → (endOf charSigned conn n).session.result = 0 →
        arriving conn.script = client.session.sent → client.session.accepted ≤ n →
        packetsFrom id (reached ds other s.forwarded) =
          (client.packets.take client.session.accepted).map cut) := by
  dsimp only
  refine ⟨map_snd_reached hsrc hother hline, ?_, ?_⟩
  · have hpackets := packetsFrom_take_isPrefix id (got ds other).length
      (short (Forwarder.run charSigned serial turns).forwarded)
    rw [packetsFrom_short] at hpackets
    exact hpackets.trans ((packetsFrom_isPrefix h hid hclient hconn).filter _)
  · intro hback hresults hshort hzero hexited hresult hcome hturns
    rw [reached_eq_self hsrc hother hline hback hresults hshort hzero]
    exact packetsFrom_eq_map h hid hclient hconn hexited hresult hcome hturns

/-- The source of the forwarder: the acknowledgements for the packets of `oneTurns` come in one
read. -/
def oneSource : Source := .opened true
  [.data (SerialSource.framedPacket SerialSource.pAck 38 [] ++
    SerialSource.framedPacket SerialSource.pAck 39 [] ++
    SerialSource.framedPacket SerialSource.pAck 40 []) (by decide +kernel)]

/-- The other end of its line. -/
def otherSource : Source := .opened true
  [.data (SerialSource.framedPacket SerialSource.pPacketAck 38 [1, 2, 3]) (by decide +kernel),
    .data (SerialSource.framedPacket SerialSource.pPacketAck 39 []) (by decide +kernel),
    .data (SerialSource.framedPacket SerialSource.pPacketAck 40 [4]) (by decide +kernel)]

theorem reached_peer_one :
    packetsFrom 0 (reached [.read, .read, .read] otherSource
      (Forwarder.run false (fun _ => 0) oneTurns).forwarded) = [[1, 2, 3], [], [4]] := by
  have hforwarded : (Forwarder.run false (fun _ => 0) oneTurns).forwarded =
      [(0, [1, 2, 3]), (0, []), (0, [4])] := by decide
  have hwritten : otherSource.input <+: (SerialSource.run (writes
      (Forwarder.run false (fun _ => 0) oneTurns).forwarded) oneSource).1.written := by
    rw [hforwarded]
    decide +kernel
  have hresults : ResultsOf oneSource (fun _ => 0)
      (Forwarder.run false (fun _ => 0) oneTurns).forwarded := by
    rw [ResultsOf, hforwarded]
    decide +kernel
  exact (reached_peer legal_oneTurns
    (show (chances oneTurns)[0]? = some (oneConnection, 4) from rfl)
    (show arriving onePeer.incoming <+: _ by decide)
    (show arriving oneConnection.script <+: onePeer.session.sent by decide)
    (show Fresh oneSource from SerialSource.fresh_opened _ _)
    (show Fresh otherSource from SerialSource.fresh_opened _ _) hwritten).2.2
    (by decide +kernel) hresults (by rw [hforwarded]; decide) (fun _ _ => rfl)
    (by decide) (by decide) (by decide) (by decide)

end IdcuIot.SfSource
