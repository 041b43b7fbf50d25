import IdcuIot.SerialSource.Delivery

/-! # serialsource: two programs on one line

Each end of a line runs a program over the calls of `serialsource.c`, and what an end can read is
what the other end has written.  Every packet a program writes is received at the other end at most
once and in order, and one whose write returned 0 has been received, unless 256 writes one after
the other were left without an acknowledgement: the number that goes with a packet is a single
byte, and the acknowledgement of a packet that was given up is not told from that of the 256th
packet behind it (`acked_received`). -/

namespace IdcuIot.SerialSource

open Stuffing Source

/-! ### Prefixes -/

theorem packets_isPrefix {st : State UInt8} {bytes bytes' : List UInt8} (h : bytes <+: bytes') :
    packets st bytes <+: packets st bytes' := by
  obtain ⟨rest, rfl⟩ := h
  rw [packets_append]
  exact List.prefix_append _ _

theorem isPrefix_take_of_map {α β : Type*} {f : α → β} {l : List β} {l' : List α}
    (h : l <+: l'.map f) : l = (l'.take l.length).map f := by
  rw [List.map_take]
  exact List.prefix_iff_eq_take.mp h

/-! ### Numbers of acknowledgements -/

/-- The lag of the acknowledgements: behind `i` writes and `c` acknowledgements, the last writes
`lost` of them without success, no write that succeeds is ahead of the acknowledgements. -/
theorem Acked.lt_of_zero (base : UInt8) {seqno : UInt8} {rs : List ℤ} {acks : List (List UInt8)}
    (h : Acked seqno rs acks) : ∀ (i c : ℕ) (lost : List ℤ), seqno = base + UInt8.ofNat i →
      (∀ k (hk : k < acks.length), acks[k].getD 0 0 = base + UInt8.ofNat (c + k + 1)) →
      i ≤ c + lost.length → 0 ∉ lost →
      (∀ w, w <:+: lost ++ rs → w.length = 256 → (0 : ℤ) ∈ w) →
      ∀ j, rs[j]? = some 0 → i + j < c + acks.length := by
  induction h with
  | rest seqno acks => exact fun _ _ _ _ _ _ _ _ j hj => by simp at hj
  | @zero seqno rs acks before ack hack _ ih =>
      intro i c lost hseqno hacks hlag hlost hwindow j hj
      have hshort : lost.length < 256 := by
        by_contra hlong
        refine hlost (List.mem_of_mem_take (hwindow (lost.take 256) ?_ (by simp; omega)))
        exact (List.take_prefix 256 lost).isInfix.trans (List.prefix_append _ _).isInfix
      -- the acknowledgement read last is that of this write or of one behind it
      have hnumber : i ≤ c + before.length := by
        have hbefore := hacks before.length (by simp)
        rw [List.getElem_append_right (Nat.le_refl _)] at hbefore
        simp only [Nat.sub_self, List.getElem_cons_zero] at hbefore
        rw [hack, hseqno, UInt8.add_assoc, UInt8.add_right_inj] at hbefore
        have hmod := congrArg UInt8.toNat hbefore
        simp at hmod
        omega
      cases j with
      | zero =>
          rw [List.length_append, List.length_cons]
          omega
      | succ j =>
          have hnext := ih (i + 1) (c + before.length + 1) [] ?_ ?_ (by simp; omega) (by simp) ?_ j hj
          · rw [List.length_append, List.length_cons]
            omega
          · rw [hseqno, UInt8.add_assoc]
            simp
          · intro k hk
            have hk' := hacks (before.length + (k + 1)) (by simp; omega)
            rw [List.getElem_append_right (by omega)] at hk'
            simp only [Nat.add_sub_cancel_left, List.getElem_cons_succ] at hk'
            rw [hk']
            congr 2
            omega
          · intro w hw
            refine hwindow w (hw.trans ?_)
            exact ((List.suffix_cons 0 rs).trans (List.suffix_append lost _)).isInfix
  | @other seqno rs acks before r hr _ ih =>
      intro i c lost hseqno hacks hlag hlost hwindow j hj
      cases j with
      | zero => exact absurd (by simpa using hj) hr
      | succ j =>
          have hnext := ih (i + 1) (c + before.length) (lost ++ [r]) ?_ ?_ (by simp; omega) ?_ ?_ j hj
          · rw [List.length_append]
            omega
          · rw [hseqno, UInt8.add_assoc]
            simp
          · intro k hk
            have hk' := hacks (before.length + k) (by simp; omega)
            rw [List.getElem_append_right (by omega)] at hk'
            simp only [Nat.add_sub_cancel_left] at hk'
            rw [hk']
            congr 2
            omega
          · simp [hlost, Ne.symm hr]
          · rw [List.append_assoc]
            exact hwindow

theorem numbered_packets (seqno : UInt8) (ps : List (List UInt8)) :
    (numbered seqno ps).map Framed.packet = ps := by
  induction ps generalizing seqno with
  | nil => rfl
  | cons packet ps ih => rw [numbered, List.map_cons, ih]

@[simp] theorem length_numbered (seqno : UInt8) (ps : List (List UInt8)) :
    (numbered seqno ps).length = ps.length := by
  rw [← congrArg List.length (numbered_packets seqno ps), List.length_map]

theorem firstByte_numbered (seqno : UInt8) (ps : List (List UInt8)) (k : ℕ)
    (hk : k < (numbered seqno ps).length) :
    (numbered seqno ps)[k].firstByte = seqno + UInt8.ofNat (k + 1) := by
  induction ps generalizing seqno k with
  | nil => simp [numbered] at hk
  | cons packet ps ih =>
      cases k with
      | zero => rfl
      | succ k =>
          simp only [numbered, List.getElem_cons_succ]
          rw [ih, UInt8.add_assoc]
          congr 1
          simp [Nat.add_comm]

/-! ### Two ends -/

/-- A source that nothing has happened to yet. -/
structure Fresh (s : Source) : Prop where
  view : s.view.Between
  queue : ∀ t, s.queue t = []
  reliable : s.Reliable
  written : s.written = []

/-- What a program has received: the packets its reads returned, and those that wait for a read. -/
def got (cs : List Call) (s : Source) : List (List UInt8) :=
  packetsOf (run cs s).2 ++ (run cs s).1.queue pPacketNoAck

/-- The packets that a program has started to write. -/
def sent (cs : List Call) (s : Source) : List (List UInt8) :=
  writesOf (cs.take ((run cs s).2.length + 1))

/-- The frames that carry packets. -/
def dataFrames (fs : List Framed) : List Framed :=
  fs.filter (fun f => decide (f.packetType = pPacketAck))

theorem payloads_of_kinds {fs : List Framed}
    (h : ∀ f ∈ fs, f.packetType = pAck ∨ f.packetType = pPacketAck) :
    fs.filterMap Framed.payload = (dataFrames fs).map Framed.packet := by
  have hdiff : ¬ pAck = pPacketAck := by decide
  have hdiff' : ¬ pAck = pPacketNoAck := by decide
  unfold dataFrames
  induction fs with
  | nil => rfl
  | cons f fs ih =>
      have ih := ih (fun g hg => h g (List.mem_cons_of_mem _ hg))
      rw [List.filterMap_cons, List.filter_cons, ih]
      unfold Framed.payload
      rcases h f List.mem_cons_self with hf | hf
      · simp [hf, hdiff, hdiff']
      · simp [hf]

theorem replies_eq (fs : List Framed) :
    fs.flatMap Framed.reply = (dataFrames fs).map (fun f => ⟨pAck, f.firstByte, []⟩) := by
  unfold dataFrames
  induction fs with
  | nil => rfl
  | cons f fs ih =>
      rw [List.flatMap_cons, ih, List.filter_cons]
      unfold Framed.reply
      by_cases hf : f.packetType = pPacketAck <;> simp [hf]

theorem received_acks (fs : List Framed) :
    received pAck (fs.map Framed.plain) =
      (fs.filter (fun f => decide (f.packetType = pAck))).map (fun f => f.firstByte :: f.packet) := by
  have hdiff : ¬ pPacketNoAck = pAck := by decide
  have hdiff' : ¬ pAck = pPacketAck := by decide
  induction fs with
  | nil => rfl
  | cons f fs ih =>
      rw [List.map_cons, ← List.singleton_append, received_append, ih, received_singleton,
        List.filter_cons]
      unfold protocol body
      by_cases hack : f.packetType = pPacketAck
      · simp [Framed.plain, hack, hdiff, Ne.symm hdiff']
      · by_cases hf : f.packetType = pAck
        · simp [Framed.plain, hf, hdiff']
        · simp [Framed.plain, hack, hf]

theorem received_isPrefix {type : UInt8} {ps ps' : List (List UInt8)} (h : ps <+: ps') :
    received type ps <+: received type ps' := (h.filter _).map _

/-! ### The end that writes -/

/-- What a run of a fresh source has put on the line and taken from it. -/
structure Traffic (s : Source) (cs : List Call) (ps : List (List UInt8)) (frames : List Framed)
    (numbers : List (List UInt8)) : Prop where
  packets : ps <+: packets s.view s.input
  got : got cs s = received pPacketNoAck ps
  written : (run cs s).1.written = frames.flatMap Framed.bytes
  data : dataFrames frames = numbered s.seqno (sent cs s)
  answers : frames.filter (fun f => decide (f.packetType = pAck)) = ps.flatMap answer
  kinds : ∀ f ∈ frames, f.packetType = pAck ∨ f.packetType = pPacketAck
  reads : numbers <+: received pAck ps
  acked : Acked s.seqno (statusesOf (run cs s).2) numbers

theorem exists_traffic {s : Source} (h : Fresh s) (cs : List Call) :
    ∃ ps frames acks, Traffic s cs ps frames acks := by
  obtain ⟨bytes, frames, acks, hap⟩ := run_spec cs s
  have hdiff : ¬ pPacketNoAck = pAck := by decide
  have hdata := hap.ran.queue pPacketNoAck
  have hacks := hap.ran.queue pAck
  rw [h.queue, List.nil_append] at hdata hacks
  refine ⟨packets s.view bytes, frames, acks, ?_, ?_, ?_, hap.data, hap.ran.acks, hap.kinds, ?_,
    hap.acked⟩
  · exact packets_isPrefix ⟨_, hap.ran.input.symm⟩
  · rw [hdata]
    simp [got, takenBoth, taken, hdiff]
  · rw [(hap.ran.written h.reliable).2, h.written, List.nil_append]
  · rw [hacks]
    simp [takenBoth, taken, Ne.symm hdiff]

theorem Traffic.short {s : Source} {cs : List Call} {ps : List (List UInt8)} {frames : List Framed}
    {acks : List (List UInt8)} (h : Traffic s cs ps frames acks)
    (hshort : ∀ p ∈ writesOf cs, p.length ≤ 123) : arriving frames = frames := by
  refine List.filter_eq_self.mpr (fun f hf => decide_eq_true ?_)
  rcases h.kinds f hf with hack | hdata
  · have hmem : f ∈ ps.flatMap answer := by
      rw [← h.answers]
      exact List.mem_filter.mpr ⟨hf, decide_eq_true hack⟩
    obtain ⟨packet, -, hanswer⟩ := List.mem_flatMap.mp hmem
    unfold answer at hanswer
    split_ifs at hanswer
    · rw [List.mem_singleton.mp hanswer]
      exact Nat.zero_le _
    · cases hanswer
  · have hmem : f.packet ∈ (dataFrames frames).map Framed.packet :=
      List.mem_map.mpr ⟨f, List.mem_filter.mpr ⟨hf, decide_eq_true hdata⟩, rfl⟩
    rw [h.data, numbered_packets] at hmem
    apply hshort
    obtain ⟨rest, hrest⟩ := List.take_prefix ((run cs s).2.length + 1) cs
    rw [← hrest, writesOf, List.filterMap_append]
    exact List.mem_append_left _ hmem

/-! ### Both ends -/

/-- The acknowledgements that one end reads are those of the packets that the other has received. -/
theorem Traffic.numbers_isPrefix {a b : Source} {cs ds : List Call} {psA psB : List (List UInt8)}
    {framesA framesB fs : List Framed} {acksA acksB : List (List UInt8)}
    (hA : Traffic a cs psA framesA acksA) (hB : Traffic b ds psB framesB acksB)
    (hfs : psB = fs.map Framed.plain) (hba : a.input <+: (run ds b).1.written)
    (hview : a.view.Between) : acksA <+: (dataFrames fs).map (fun f => [f.firstByte]) := by
  have hanswers : framesB.filter (fun f => decide (f.packetType = pAck)) =
      (dataFrames fs).map (fun f => ⟨pAck, f.firstByte, []⟩) := by
    rw [hB.answers, hfs, answers_plain, replies_eq]
  have harriving : (arriving framesB).filter (fun f => decide (f.packetType = pAck)) =
      (dataFrames fs).map (fun f => ⟨pAck, f.firstByte, []⟩) := by
    unfold arriving
    rw [List.filter_comm, hanswers, List.filter_eq_self]
    intro f hf
    obtain ⟨g, -, rfl⟩ := List.mem_map.mp hf
    exact decide_eq_true (Nat.zero_le _)
  have hread := hA.packets
  rw [hB.written] at hba
  replace hread := hread.trans (packets_isPrefix hba)
  rw [packets_stream hview] at hread
  have hnumbers := hA.reads.trans (received_isPrefix hread)
  rw [received_acks, harriving, List.map_map] at hnumbers
  exact hnumbers

/-- The packets that the second end has read are those of the first frames that it can hold. -/
theorem exists_taken {a b : Source} {cs ds : List Call} {psA psB : List (List UInt8)}
    {framesA framesB : List Framed} {acksA acksB : List (List UInt8)}
    (hA : Traffic a cs psA framesA acksA) (hB : Traffic b ds psB framesB acksB)
    (hview : b.view.Between) (hab : b.input <+: (run cs a).1.written) :
    ∃ k, psB = ((arriving framesA).take k).map Framed.plain ∧
      got ds b = (dataFrames ((arriving framesA).take k)).map Framed.packet := by
  obtain ⟨k, hk⟩ : ∃ k, psB = ((arriving framesA).take k).map Framed.plain := by
    have hall := hB.packets
    rw [hA.written] at hab
    replace hall := hall.trans (packets_isPrefix hab)
    rw [packets_stream hview] at hall
    exact ⟨_, isPrefix_take_of_map hall⟩
  refine ⟨k, hk, ?_⟩
  rw [hB.got, hk, received_plain]
  exact payloads_of_kinds (fun f hf =>
    hA.kinds f (List.mem_of_mem_filter (List.mem_of_mem_take hf)))

theorem dataFrames_take_isPrefix (fs : List Framed) (k : ℕ) :
    dataFrames (fs.take k) <+: dataFrames fs := (List.take_prefix k fs).filter _

theorem packets_arriving (fs : List Framed) : (arriving fs).map Framed.packet =
    (fs.map Framed.packet).filter (fun packet => decide (packet.length ≤ 123)) := by
  rw [List.filter_map]
  rfl

theorem sent_isPrefix (cs : List Call) (s : Source) : sent cs s <+: writesOf cs :=
  (List.take_prefix _ _).filterMap _

/-- What one end has received is what the other has written so far, without the packets that are
too long. -/
theorem got_isPrefix {a b : Source} (ha : Fresh a) (hb : Fresh b) (cs ds : List Call)
    (hab : b.input <+: (run cs a).1.written) :
    got ds b <+: (writesOf cs).filter (fun packet => decide (packet.length ≤ 123)) := by
  obtain ⟨psA, framesA, acksA, hA⟩ := exists_traffic ha cs
  obtain ⟨psB, framesB, acksB, hB⟩ := exists_traffic hb ds
  obtain ⟨k, -, hgot⟩ := exists_taken hA hB hb.view hab
  have hpackets := (dataFrames_take_isPrefix (arriving framesA) k).map Framed.packet
  have hcomm : dataFrames (arriving framesA) = arriving (dataFrames framesA) :=
    List.filter_comm _ _ _
  rw [← hgot, hcomm, packets_arriving, hA.data, numbered_packets] at hpackets
  exact hpackets.trans ((sent_isPrefix cs a).filter _)

theorem lt_length_got {a b : Source} (ha : Fresh a) (hb : Fresh b) {cs ds : List Call}
    (hab : b.input <+: (run cs a).1.written) (hba : a.input <+: (run ds b).1.written)
    (hshort : ∀ p ∈ writesOf cs, p.length ≤ 123)
    (hwindow : ∀ w, w <:+: statusesOf (run cs a).2 → w.length = 256 → (0 : ℤ) ∈ w)
    {i : ℕ} (hi : (statusesOf (run cs a).2)[i]? = some 0) : i < (got ds b).length := by
  obtain ⟨psA, framesA, acksA, hA⟩ := exists_traffic ha cs
  obtain ⟨psB, framesB, acksB, hB⟩ := exists_traffic hb ds
  obtain ⟨k, hk, hgot⟩ := exists_taken hA hB hb.view hab
  rw [hA.short hshort] at hk hgot
  have hdata : dataFrames (framesA.take k) <+: numbered a.seqno (sent cs a) :=
    hA.data ▸ dataFrames_take_isPrefix framesA k
  -- the acknowledgements that the first has read are those of the packets received
  have hfirst := hA.numbers_isPrefix hB hk hba ha.view
  have hlt := hA.acked.lt_of_zero a.seqno 0 0 [] (by simp) ?_ (Nat.zero_le _) (by simp)
    hwindow i hi
  · have hlen := hfirst.length_le
    rw [List.length_map] at hlen
    rw [hgot, List.length_map]
    omega
  · intro j hj
    have hj' := lt_of_lt_of_le hj hfirst.length_le
    rw [List.length_map] at hj'
    rw [hfirst.getElem hj, List.getElem_map, hdata.getElem hj', firstByte_numbered, Nat.zero_add]
    rfl

/-- **Two programs on one line** whose writes do not fail, for packets of at most 123 bytes: what the
second has received is what the first has written so far, in order and each packet at most once; and
if no 256 writes of the first one after the other were left without an acknowledgement, every packet
whose write returned 0 has been received. -/
theorem acked_received (a b : Source) (ha : Fresh a) (hb : Fresh b) (cs ds : List Call)
    (hab : b.input <+: (run cs a).1.written) (hba : a.input <+: (run ds b).1.written)
    (hshort : ∀ p ∈ writesOf cs, p.length ≤ 123) :
    got ds b <+: writesOf cs ∧
      ((∀ w, w <:+: statusesOf (run cs a).2 → w.length = 256 → (0 : ℤ) ∈ w) →
        ∀ i, (statusesOf (run cs a).2)[i]? = some 0 → i < (got ds b).length) := by
  constructor
  · have hgot := got_isPrefix ha hb cs ds hab
    rwa [List.filter_eq_self.mpr (fun p hp => decide_eq_true (hshort p hp))] at hgot
  · exact fun hwindow i hi => lt_length_got ha hb hab hba hshort hwindow hi

/-- A writer whose first packet is acknowledged. -/
def writer : Source := opened true [.data (framedPacket pAck 38 []) (by decide +kernel)]

/-- A reader of that packet. -/
def reader : Source := opened true [.data (framedPacket pPacketAck 38 [1, 2]) (by decide +kernel)]

theorem fresh_opened (nonBlocking : Bool) (reads : List Read) : Fresh (opened nonBlocking reads) where
  view := Or.inl rfl
  queue _ := rfl
  reliable := by simp [Reliable, opened]
  written := rfl

theorem acked_received_first :
    (statusesOf (run [.write [1, 2]] writer).2)[0]? = some 0 ∧ 0 < (got [.read] reader).length := by
  have hzero : statusesOf (run [.write [1, 2]] writer).2 = [0] := by decide +kernel
  refine ⟨by rw [hzero]; rfl, ?_⟩
  refine (acked_received writer reader (fresh_opened _ _) (fresh_opened _ _) [.write [1, 2]] [.read]
    (by decide +kernel) (by decide +kernel) (by decide)).2 (fun w hw hlen => ?_) 0 (by rw [hzero]; rfl)
  have hle := hw.length_le
  rw [hzero, hlen] at hle
  exact absurd hle (by decide)

end IdcuIot.SerialSource
