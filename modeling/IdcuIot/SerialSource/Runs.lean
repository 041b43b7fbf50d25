import IdcuIot.SerialSource.Calls

/-! # serialsource: runs of calls

A program calls `read_serial_packet` and `write_serial_packet` in any order (`run`).  However the
line hands out its bytes, the packets it reads are those on the line, each once and in order, and
so are the acknowledgements it gives (`run_spec`); a write is taken for acknowledged only when the
acknowledgement it read last bears its number (`Acked`). -/

namespace IdcuIot.SerialSource

open Stuffing

/-- A call of a program. -/
inductive Call where
  | read
  | write (packet : List UInt8)
deriving DecidableEq, Repr

/-- What a call returns. -/
inductive Ret where
  | packet (p : Option (List UInt8))
  | status (r : ℤ)
deriving DecidableEq, Repr

/-- A call, and what it returns if it does. -/
def Call.perform : Call → Source → Source × Option Ret
  | .read, s => (s.readSerialPacket.1, s.readSerialPacket.2.map Ret.packet)
  | .write packet, s => ((s.writeSerialPacket packet).1, (s.writeSerialPacket packet).2.map Ret.status)

/-- Calls one after the other, up to the first one that does not return, and what they return. -/
def run : List Call → Source → Source × List Ret
  | [], s => (s, [])
  | c :: cs, s =>
      match c.perform s with
      | (s', none) => (s', [])
      | (s', some r) => ((run cs s').1, r :: (run cs s').2)

theorem run_cons_of_none {c : Call} {s : Source} (h : (c.perform s).2 = none) (cs : List Call) :
    run (c :: cs) s = ((c.perform s).1, []) := by
  rw [run]
  split <;> simp_all

theorem run_cons_of_some {c : Call} {s : Source} {r : Ret} (h : (c.perform s).2 = some r)
    (cs : List Call) :
    run (c :: cs) s = ((run cs (c.perform s).1).1, r :: (run cs (c.perform s).1).2) := by
  rw [run]
  split <;> simp_all

/-- The packets that the reads returned. -/
def packetsOf (rs : List Ret) : List (List UInt8) :=
  rs.filterMap (fun r => match r with
    | .packet p => p
    | .status _ => none)

/-- What the writes returned. -/
def statusesOf (rs : List Ret) : List ℤ :=
  rs.filterMap (fun r => match r with
    | .packet _ => none
    | .status r => some r)

/-- The packets that are written. -/
def writesOf (cs : List Call) : List (List UInt8) :=
  cs.filterMap (fun c => match c with
    | .read => none
    | .write packet => some packet)

/-- The frames of packets that are written one after the other. -/
def numbered (seqno : UInt8) : List (List UInt8) → List Framed
  | [] => []
  | packet :: ps => ⟨pPacketAck, seqno + 1, packet⟩ :: numbered (seqno + 1) ps

/-- How the acknowledgements a program reads belong to its writes: the one that a write returning
0 read last bears the write's number. -/
inductive Acked : UInt8 → List ℤ → List (List UInt8) → Prop
  | rest (seqno : UInt8) (acks : List (List UInt8)) : Acked seqno [] acks
  | zero {seqno : UInt8} {rs : List ℤ} {acks before : List (List UInt8)} {ack : List UInt8} :
      ack.getD 0 0 = seqno + 1 → Acked (seqno + 1) rs acks →
        Acked seqno (0 :: rs) (before ++ ack :: acks)
  | other {seqno : UInt8} {rs : List ℤ} {acks before : List (List UInt8)} {r : ℤ} :
      r ≠ 0 → Acked (seqno + 1) rs acks → Acked seqno (r :: rs) (before ++ acks)

namespace Source

/-- Packets taken from one queue. -/
def taken (type : UInt8) (ps : List (List UInt8)) : UInt8 → List (List UInt8) :=
  fun t => if t = type then ps else []

theorem pop_spec (s : Source) (type : UInt8) :
    Ran s (s.popProtocolPacket type).1 [] [] (taken type (s.popProtocolPacket type).2.toList) ∧
      (s.popProtocolPacket type).1.seqno = s.seqno ∧
      ((s.popProtocolPacket type).2 = none → (s.popProtocolPacket type).1 = s ∧
        s.queue type = []) := by
  unfold popProtocolPacket
  cases hqueue : s.queue type with
  | nil =>
      refine ⟨?_, rfl, fun _ => ⟨rfl, rfl⟩⟩
      have hnothing : taken type (none : Option (List UInt8)).toList = nothing := by
        funext t
        unfold taken
        split_ifs <;> rfl
      rw [hnothing]
      exact Ran.refl s
  | cons packet rest =>
      refine ⟨⟨rfl, rfl, fun t => ?_, rfl, fun h => ⟨h, by simp⟩⟩, rfl, by simp⟩
      by_cases ht : t = type
      · subst ht
        simp [taken, hqueue]
      · simp [taken, ht]

/-! ### Single calls -/

/-- Answers are written, and nothing else, while bytes are read. -/
structure Took (s s' : Source) (bytes : List UInt8) (out : UInt8 → List (List UInt8)) : Prop where
  ran : Ran s s' bytes ((packets s.view bytes).flatMap answer) out
  seqno : s'.seqno = s.seqno

theorem Took.trans {s s' s'' : Source} {bytes bytes' : List UInt8}
    {out out' : UInt8 → List (List UInt8)} (h : Took s s' bytes out) (h' : Took s' s'' bytes' out') :
    Took s s'' (bytes ++ bytes') (fun t => out t ++ out' t) where
  ran := by
    have hran := h.ran.trans h'.ran
    rwa [h.ran.view, ← List.flatMap_append, ← packets_append] at hran
  seqno := h'.seqno.trans h.seqno

theorem Processed.took {s s' : Source} {r : Option Unit} {bytes : List UInt8}
    (h : Processed s s' r bytes) : Took s s' bytes nothing := ⟨h.ran, h.seqno⟩

theorem took_pop (s : Source) (type : UInt8) :
    Took s (s.popProtocolPacket type).1 [] (taken type (s.popProtocolPacket type).2.toList) :=
  ⟨(s.pop_spec type).1, (s.pop_spec type).2.1⟩

theorem took_sourceWait (s : Source) : Took s s.sourceWait.1 [] nothing := by
  unfold sourceWait
  split
  · exact ⟨Ran.refl _, rfl⟩
  · exact ⟨Ran.refl _, rfl⟩
  · exact ⟨Ran.of_input rfl rfl rfl ⟨rfl, rfl, rfl⟩, rfl⟩

theorem taken_append (type : UInt8) (ps ps' : List (List UInt8)) :
    (fun t => taken type ps t ++ taken type ps' t) = taken type (ps ++ ps') := by
  funext t
  unfold taken
  split_ifs <;> rfl

theorem taken_nil (type : UInt8) : taken type [] = nothing := by
  funext t
  unfold taken
  split_ifs <;> rfl

/-- **A read** takes at most the packet it returns from the queue; it blocks only when everything is
read and the queue is empty behind what it read. -/
theorem readSerialPacket_spec (s : Source) :
    ∃ bytes, Took s s.readSerialPacket.1 bytes
        (taken pPacketNoAck (s.readSerialPacket.2.bind id).toList) ∧
      (s.readSerialPacket.2 = none → s.readSerialPacket.1.input = []) ∧
      s.readSerialPacket.2 ≠ some none := by
  induction s using readSerialPacket.induct with
  | case1 s s' hr =>
      obtain ⟨bytes, hproc⟩ := s.readAndProcess_spec
      rw [hr] at hproc
      rw [readSerialPacket_of_waiting hr]
      refine ⟨bytes, ?_, fun _ => (hproc.blocks rfl).1, by simp⟩
      rw [show ((none : Option (Option (List UInt8))).bind id).toList = [] from rfl, taken_nil]
      exact hproc.took
  | case2 s s' hr packet hpop =>
      obtain ⟨bytes, hproc⟩ := s.readAndProcess_spec
      rw [hr] at hproc
      rw [readSerialPacket_of_done hr, hpop]
      have htook := hproc.took.trans (s'.took_pop pPacketNoAck)
      rw [hpop, List.append_nil] at htook
      exact ⟨bytes, htook, by simp, by simp⟩
  | case3 s s' hr hpop hnull => simp [serialSourceEmpty] at hnull
  | case4 s s' hr hpop hnull ih =>
      obtain ⟨bytes, hproc⟩ := s.readAndProcess_spec
      rw [hr] at hproc
      obtain ⟨bytes', htook, hblocks⟩ := ih
      rw [readSerialPacket_of_done hr, hpop]
      exact ⟨bytes ++ bytes', hproc.took.trans htook, hblocks⟩

theorem awaitAck_spec (s : Source) :
    ∃ bytes acks, Took s s.awaitAck.1 bytes (taken pAck acks) ∧
      (s.awaitAck.2 = some 0 → ∃ before ack, acks = before ++ [ack] ∧ ack.getD 0 0 = s.seqno) := by
  induction s using awaitAck.induct with
  | case1 s s' hr =>
      obtain ⟨bytes, hproc⟩ := s.readAndProcess_spec
      rw [hr] at hproc
      rw [awaitAck_of_waiting hr]
      exact ⟨bytes, [], by rw [taken_nil]; exact hproc.took, by simp⟩
  | case2 s s' hr packet hpop hseq =>
      obtain ⟨bytes, hproc⟩ := s.readAndProcess_spec
      rw [hr] at hproc
      rw [awaitAck_of_done hr, hpop]
      simp only [hseq, if_true]
      have htook := hproc.took.trans (s'.took_pop pAck)
      rw [hpop, List.append_nil] at htook
      exact ⟨bytes, [packet], htook, fun _ => ⟨[], packet, rfl, hseq.trans hproc.seqno⟩⟩
  | case3 s s' hr packet hpop hseq ih =>
      obtain ⟨bytes, hproc⟩ := s.readAndProcess_spec
      rw [hr] at hproc
      rw [awaitAck_of_done hr, hpop]
      simp only [hseq, if_false]
      obtain ⟨bytes', acks, htook', hzero⟩ := ih
      have htook := (hproc.took.trans (s'.took_pop pAck)).trans htook'
      rw [hpop, List.append_nil] at htook
      refine ⟨bytes ++ bytes', packet :: acks, ?_, fun h => ?_⟩
      · rw [← List.singleton_append, ← taken_append]
        exact htook
      · obtain ⟨before, ack, rfl, hack⟩ := hzero h
        exact ⟨packet :: before, ack, rfl,
          hack.trans ((s'.pop_spec pAck).2.1.trans hproc.seqno)⟩
  | case4 s s' hr hpop hwait ih =>
      obtain ⟨bytes, hproc⟩ := s.readAndProcess_spec
      rw [hr] at hproc
      rw [awaitAck_of_done hr, hpop]
      simp only [hwait, if_true]
      obtain ⟨bytes', acks, htook', hzero⟩ := ih
      have htook := (hproc.took.trans s'.took_sourceWait).trans htook'
      rw [List.append_nil] at htook
      refine ⟨bytes ++ bytes', acks, htook, fun h => ?_⟩
      obtain ⟨before, ack, hacks, hack⟩ := hzero h
      exact ⟨before, ack, hacks, hack.trans (s'.took_sourceWait.seqno.trans hproc.seqno)⟩
  | case5 s s' hr hpop hwait =>
      obtain ⟨bytes, hproc⟩ := s.readAndProcess_spec
      rw [hr] at hproc
      rw [awaitAck_of_done hr, hpop]
      simp only [hwait]
      have htook := hproc.took.trans s'.took_sourceWait
      rw [List.append_nil] at htook
      exact ⟨bytes, [], by rw [taken_nil]; exact htook, by simp⟩

theorem ran_writeFramedPacket (s : Source) (packet : List UInt8) :
    Ran s ({ s with seqno := s.seqno + 1 }.writeFramedPacket pPacketAck (s.seqno + 1) packet).1 []
        [⟨pPacketAck, s.seqno + 1, packet⟩] nothing ∧
      ({ s with seqno := s.seqno + 1 }.writeFramedPacket pPacketAck (s.seqno + 1) packet).1.seqno =
        s.seqno + 1 := by
  have hquiet := quiet_sourceWrite { s with seqno := s.seqno + 1 }
    (framedPacket pPacketAck (s.seqno + 1) packet)
  refine ⟨⟨?_, ?_, fun t => ?_, by simp [pAck, pPacketAck], fun hs => ?_⟩, hquiet.seqno⟩
  · rw [writeFramedPacket, hquiet.input_eq]
    rfl
  · rw [writeFramedPacket, view_sourceWrite]
    rfl
  · rw [writeFramedPacket, queue_sourceWrite]
    simp
  · obtain ⟨-, hr, hw⟩ := sourceWrite_of_reliable (s := { s with seqno := s.seqno + 1 }) hs
      (framedPacket pPacketAck (s.seqno + 1) packet)
    refine ⟨hr, ?_⟩
    rw [writeFramedPacket, hw, List.flatMap_singleton]
    rfl

/-- **A write** sends one packet, and returns 0 only when it read the acknowledgement of it. -/
theorem writeSerialPacket_spec (s : Source) (packet : List UInt8) :
    ∃ bytes acks, Ran s (s.writeSerialPacket packet).1 bytes
        (⟨pPacketAck, s.seqno + 1, packet⟩ :: (packets s.view bytes).flatMap answer)
        (taken pAck acks) ∧
      (s.writeSerialPacket packet).1.seqno = s.seqno + 1 ∧
      ((s.writeSerialPacket packet).2 = some 0 →
        ∃ before ack, acks = before ++ [ack] ∧ ack.getD 0 0 = s.seqno + 1) := by
  obtain ⟨hran, hseqno⟩ := s.ran_writeFramedPacket packet
  unfold writeSerialPacket
  dsimp only
  split_ifs with hok
  · obtain ⟨bytes, acks, htook, hzero⟩ := awaitAck_spec
      ({ s with seqno := s.seqno + 1 }.writeFramedPacket pPacketAck (s.seqno + 1) packet).1
    have hview := hran.view
    rw [after_nil] at hview
    have hboth := hran.trans htook.ran
    rw [hview] at hboth
    exact ⟨bytes, acks, hboth, htook.seqno.trans hseqno, fun h => by
      obtain ⟨before, ack, hacks, hack⟩ := hzero h
      exact ⟨before, ack, hacks, hack.trans hseqno⟩⟩
  · exact ⟨[], [], by rw [taken_nil]; exact hran, hseqno, by simp⟩

end Source

/-! ### Runs -/

open Source

/-- What is taken from the two queues. -/
def takenBoth (ps acks : List (List UInt8)) : UInt8 → List (List UInt8) :=
  fun t => taken pPacketNoAck ps t ++ taken pAck acks t

theorem takenBoth_append (ps ps' acks acks' : List (List UInt8)) :
    (fun t => takenBoth ps acks t ++ takenBoth ps' acks' t) =
      takenBoth (ps ++ ps') (acks ++ acks') := by
  have hdiff : ¬ pPacketNoAck = pAck := by decide
  funext t
  unfold takenBoth taken
  by_cases ht : t = pPacketNoAck
  · simp [ht, hdiff]
  · simp [ht]
    split_ifs <;> rfl

theorem takenBoth_packets (ps : List (List UInt8)) : takenBoth ps [] = taken pPacketNoAck ps := by
  funext t
  unfold takenBoth
  rw [taken_nil, List.append_nil]

theorem takenBoth_acks (acks : List (List UInt8)) : takenBoth [] acks = taken pAck acks := by
  funext t
  unfold takenBoth
  rw [taken_nil]
  rfl

/-- What happens in a run. -/
structure Happened (s s' : Source) (cs : List Call) (rs : List Ret) (bytes : List UInt8)
    (frames : List Framed) (acks : List (List UInt8)) : Prop where
  ran : Ran s s' bytes frames (takenBoth (packetsOf rs) acks)
  data : frames.filter (fun f => decide (f.packetType = pPacketAck)) =
    numbered s.seqno (writesOf (cs.take (rs.length + 1)))
  acked : Acked s.seqno (statusesOf rs) acks
  kinds : ∀ f ∈ frames, f.packetType = pAck ∨ f.packetType = pPacketAck

theorem kind_of_mem_answers {ps : List (List UInt8)} {f : Framed} (h : f ∈ ps.flatMap answer) :
    f.packetType = pAck := by
  obtain ⟨packet, -, hanswer⟩ := List.mem_flatMap.mp h
  unfold answer at hanswer
  split_ifs at hanswer
  · rw [List.mem_singleton.mp hanswer]
  · cases hanswer

theorem data_answers (ps : List (List UInt8)) :
    (ps.flatMap answer).filter (fun f => decide (f.packetType = pPacketAck)) = [] := by
  rw [List.filter_eq_nil_iff]
  intro f hf
  rw [kind_of_mem_answers hf]
  decide

theorem Happened.read {s s₁ s' : Source} {p : Option (List UInt8)} {bytes bytes' : List UInt8}
    (htook : Took s s₁ bytes (taken pPacketNoAck p.toList)) {cs : List Call} {rs : List Ret}
    {frames : List Framed} {acks : List (List UInt8)}
    (h : Happened s₁ s' cs rs bytes' frames acks) :
    Happened s s' (.read :: cs) (.packet p :: rs) (bytes ++ bytes')
      ((packets s.view bytes).flatMap answer ++ frames) acks where
  ran := by
    have hran := htook.ran.trans h.ran
    rw [← takenBoth_packets, takenBoth_append] at hran
    have hpackets : p.toList ++ packetsOf rs = packetsOf (.packet p :: rs) := by
      cases p <;> rfl
    rwa [hpackets] at hran
  data := by
    rw [List.filter_append, data_answers, List.nil_append, h.data, htook.seqno]
    rfl
  acked := by
    have hacked := h.acked
    rwa [htook.seqno] at hacked
  kinds f hf := by
    rcases List.mem_append.mp hf with hans | hrest
    · exact Or.inl (kind_of_mem_answers hans)
    · exact h.kinds f hrest

theorem Happened.write {s s₁ s' : Source} {packet : List UInt8} {r : ℤ} {bytes bytes' : List UInt8}
    {acks acks' : List (List UInt8)}
    (hran : Ran s s₁ bytes
      (⟨pPacketAck, s.seqno + 1, packet⟩ :: (packets s.view bytes).flatMap answer) (taken pAck acks))
    (hseqno : s₁.seqno = s.seqno + 1)
    (hzero : r = 0 → ∃ before ack, acks = before ++ [ack] ∧ ack.getD 0 0 = s.seqno + 1)
    {cs : List Call} {rs : List Ret} {frames : List Framed}
    (h : Happened s₁ s' cs rs bytes' frames acks') :
    Happened s s' (.write packet :: cs) (.status r :: rs) (bytes ++ bytes')
      (⟨pPacketAck, s.seqno + 1, packet⟩ :: (packets s.view bytes).flatMap answer ++ frames)
      (acks ++ acks') where
  ran := by
    have hboth := hran.trans h.ran
    rwa [← takenBoth_acks, takenBoth_append] at hboth
  data := by
    rw [List.filter_append, List.filter_cons, if_pos (by simp), data_answers, h.data, hseqno]
    rfl
  acked := by
    have hacked := h.acked
    rw [hseqno] at hacked
    change Acked s.seqno (r :: statusesOf rs) (acks ++ acks')
    by_cases hr : r = 0
    · subst hr
      obtain ⟨before, ack, rfl, hack⟩ := hzero rfl
      rw [List.append_assoc]
      exact .zero hack hacked
    · exact .other hr hacked
  kinds f hf := by
    rcases List.mem_append.mp hf with hsent | hrest
    · rcases List.mem_cons.mp hsent with rfl | hans
      · exact Or.inr rfl
      · exact Or.inl (kind_of_mem_answers hans)
    · exact h.kinds f hrest

/-- **Every run** of reads and writes. -/
theorem run_spec (cs : List Call) (s : Source) :
    ∃ bytes frames acks, Happened s (run cs s).1 cs (run cs s).2 bytes frames acks := by
  induction cs generalizing s with
  | nil =>
      refine ⟨[], [], [], ?_, rfl, .rest _ _, by simp⟩
      have hran := Ran.refl s
      rwa [← taken_nil pPacketNoAck, ← takenBoth_packets] at hran
  | cons c cs ih =>
      cases c with
      | read =>
          obtain ⟨bytes, htook, -, -⟩ := s.readSerialPacket_spec
          obtain ⟨bytes', frames, acks, hrest⟩ := ih s.readSerialPacket.1
          cases hr : s.readSerialPacket.2 with
          | none =>
              rw [run_cons_of_none (c := .read) (by simp [Call.perform, hr])]
              rw [hr] at htook
              refine ⟨bytes, (packets s.view bytes).flatMap answer, [], ?_, data_answers _, .rest _ _,
                fun f hf => Or.inl (kind_of_mem_answers hf)⟩
              have hran := htook.ran
              rwa [← takenBoth_packets] at hran
          | some p =>
              rw [run_cons_of_some (c := .read) (r := .packet p) (by simp [Call.perform, hr])]
              rw [hr] at htook
              exact ⟨_, _, _, hrest.read htook⟩
      | write packet =>
          obtain ⟨bytes, acks, hran, hseqno, hzero⟩ := s.writeSerialPacket_spec packet
          obtain ⟨bytes', frames, acks', hrest⟩ := ih (s.writeSerialPacket packet).1
          cases hr : (s.writeSerialPacket packet).2 with
          | none =>
              rw [run_cons_of_none (c := .write packet) (by simp [Call.perform, hr])]
              rw [← takenBoth_acks] at hran
              refine ⟨bytes, ⟨pPacketAck, s.seqno + 1, packet⟩ ::
                (packets s.view bytes).flatMap answer, acks, hran, ?_, .rest _ _, fun f hf => ?_⟩
              · rw [List.filter_cons, if_pos (by simp), data_answers]
                rfl
              · rcases List.mem_cons.mp hf with rfl | hans
                · exact Or.inr rfl
                · exact Or.inl (kind_of_mem_answers hans)
          | some r =>
              rw [run_cons_of_some (c := .write packet) (r := .status r) (by simp [Call.perform, hr])]
              rw [hr] at hzero
              exact ⟨_, _, _, hrest.write hran hseqno (fun h => hzero (by rw [h]))⟩

/-- **Nothing is lost, doubled or reordered** in any run, from any state: the packets with data in the
bytes that were read are those that the reads returned and those still queued; packets of other
protocols stay queued.  Where no write fails, each packet that asks for it is answered once, each
write sends its packet under the next number, and nothing else is put on the line. -/
theorem run_conserves (cs : List Call) (s : Source) :
    ∃ (bytes : List UInt8) (frames : List Framed), s.input = bytes ++ (run cs s).1.input ∧
      s.queue pPacketNoAck ++ received pPacketNoAck (packets s.view bytes) =
        packetsOf (run cs s).2 ++ (run cs s).1.queue pPacketNoAck ∧
      (∀ t, t ≠ pPacketNoAck → t ≠ pAck →
        (run cs s).1.queue t = s.queue t ++ received t (packets s.view bytes)) ∧
      frames.filter (fun f => decide (f.packetType = pAck)) =
        (packets s.view bytes).flatMap answer ∧
      frames.filter (fun f => decide (f.packetType = pPacketAck)) =
        numbered s.seqno (writesOf (cs.take ((run cs s).2.length + 1))) ∧
      (∀ f ∈ frames, f.packetType = pAck ∨ f.packetType = pPacketAck) ∧
      (s.Reliable → (run cs s).1.written = s.written ++ frames.flatMap Framed.bytes) := by
  obtain ⟨bytes, frames, acks, hap⟩ := run_spec cs s
  have hdiff : ¬ pPacketNoAck = pAck := by decide
  refine ⟨bytes, frames, hap.ran.input, ?_, fun t ht ht' => ?_, hap.ran.acks, hap.data, hap.kinds,
    fun hs => (hap.ran.written hs).2⟩
  · rw [hap.ran.queue]
    simp [takenBoth, taken, hdiff]
  · rw [hap.ran.queue]
    simp [takenBoth, taken, ht, ht']

/-- A read and a write on a line that has one packet to read. -/
theorem run_conserves_two :
    ∃ frames : List Framed,
      frames.filter (fun f => decide (f.packetType = pPacketAck)) = [⟨pPacketAck, 38, [7]⟩] ∧
      (run [.read, .write [7]] (opened true
          [.data (framedPacket pPacketAck 1 [5]) (by decide +kernel), .again])).1.written =
        frames.flatMap Framed.bytes := by
  obtain ⟨-, frames, -, -, -, -, hdata, -, hwritten⟩ := run_conserves [.read, .write [7]]
    (opened true [.data (framedPacket pPacketAck 1 [5]) (by decide +kernel), .again])
  have hlen : (run [.read, .write [7]] (opened true
      [.data (framedPacket pPacketAck 1 [5]) (by decide +kernel), .again])).2.length = 2 := by
    decide +kernel
  rw [hlen] at hdata
  exact ⟨frames, hdata, (hwritten (by simp [Reliable, opened])).trans (List.nil_append _)⟩

end IdcuIot.SerialSource
