import IdcuIot.Driver.IdcuSelectTag
import IdcuIot.IoTManager.Counters

/-! # The counts from the bridge to the driver

A count travels as four bytes of a report, as an `unsigned long` in IoTManager, as a signed
decimal text in the database, and as two words of a reply to the driver.  `counts_transported`
is the round trip through all of them. -/

namespace IdcuIot

open Memory IoTManager Driver SqliteManager

/-- The report carries the counts: each is the value of its TLV, high byte first. -/
def CarriesCounts (buffer : Mem) (node : MGData) : Prop :=
  ∀ i : Fin 8, buffer.slice (4 + 6 * i) 4 =
    [Words.byteAt (node.cnt i) 3, Words.byteAt (node.cnt i) 2, Words.byteAt (node.cnt i) 1,
      Words.byteAt (node.cnt i) 0]

instance (buffer : Mem) (node : MGData) : Decidable (CarriesCounts buffer node) :=
  inferInstanceAs (Decidable (∀ _, _))

theorem nodeOf_of_carries {buffer : Mem} {node : MGData} (h : CarriesCounts buffer node) :
    nodeOf buffer = node := by
  refine congrArg MGData.mk (funext fun i => ?_)
  have hbytes := h i
  simp only [Mem.slice_four, List.cons.injEq, and_true] at hbytes
  obtain ⟨h0, h1, h2, h3⟩ := hbytes
  rw [cntAt_eq, h0, h1, h2, h3]
  exact Words.ofBytes_byteAt (node.cnt i)

/-! ### The reply -/

/-- What `getCommStatus` sends behind the header. -/
def channels (node : MGData) : List UInt8 :=
  (List.finRange 8).flatMap (fun j => channel (node.cnt j))

theorem length_channel (x : UInt32) : (channel x).length = 4 := rfl

@[simp] theorem length_channels (node : MGData) : (channels node).length = 32 := rfl

theorem countOf_channel (x : UInt32) : countOf (fun k => (channel x).getD k 0) = x := by
  rw [countOf_eq, channel_eq]
  exact Words.ofBytes_byteAt x

theorem getD_reply (node : MGData) (j : Fin 8) (k : Fin 4) :
    (replyBytes (4, channels node)).getD (9 + 4 * j + k) 0 = (channel (node.cnt j)).getD k 0 := by
  have hlen : ([0x01, 0x02, 0x00, 0x00, 0x00, UInt8.ofNat ((channels node).length + 3), 0x01, 4,
    UInt8.ofNat (channels node).length] : List UInt8).length = 9 := rfl
  unfold replyBytes
  rw [List.getD_append_right _ _ _ _ (by rw [hlen]; omega), hlen,
    show 9 + 4 * (j : ℕ) + k - 9 = 4 * j + k by omega, channels,
    Words.getD_flatMap (fun a => length_channel (node.cnt a)) k.isLt 0 _ (by simp)]
  simp

theorem getCommStatus_eq_replyBytes {db : Db} (node : MGData) (h : db.store = ⟨[rowOf node], none⟩) :
    getCommStatus db .ok = some (replyBytes (4, channels node)) := by
  have hvisible : db.store.visible = [rowOf node] := by
    rw [Transaction.Store.visible, h]
    rfl
  rw [getCommStatus_of_row hvisible (holds_rowOf node), replyBytes, length_channels]
  rfl

theorem countOf_call {c : SelectCall} {node : MGData} (h : c.event = (4, channels node)) :
    c.type = 4 ∧ countOf (fun k => c.byteBuffer k) = node.cnt 0 := by
  obtain ⟨htype, hbytes⟩ := Prod.mk.inj h
  have hbyte : ∀ k : Fin 4, c.byteBuffer k = (channel (node.cnt 0)).getD k 0 := by
    intro k
    have hget := Mem.eq_getElem_of_slice hbytes (show (k : ℕ) < _ by rw [length_channels]; omega)
    rw [Nat.zero_add] at hget
    rw [hget, ← List.getD_eq_getElem _ 0]
    have hblock := Words.getD_flatMap (fun a => length_channel (node.cnt a)) k.isLt 0 (List.finRange 8)
      (i := 0) (by simp)
    rw [Nat.mul_zero, Nat.zero_add] at hblock
    exact hblock.trans rfl
  refine ⟨htype, ?_⟩
  rw [funext hbyte]
  exact countOf_channel (node.cnt 0)

/-- **Counts are transported without loss.**  After a report whose counts are saved,
`getCommStatus` sends a reply of 41 bytes; arriving alone and whole it is accepted by the
driver; the driver's rule gives each count back, and the count that `selectTag_iDCU_IoT`
computes and remembers is the first one; and `init` loads the counts after a restart. -/
theorem counts_transported (s : State) (row : Row) (r : Report) (node : MGData)
    (hrow : s.db.store = ⟨[row], none⟩) (hcounts : r.Counts) (hcarries : CarriesCounts r.buffer node)
    (hchanges : Changes s r) (hsaves : r.outcomes.Saves) :
    ∃ s' reply, receiveEvent s r = some s' ∧ getCommStatus s'.db .ok = some reply ∧
      reply.length = 41 ∧
      (∀ (byteBuffer cvalue : Mem) (remainSize : ℤ), cvalue.slice 0 41 = reply →
        let p := Driver.parsingReceiveValue byteBuffer cvalue 41 remainSize
        p.remainSize = 0 ∧ p.overrun = false ∧ ∃ c, p.calls = [c] ∧ c.event = (4, reply.drop 9) ∧
          countOf (fun k => c.byteBuffer k) = node.cnt 0 ∧
          ∀ t sensingTime, (selectTag t sensingTime c.byteBuffer c.type).1.preQty = node.cnt 0) ∧
      (∀ j : Fin 8, countOf (fun k => reply.getD (9 + 4 * j + k) 0) = node.cnt j) ∧
      (init (boot ⟨s'.db.store.restart, []⟩) .ok).1 = 0 ∧
      (init (boot ⟨s'.db.store.restart, []⟩) .ok).2.pastData = node ∧
      (init (boot ⟨s'.db.store.restart, []⟩) .ok).2.node = node := by
  have hnode := nodeOf_of_carries hcarries
  obtain ⟨db, hsave, hstore⟩ := save_of_saves hrow hsaves node
  have hreceive : receiveEvent s r =
      some { s with node := node, io := ioOf r.buffer, db := db, pastData := node } := by
    rw [receiveEvent_changes hcounts hchanges, hnode, hsave, Option.map_some]
  refine ⟨_, replyBytes (4, channels node), hreceive, getCommStatus_eq_replyBytes node hstore, ?_,
    ?_, ?_, ?_⟩
  · rw [length_replyBytes, length_channels]
  · intro byteBuffer cvalue remainSize hreply
    have hshort : (channels node).length ≤ 32 := (length_channels node).le
    obtain ⟨c, hcalls, hevent, hremain, hover⟩ :=
      parsingReceiveValue_alone byteBuffer cvalue remainSize (e := (4, channels node)) hshort hreply
    obtain ⟨htype, hcount⟩ := countOf_call hevent
    refine ⟨hremain, hover, c, hcalls, hevent, hcount, fun t sensingTime => ?_⟩
    rw [htype, preQty_selectTag, hcount]
  · intro j
    rw [funext (getD_reply node j)]
    exact countOf_channel (node.cnt j)
  · have hvisible : (boot ⟨db.store.restart, []⟩).db.store.visible = [rowOf node] := by
      rw [boot, Transaction.Store.visible_of_closed rfl]
      exact congrArg Transaction.Store.committed hstore
    rw [init_of_row hvisible (holds_rowOf node)]
    exact ⟨rfl, rfl, rfl⟩

/-- Counts above `2^31`, which the database holds as negative numbers. -/
def fullNode : MGData := ⟨fun k => 0xFFFFFF00 + UInt32.ofNat k⟩

/-- A report that carries them. -/
def fullReport : Report :=
  { buffer := Mem.store (fun _ => 0) 0 ([0xFE, 73] ++
      (List.range 8).flatMap (fun k => [UInt8.ofNat (k + 2), 4, 0xFF, 0xFF, 0xFF, UInt8.ofNat k]) ++
      (List.range 8).flatMap (fun k => [UInt8.ofNat (k + 10), 1, 1]) ++ [21, 0xFF])
    outcomes := ⟨⟨.ok, false⟩, ⟨.ok, false⟩, [⟨.ok, false⟩]⟩ }

theorem counts_transported_full : ∃ s' reply, receiveEvent (boot zeros) fullReport = some s' ∧
    getCommStatus s'.db .ok = some reply ∧ reply.length = 41 ∧
    (∀ j : Fin 8, countOf (fun k => reply.getD (9 + 4 * j + k) 0) = fullNode.cnt j) ∧
    (init (boot ⟨s'.db.store.restart, []⟩) .ok).2.pastData = fullNode := by
  obtain ⟨s', reply, hreceive, hreply, hlen, -, hdecode, -, hpast, -⟩ :=
    counts_transported (boot zeros) (fun _ => ['0']) fullReport fullNode rfl (by decide) (by decide)
      (by decide) (by decide)
  exact ⟨s', reply, hreceive, hreply, hlen, hdecode, hpast⟩

end IdcuIot
