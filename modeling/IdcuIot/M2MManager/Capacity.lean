import IdcuIot.Lib.Footprint
import IdcuIot.M2MManager.RoundTrip

/-! # M2MManager: room for the replies

The number of rows of a query is not limited, the arrays are: 2048 and 256 records and 20480 bytes
for the replies with data, 64 records and 1024 bytes on the stack for the list of nodes.  No loop
looks at the size of its array.  `replies_fit_iff` gives the numbers of rows up to which nothing
is written behind an array.  `getNodeData` copies six bytes more than its records have, the time
in front of them being counted twice, so that `tlvSendBuffer` is full at 1461 rows and not at
2048. -/

namespace IdcuIot.M2MManager

open Memory Decimal

/-! ### Answers with any rows -/

/-- What the three queries give when they select `rows`. -/
def logAnswer (rows : List (List Text)) : SelectData :=
  el1000Sqlite3Select (some (["nodeid".toList, "tag".toList, "value".toList,
    "strftime('%Y%m%d%H%M%f', datetime)".toList], rows))

def statusAnswer (rows : List (List Text)) : SelectData :=
  el1000Sqlite3Select (some (["nodeid".toList, "6".toList, "port1".toList, "port2".toList,
    "port3".toList, "port4".toList, "port5".toList, "port6".toList,
    "strftime('%Y%m%d%H%M%f', datetime)".toList], rows))

def nodesAnswer (rows : List (List Text)) : SelectData :=
  el1000Sqlite3Select (some (["nodeid".toList, "groupid".toList,
    "strftime('%Y%m%d%H%M%S', datetime)".toList], rows))

theorem rows_logAnswer {rows : List (List Text)} (h : rows ≠ []) :
    0 < (logAnswer rows).size ∧ (((logAnswer rows).size - 4) / 4).toNat = rows.length := by
  have hsize : (logAnswer rows).size = 4 * ((rows.length : ℤ) + 1) := size_of_ne_nil _ h
  omega

theorem rows_statusAnswer {rows : List (List Text)} (h : rows ≠ []) :
    0 < (statusAnswer rows).size ∧ (((statusAnswer rows).size - 9) / 9).toNat = rows.length := by
  have hsize : (statusAnswer rows).size = 9 * ((rows.length : ℤ) + 1) := size_of_ne_nil _ h
  omega

theorem rows_nodesAnswer {rows : List (List Text)} (h : rows ≠ []) :
    0 < (nodesAnswer rows).size ∧ (((nodesAnswer rows).size - 3) / 3).toNat = rows.length := by
  have hsize : (nodesAnswer rows).size = 3 * ((rows.length : ℤ) + 1) := size_of_ne_nil _ h
  omega

/-! ### The loops -/

section
variable (data : SelectData)

theorem fillAustemSend_store (n : ℕ) : ∀ i rowSize, ∃ l : List UInt8, l.length = 14 * n ∧
    ∀ m, fillAustemSend data n i rowSize m = m.store (14 * i) l := by
  induction n with
  | zero => exact fun i rowSize => ⟨[], rfl, fun m => (m.store_nil _).symm⟩
  | succ n ih =>
      intro i rowSize
      obtain ⟨l, hl, hstore⟩ := ih (i + 1) (rowSize + 4)
      refine ⟨austemSendData data rowSize ++ l, ?_, fun m => ?_⟩
      · rw [List.length_append, hl, Nat.mul_succ, Nat.add_comm]
        rfl
      · rw [fillAustemSend, hstore, Mem.store_append]
        rfl

theorem fillSend_store (n : ℕ) : ∀ i selectOffset, ∃ l : List UInt8, l.length = 8 * n ∧
    ∀ m, fillSend data n i selectOffset m = m.store (8 * i) l := by
  induction n with
  | zero => exact fun i selectOffset => ⟨[], rfl, fun m => (m.store_nil _).symm⟩
  | succ n ih =>
      intro i selectOffset
      obtain ⟨l, hl, hstore⟩ := ih (i + 1) (selectOffset + 3)
      refine ⟨rtrnNodeGroup data selectOffset ++ l, ?_, fun m => ?_⟩
      · rw [List.length_append, hl, Nat.mul_succ, Nat.add_comm]
        rfl
      · rw [fillSend, hstore, Mem.store_append]
        rfl

theorem keepsFrom_fillAustemStatusSend (n i rowSize : ℕ) :
    Mem.KeepsFrom (40 * (i + n)) (fillAustemStatusSend data n i rowSize) := by
  induction n generalizing i rowSize with
  | zero => exact fun m x _ => rfl
  | succ n ih =>
      intro m x hx
      have hhead : (statusHead data rowSize).length = 26 := rfl
      have htime : (timeOrigin (data.entry (rowSize + 8))).length = 6 := rfl
      rw [fillAustemStatusSend, ih (i + 1) (rowSize + 9) _ x (by omega),
        Mem.store_of_le _ (by omega), Mem.store_of_le _ (by omega)]

theorem overwrites_fillAustemStatusSend (n i rowSize j : ℕ) (hi : i ≤ j) (hj : j < i + n) :
    Mem.Overwrites (40 * j) (fillAustemStatusSend data n i rowSize) := by
  induction n generalizing i rowSize with
  | zero => omega
  | succ n ih =>
      intro m b
      have hhead : (statusHead data rowSize).length = 26 := rfl
      have htime : (timeOrigin (data.entry (rowSize + 8))).length = 6 := rfl
      rw [fillAustemStatusSend, fillAustemStatusSend]
      rcases Nat.eq_or_lt_of_le hi with rfl | hlt
      · rw [Mem.store_update_of_mem le_rfl (by omega)]
      · rw [Mem.store_update_of_disjoint (Or.inr (by omega)),
          Mem.store_update_of_disjoint (Or.inr (by omega))]
        exact ih (i + 1) (rowSize + 9) hlt (by omega) _ b

end

/-! ### The arrays of the three functions -/

/-- No byte behind a global array is changed. -/
structure BuffersKept (b b' : Buffers) : Prop where
  austemSend : ∀ x, 14 * 2048 ≤ x → b'.austemSend x = b.austemSend x
  austemStatusSend : ∀ x, 40 * 256 ≤ x → b'.austemStatusSend x = b.austemStatusSend x
  tlvSendBuffer : ∀ x, 20480 ≤ x → b'.tlvSendBuffer x = b.tlvSendBuffer x

/-- The arrays `send` and `sendBuffer` at the end of `commandGetNodeInfo`, from what was on the
stack. -/
def nodeInfoArrays (selectData : SelectData) (send sendBuffer : Mem) : Mem × Mem :=
  let send := send.clear 0 (8 * 64)
  let sendBuffer := (sendBuffer.clear 0 1024).store 0 [0xFE]
  if 0 < selectData.size then
    let rowCnt := ((selectData.size - 3) / 3).toNat
    let send := fillSend selectData rowCnt 0 3 send
    let vLength := 8 * rowCnt
    let totalLength := vLength + 3
    let sendBuffer := sendBuffer.store 0 (frameHead 0x05 totalLength vLength)
    (send, (sendBuffer.memcpy 6 send 0 vLength).store (totalLength + 3) [0xFF])
  else (send, sendBuffer)

theorem commandGetNodeInfo_slice {rows : List (List Text)} (h : rows ≠ [])
    (send sendBuffer : Mem) :
    commandGetNodeInfo (nodesAnswer rows) =
      [(nodeInfoArrays (nodesAnswer rows) send sendBuffer).2.slice 0 (8 * rows.length + 3 + 4)] := by
  obtain ⟨hpos, hcount⟩ := rows_nodesAnswer h
  obtain ⟨l, hl, hstore⟩ := fillSend_store (nodesAnswer rows) rows.length 0 3
  have hframe := fun m send : Mem => slice_listFrame m (slice_store_zero (n := 8) send l)
  simp only [hl] at hframe
  simp only [commandGetNodeInfo, nodeInfoArrays, if_pos hpos, hcount, hstore, hframe]

/-- `getNodeData` writes inside of its arrays, and its lengths fit in 16 bits. -/
structure LogFits (time : QueryTime) (rows : List (List Text)) : Prop where
  kept : ∀ b, BuffersKept b (getNodeData (logAnswer rows) time b).2
  lengths : ∀ b, ∀ frame ∈ (getNodeData (logAnswer rows) time b).1,
    field frame 1 = 14 * rows.length + 6 + 4 ∧ field frame 4 = 14 * rows.length + 6

/-- The same for `getNodeStatusData`. -/
structure StatusFits (time : QueryTime) (rows : List (List Text)) : Prop where
  kept : ∀ b, BuffersKept b (getNodeStatusData (statusAnswer rows) time b).2
  lengths : ∀ b, ∀ frame ∈ (getNodeStatusData (statusAnswer rows) time b).1,
    field frame 1 = 40 * rows.length + 6 + 4 ∧ field frame 4 = 40 * rows.length + 6

/-- The same for `commandGetNodeInfo`. -/
structure NodesFit (rows : List (List Text)) : Prop where
  send : ∀ sendBuffer,
    Mem.KeepsFrom (8 * 64) (fun m => (nodeInfoArrays (nodesAnswer rows) m sendBuffer).1)
  sendBuffer : ∀ send,
    Mem.KeepsFrom 1024 (fun m => (nodeInfoArrays (nodesAnswer rows) send m).2)
  lengths : ∀ frame ∈ commandGetNodeInfo (nodesAnswer rows),
    field frame 1 = 8 * rows.length + 3 ∧ field frame 4 = 8 * rows.length

/-! ### `tlvSendBuffer` -/

section
variable (type : UInt8) (totalLength vLength : ℕ) (time : QueryTime)

theorem keepsFrom_putHead {n : ℕ} (h : 12 ≤ n) :
    Mem.KeepsFrom n (fun m => putHead m type totalLength vLength time) :=
  (Mem.keepsFrom_store (show 6 + 6 ≤ n from h)).comp
    (Mem.keepsFrom_store (show 0 + 6 ≤ n by omega))

theorem keepsFrom_putEnd {n : ℕ} (h : vLength + 8 ≤ n) :
    Mem.KeepsFrom n (fun m => putEnd m vLength) := by
  intro m x hx
  dsimp only [putEnd]
  rw [Mem.store_of_le _ (show vLength + 7 + 1 ≤ x by omega),
    Mem.store_of_le _ (show vLength + 6 + 1 ≤ x by omega)]

theorem putHead_update (m : Mem) {x : ℕ} (b : UInt8) (h : 12 ≤ x) :
    putHead (Function.update m x b) type totalLength vLength time =
      Function.update (putHead m type totalLength vLength time) x b := by
  unfold putHead
  rw [Mem.store_update_of_disjoint (Or.inr (show 0 + 6 ≤ x by omega)),
    Mem.store_update_of_disjoint (Or.inr (show 6 + 6 ≤ x from h))]

/-- A frame that is put together in `tlvSendBuffer`, which is cleared afterwards. -/
theorem keepsFrom_frame (src : Mem) (h : vLength + 12 ≤ 20480) :
    Mem.KeepsFrom 20480 (fun m => (putEnd ((putHead m type totalLength vLength time).memcpy 12 src 0
      vLength) vLength).clear 0 20480) := by
  have hcopy : Mem.KeepsFrom 20480 (fun m => m.memcpy 12 src 0 vLength) :=
    Mem.keepsFrom_store (by rw [Mem.length_slice]; omega)
  exact (Mem.keepsFrom_clear le_rfl).comp ((keepsFrom_putEnd vLength (by omega)).comp
    (hcopy.comp (keepsFrom_putHead type totalLength vLength time (by omega))))

theorem overwrites_frame (src : Mem) (h : 20480 < 12 + vLength) :
    Mem.Overwrites 20480 (fun m => (putEnd ((putHead m type totalLength vLength time).memcpy 12 src 0
      vLength) vLength).clear 0 20480) := by
  intro m b
  dsimp only
  rw [putHead_update type totalLength vLength time m b (by omega), Mem.memcpy,
    Mem.store_update_of_mem (by omega) (by rwa [Mem.length_slice]), ← Mem.memcpy]

end

/-! ### `getNodeData` -/

section
variable {rows : List (List Text)} (time : QueryTime) (b : Buffers)

theorem getNodeData_arrays (h : rows ≠ []) :
    let austemSend := fillAustemSend (logAnswer rows) rows.length 0 4 b.austemSend
    let vLength := 14 * rows.length + 6
    let tlvSendBuffer := putEnd ((putHead b.tlvSendBuffer 0x03 (vLength + 4) vLength time).memcpy 12
      austemSend 0 vLength) vLength
    getNodeData (logAnswer rows) time b =
      ([tlvSendBuffer.slice 0 (vLength + 4 + 4)],
        { b with
          austemSend := austemSend.clear 0 (14 * 2048)
          tlvSendBuffer := tlvSendBuffer.clear 0 20480 }) := by
  obtain ⟨hpos, hcount⟩ := rows_logAnswer h
  simp only [getNodeData, if_pos hpos, hcount]

theorem buffersKept_getNodeData (h : rows.length ≤ 1461) :
    BuffersKept b (getNodeData (logAnswer rows) time b).2 := by
  by_cases hrows : rows = []
  · subst hrows
    refine ⟨fun x hx => Mem.keepsFrom_clear le_rfl b.austemSend x hx, fun _ _ => rfl, ?_⟩
    exact (Mem.keepsFrom_clear le_rfl).comp ((keepsFrom_putEnd 6 (by omega)).comp
      (keepsFrom_putHead 0x03 10 6 time (by omega))) b.tlvSendBuffer
  · obtain ⟨l, hl, hstore⟩ := fillAustemSend_store (logAnswer rows) rows.length 0 4
    rw [getNodeData_arrays time b hrows]
    refine ⟨fun x hx => ?_, fun _ _ => rfl, fun x hx => ?_⟩
    · have hfill := Mem.keepsFrom_store (show 14 * 0 + l.length ≤ 14 * 2048 by omega)
      rw [hstore]
      exact (Mem.keepsFrom_clear le_rfl _ x hx).trans (hfill _ x hx)
    · exact keepsFrom_frame _ _ _ time _ (by omega) _ x hx

theorem lengths_getNodeData (h : rows.length ≤ 1461) :
    ∀ frame ∈ (getNodeData (logAnswer rows) time b).1,
      field frame 1 = 14 * rows.length + 6 + 4 ∧ field frame 4 = 14 * rows.length + 6 := by
  by_cases hrows : rows = []
  · subst hrows
    exact List.forall_mem_singleton.mpr ⟨rfl, rfl⟩
  · obtain ⟨l, hl, hstore⟩ := fillAustemSend_store (logAnswer rows) rows.length 0 4
    have hframe := slice_frame b.tlvSendBuffer 0x03 time
      (slice_store_zero (n := 14) b.austemSend l)
    have hfields := field_tlvFrame 0x03 time (show l.length + 10 < 65536 by omega)
    rw [hl] at hframe hfields
    rw [getNodeData_arrays time b hrows]
    refine List.forall_mem_singleton.mpr ?_
    rw [hstore, hframe]
    exact hfields

theorem logFits_iff : LogFits time rows ↔ rows.length ≤ 1461 := by
  constructor
  · intro hfits
    by_contra hlt
    have hrows : rows ≠ [] := by rintro rfl; simp at hlt
    refine Mem.not_keepsFrom (overwrites_frame 0x03 (14 * rows.length + 6 + 4)
      (14 * rows.length + 6) time (fillAustemSend (logAnswer rows) rows.length 0 4 fun _ => 0)
      (by omega)) le_rfl ?_
    intro m x hx
    have hkept := (hfits.kept ⟨fun _ => 0, fun _ => 0, m⟩).tlvSendBuffer x hx
    rw [getNodeData_arrays time _ hrows] at hkept
    exact hkept
  · exact fun h => ⟨fun b => buffersKept_getNodeData time b h,
      fun b => lengths_getNodeData time b h⟩

end

/-! ### `getNodeStatusData` -/

section
variable {rows : List (List Text)} (time : QueryTime) (b : Buffers)

theorem getNodeStatusData_arrays (h : rows ≠ []) :
    let austemStatusSend :=
      fillAustemStatusSend (statusAnswer rows) rows.length 0 9 b.austemStatusSend
    let vLength := 40 * rows.length + 6
    let tlvSendBuffer := putEnd ((putHead b.tlvSendBuffer 0x06 (vLength + 4) vLength time).memcpy 12
      austemStatusSend 0 vLength) vLength
    getNodeStatusData (statusAnswer rows) time b =
      ([tlvSendBuffer.slice 0 (vLength + 4 + 4)],
        { b with
          austemStatusSend := austemStatusSend.clear 0 (40 * 256)
          tlvSendBuffer := tlvSendBuffer.clear 0 20480 }) := by
  obtain ⟨hpos, hcount⟩ := rows_statusAnswer h
  simp only [getNodeStatusData, if_pos hpos, hcount]

theorem buffersKept_getNodeStatusData (h : rows.length ≤ 256) :
    BuffersKept b (getNodeStatusData (statusAnswer rows) time b).2 := by
  by_cases hrows : rows = []
  · subst hrows
    exact ⟨fun _ _ => rfl, fun _ _ => rfl, fun _ _ => rfl⟩
  · rw [getNodeStatusData_arrays time b hrows]
    refine ⟨fun _ _ => rfl, fun x hx => ?_, fun x hx => ?_⟩
    · exact (Mem.keepsFrom_clear le_rfl _ x hx).trans
        (keepsFrom_fillAustemStatusSend _ rows.length 0 9 _ x (by omega))
    · exact keepsFrom_frame _ _ _ time _ (by omega) _ x hx

theorem lengths_getNodeStatusData (h : rows.length ≤ 256) :
    ∀ frame ∈ (getNodeStatusData (statusAnswer rows) time b).1,
      field frame 1 = 40 * rows.length + 6 + 4 ∧ field frame 4 = 40 * rows.length + 6 := by
  by_cases hrows : rows = []
  · subst hrows
    exact List.forall_mem_nil _
  · rw [getNodeStatusData_arrays time b hrows]
    set src := fillAustemStatusSend (statusAnswer rows) rows.length 0 9 b.austemStatusSend
    have hl : (src.slice 0 (40 * rows.length)).length = 40 * rows.length := src.length_slice 0 _
    have hframe := slice_frame b.tlvSendBuffer 0x06 time
      (show src.slice 0 (src.slice 0 (40 * rows.length)).length = _ by rw [hl])
    have hfields := field_tlvFrame 0x06 time
      (show (src.slice 0 (40 * rows.length)).length + 10 < 65536 by omega)
    rw [hl] at hframe hfields
    refine List.forall_mem_singleton.mpr ?_
    rw [hframe]
    exact hfields

theorem statusFits_iff : StatusFits time rows ↔ rows.length ≤ 256 := by
  constructor
  · intro hfits
    by_contra hlt
    have hrows : rows ≠ [] := by rintro rfl; simp at hlt
    have hset := overwrites_fillAustemStatusSend (statusAnswer rows) rows.length 0 9 256 (by omega)
      (by omega)
    refine Mem.not_keepsFrom (hset.comp (fun m => m.clear 0 (40 * 256))) le_rfl ?_
    intro m x hx
    have hkept := (hfits.kept ⟨fun _ => 0, m, fun _ => 0⟩).austemStatusSend x hx
    rw [getNodeStatusData_arrays time _ hrows] at hkept
    exact hkept
  · exact fun h => ⟨fun b => buffersKept_getNodeStatusData time b h,
      fun b => lengths_getNodeStatusData time b h⟩

end

/-! ### `commandGetNodeInfo` -/

section
variable {rows : List (List Text)} (send sendBuffer : Mem)

theorem nodeInfoArrays_rows (h : rows ≠ []) :
    let vLength := 8 * rows.length
    let filled := fillSend (nodesAnswer rows) rows.length 0 3 (send.clear 0 (8 * 64))
    let head := ((sendBuffer.clear 0 1024).store 0 [0xFE]).store 0
      (frameHead 0x05 (vLength + 3) vLength)
    nodeInfoArrays (nodesAnswer rows) send sendBuffer =
      (filled, (head.memcpy 6 filled 0 vLength).store (vLength + 3 + 3) [0xFF]) := by
  obtain ⟨hpos, hcount⟩ := rows_nodesAnswer h
  simp only [nodeInfoArrays, if_pos hpos, hcount]

theorem nodesFit_of_le (h : rows.length ≤ 64) : NodesFit rows := by
  have hclear := Mem.keepsFrom_clear (show 1024 ≤ 1024 from le_rfl)
  have hfirst : Mem.KeepsFrom 1024 (fun m => m.store 0 [0xFE]) :=
    Mem.keepsFrom_store (show 0 + 1 ≤ 1024 by omega)
  by_cases hrows : rows = []
  · subst hrows
    exact ⟨fun _ => Mem.keepsFrom_clear le_rfl, fun _ => hfirst.comp hclear, List.forall_mem_nil _⟩
  · obtain ⟨l, hl, hstore⟩ := fillSend_store (nodesAnswer rows) rows.length 0 3
    constructor
    · intro sendBuffer m x hx
      have hfill := Mem.keepsFrom_store (show 8 * 0 + l.length ≤ 8 * 64 by omega)
      dsimp only
      rw [nodeInfoArrays_rows m sendBuffer hrows, hstore]
      exact (hfill _ x hx).trans (Mem.keepsFrom_clear le_rfl m x hx)
    · intro send m x hx
      have hhead : Mem.KeepsFrom 1024 (fun m => m.store 0
          (frameHead 0x05 (8 * rows.length + 3) (8 * rows.length))) :=
        Mem.keepsFrom_store (show 0 + 6 ≤ 1024 by omega)
      have hcopy : ∀ src : Mem,
          Mem.KeepsFrom 1024 (fun m => m.memcpy 6 src 0 (8 * rows.length)) :=
        fun src => Mem.keepsFrom_store (by rw [Mem.length_slice]; omega)
      have hlast : Mem.KeepsFrom 1024 (fun m => m.store (8 * rows.length + 3 + 3) [0xFF]) :=
        Mem.keepsFrom_store (show 8 * rows.length + 3 + 3 + 1 ≤ 1024 by omega)
      dsimp only
      rw [nodeInfoArrays_rows send m hrows]
      exact (hlast.comp ((hcopy _).comp (hhead.comp (hfirst.comp hclear)))) m x hx
    · have hframe := slice_listFrame (fun _ => 0) (slice_store_zero (n := 8) (fun _ => 0) l)
      have hfields := field_listFrame (show l.length + 3 < 65536 by omega)
      obtain ⟨hpos, hcount⟩ := rows_nodesAnswer hrows
      rw [hl] at hframe hfields
      simp only [commandGetNodeInfo, if_pos hpos, hcount, hstore, hframe]
      exact List.forall_mem_singleton.mpr hfields

theorem nodesFit_iff : NodesFit rows ↔ rows.length ≤ 64 := by
  constructor
  · intro hfits
    by_contra hlt
    have hrows : rows ≠ [] := by rintro rfl; simp at hlt
    obtain ⟨l, hl, hstore⟩ := fillSend_store (nodesAnswer rows) rows.length 0 3
    refine Mem.not_keepsFrom (x := 8 * 64) ?_ le_rfl (hfits.send fun _ => 0)
    intro m b
    dsimp only
    rw [nodeInfoArrays_rows _ _ hrows, nodeInfoArrays_rows _ _ hrows]
    dsimp only
    rw [hstore, hstore, Mem.clear, Mem.store_update_of_disjoint (Or.inr (by rw [List.length_replicate])),
      Mem.store_update_of_mem (by omega) (by omega), ← Mem.clear]
  · exact nodesFit_of_le

end

/-- **Room for the replies**: nothing is written behind an array, and no length is cut, exactly up
to 1461 rows with data, 256 rows with a status and 64 nodes. -/
theorem replies_fit_iff (time : QueryTime) (log status nodes : List (List Text)) :
    LogFits time log ∧ StatusFits time status ∧ NodesFit nodes ↔
      log.length ≤ 1461 ∧ status.length ≤ 256 ∧ nodes.length ≤ 64 := by
  rw [logFits_iff, statusFits_iff, nodesFit_iff]

/-- 65 nodes are one too many. -/
theorem replies_overrun : ¬ ∀ (time : QueryTime) (log status nodes : List (List Text)),
    LogFits time log ∧ StatusFits time status ∧ NodesFit nodes := by
  intro h
  have hnodes := nodesFit_iff.mp (h ⟨13, 11, 15, 12, 0, 0⟩ [] []
    (List.replicate 65 ["1".toList, "1".toList, "20131115120000".toList])).2.2
  rw [List.length_replicate] at hnodes
  omega

end IdcuIot.M2MManager
