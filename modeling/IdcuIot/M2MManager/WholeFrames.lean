import IdcuIot.M2MManager.RoundTrip

/-! # M2MManager: what is written when the query fails

`getNodeData` has three branches and one `write` behind them.  The branch for a query that fails, as
it does while another program holds the database, prepares nothing, and the length is then that of
an empty frame: the four bytes that are written are the start of the cleared buffer. -/

namespace IdcuIot.M2MManager

open Memory Decimal

/-- What goes to the client in one call is nothing, or one frame. -/
def Whole (written : List (List UInt8)) : Prop :=
  written.flatten = [] ∨ TlvFramed 0x03 written.flatten

section
variable {columns : List Text} {rows : List (List Text)}

theorem getNodeData_rows (hcolumns : columns.length = 4) (hrows : rows ≠ []) (time : QueryTime)
    (b : Buffers) : ∃ records, records.length = 14 * rows.length ∧
      (getNodeData (el1000Sqlite3Select (some (columns, rows))) time b).1 =
        [tlvFrame 0x03 time records] := by
  have hsize := size_of_ne_nil columns hrows
  rw [hcolumns] at hsize
  set data := el1000Sqlite3Select (some (columns, rows))
  have hpos : 0 < data.size := by omega
  have hcount : ((data.size - 4) / 4).toNat = rows.length := by omega
  -- the records are what the loop left in the buffer
  set austemSend := fillAustemSend data rows.length 0 4 b.austemSend with hsend
  have hrecords : (austemSend.slice 0 (14 * rows.length)).length = 14 * rows.length :=
    Mem.length_slice _ _ _
  have hsrc : austemSend.slice 0 (austemSend.slice 0 (14 * rows.length)).length =
      austemSend.slice 0 (14 * rows.length) := by rw [hrecords]
  have hframe := slice_frame b.tlvSendBuffer 0x03 time hsrc
  rw [hrecords] at hframe
  refine ⟨_, hrecords, ?_⟩
  simp only [getNodeData, if_pos hpos, hcount, ← hsend, hframe]

theorem getNodeData_none (columns : List Text) (time : QueryTime) (b : Buffers) :
    (getNodeData (el1000Sqlite3Select (some (columns, []))) time b).1 = [tlvFrame 0x03 time []] := by
  rw [← slice_emptyFrame b.tlvSendBuffer]
  rfl

theorem getNodeData_failed (time : QueryTime) {b : Buffers} (hb : Cleared b) :
    (getNodeData (el1000Sqlite3Select none) time b).1 = [List.replicate 4 0] := by
  have hzero : b.tlvSendBuffer.slice 0 4 = List.replicate 4 0 :=
    Mem.slice_eq_replicate (fun x _ hx => hb.tlvSendBuffer x (by omega))
  rw [← hzero]
  rfl

end

/-- **When the answer to a request for data is whole**: exactly when the query does not fail. -/
theorem getNodeData_whole_iff (history : List (Effect × SelectData)) (time : QueryTime)
    (columns : List Text) (hcolumns : columns.length = 4) (rows : Option (List (List Text)))
    (hrows : ∀ l ∈ rows, l.length ≤ 1461) :
    Whole (getNodeData (el1000Sqlite3Select (rows.map (columns, ·))) time (after history)).1 ↔
      rows ≠ none := by
  cases rows with
  | none =>
      rw [Option.map_none, getNodeData_failed time (cleared_after history)]
      constructor
      · rintro (hnil | hframed)
        · cases hnil
        · cases hframed.start
      · exact fun h => absurd rfl h
  | some rows =>
      refine iff_of_true (Or.inr ?_) (Option.some_ne_none rows)
      rw [Option.map_some]
      by_cases hnil : rows = []
      · subst hnil
        rw [getNodeData_none, List.flatten_singleton]
        exact tlvFramed 0x03 time (by decide)
      · obtain ⟨records, hlength, hwritten⟩ := getNodeData_rows hcolumns hnil time (after history)
        have hle := hrows rows rfl
        rw [hwritten, List.flatten_singleton]
        exact tlvFramed 0x03 time (by omega)

/-- The columns of `tb_comm_log` that are asked for. -/
def logColumns : List Text :=
  ["nodeid".toList, "tag".toList, "value".toList, "strftime('%Y%m%d%H%M%f', datetime)".toList]

/-- Two rows of `tb_comm_log`. -/
def logRows : List (List Text) :=
  [["1".toList, "2".toList, "-3".toList, "20131115120000.250".toList],
    ["1".toList, "3".toList, "700".toList, "20131115120001.000".toList]]

/-- A request for data that was answered before, with the two rows. -/
def earlier : List (Effect × SelectData) :=
  [(.getNodeData ⟨13, 8, 19, 12, 0, 0⟩, el1000Sqlite3Select (some (logColumns, logRows)))]

theorem getNodeData_whole_two :
    Whole (getNodeData (el1000Sqlite3Select ((some logRows).map (logColumns, ·)))
      ⟨13, 8, 20, 12, 0, 0⟩ (after earlier)).1 :=
  (getNodeData_whole_iff earlier ⟨13, 8, 20, 12, 0, 0⟩ logColumns rfl (some logRows)
    (by decide)).mpr (Option.some_ne_none logRows)

theorem getNodeData_whole_wrong : ¬ ∀ (history : List (Effect × SelectData)) (time : QueryTime)
    (columns : List Text), columns.length = 4 → ∀ rows : Option (List (List Text)),
    (∀ l ∈ rows, l.length ≤ 1461) →
    Whole (getNodeData (el1000Sqlite3Select (rows.map (columns, ·))) time (after history)).1 := by
  intro h
  rcases h [] ⟨13, 8, 20, 12, 0, 0⟩ logColumns rfl none (by simp) with hnil | hframed
  · revert hnil
    decide
  · have hstart := hframed.start
    revert hstart
    decide

end IdcuIot.M2MManager
