import IdcuIot.Lib.Delimited
import IdcuIot.M2MManager.Replies

/-! # M2MManager: what a client reads from the replies

A row of a query becomes a record of fixed size; a client that goes through the records of a
frame finds the rows again, in their order.  Of the date the record keeps everything but the
century.

The buffers are zero between two replies (`Cleared`), and so nothing of an earlier reply is
left where `getNodeStatusData` does not write: in the two channels that have no port. -/

namespace IdcuIot.M2MManager

open Memory Decimal Words

/-! ### Rows and their texts -/

/-- A date, to the millisecond. -/
structure DateTime where
  year : Fin 10000
  month : Fin 100
  day : Fin 100
  hour : Fin 100
  min : Fin 100
  sec : Fin 100
  milli : Fin 1000

/-- `strftime( '%Y%m%d%H%M%S' )`. -/
def DateTime.seconds (d : DateTime) : Text :=
  pad 4 d.year ++ pad 2 d.month ++ pad 2 d.day ++ pad 2 d.hour ++ pad 2 d.min ++ pad 2 d.sec

/-- `strftime( '%Y%m%d%H%M%f' )`. -/
def DateTime.text (d : DateTime) : Text := d.seconds ++ '.' :: pad 3 d.milli

/-- The date without the century. -/
def DateTime.short (d : DateTime) : QueryTime :=
  ⟨UInt8.ofNat (d.year % 100), UInt8.ofNat d.month, UInt8.ofNat d.day, UInt8.ofNat d.hour,
    UInt8.ofNat d.min, UInt8.ofNat d.sec⟩

/-- A row of `tb_comm_log`. -/
structure LogRow where
  nodeid : UInt8
  tag : UInt8
  value : Int32
  datetime : DateTime

/-- A row of `tb_comm_status`, with the counts of its six ports. -/
structure StatusRow where
  nodeid : UInt8
  port1 : Int32
  port2 : Int32
  port3 : Int32
  port4 : Int32
  port5 : Int32
  port6 : Int32
  datetime : DateTime

/-- A row of the list of nodes. -/
structure NodeRow where
  nodeid : UInt8
  group : UInt8
  datetime : DateTime

/-- The texts of the columns that the three queries select. -/
def LogRow.texts (r : LogRow) : List Text :=
  [print r.nodeid.toNat, print r.tag.toNat, print r.value.toInt, r.datetime.text]

def StatusRow.texts (r : StatusRow) : List Text :=
  [print r.nodeid.toNat, ['6'], print r.port1.toInt, print r.port2.toInt, print r.port3.toInt,
    print r.port4.toInt, print r.port5.toInt, print r.port6.toInt, r.datetime.text]

def NodeRow.texts (r : NodeRow) : List Text :=
  [print r.nodeid.toNat, print r.group.toNat, r.datetime.seconds]

/-- The answers to the three queries. -/
def selectLog (rows : List LogRow) : SelectData :=
  el1000Sqlite3Select (some (["nodeid".toList, "tag".toList, "value".toList,
    "strftime('%Y%m%d%H%M%f', datetime)".toList], rows.map LogRow.texts))

def selectStatus (rows : List StatusRow) : SelectData :=
  el1000Sqlite3Select (some (["nodeid".toList, "6".toList, "port1".toList, "port2".toList,
    "port3".toList, "port4".toList, "port5".toList, "port6".toList,
    "strftime('%Y%m%d%H%M%f', datetime)".toList], rows.map StatusRow.texts))

def selectNodes (rows : List NodeRow) : SelectData :=
  el1000Sqlite3Select (some (["nodeid".toList, "groupid".toList,
    "strftime('%Y%m%d%H%M%S', datetime)".toList], rows.map NodeRow.texts))

/-! ### Numbers -/

/-- The bytes of a value, high byte first. -/
def beBytes (x : UInt32) : List UInt8 := [byteAt x 3, byteAt x 2, byteAt x 1, byteAt x 0]

theorem valueBytes_eq (x : UInt32) : valueBytes x = beBytes x := by
  obtain ⟨h3, h2, h1, h0⟩ := toUInt8_mask x
  rw [valueBytes, h3, h2, h1, h0, beBytes]

theorem ofInt_atoi_print_byte (b : UInt8) : UInt8.ofInt (atoi (print b.toNat)) = b := by
  have hb := b.toNat_lt
  rw [atoi_print (by omega) (by omega), ofInt_natCast, UInt8.ofNat_toNat]

theorem ofInt_atoi_print_value (v : Int32) :
    UInt32.ofInt (atoi (print v.toInt)) = v.toUInt32 := by
  have hsigned : v.toInt = signed v.toUInt32 := by simp [signed]
  rw [hsigned, atoi_print (signed_ge _) (signed_lt _), ofInt_signed]

theorem ofInt_atoi_pad {n : ℕ} (h : n < 100) : UInt8.ofInt (atoi (pad 2 n)) = UInt8.ofNat n := by
  rw [atoi_pad h (by omega), ofInt_natCast]

section
variable (d : DateTime) (rest : Text)

theorem pad_two (n : ℕ) : pad 2 n = [Nat.digitChar (n / 10 % 10), Nat.digitChar (n % 10)] := rfl

theorem pad_four (n : ℕ) : pad 4 n = pad 2 (n / 100) ++ pad 2 (n % 100) := by
  have h1 : n / 10 / 10 / 10 = n / 100 / 10 := by omega
  have h2 : n / 10 / 10 = n / 100 := by omega
  have h3 : n / 10 % 10 = n % 100 / 10 % 10 := by omega
  have h4 : n % 10 = n % 100 % 10 := by omega
  change [Nat.digitChar (n / 10 / 10 / 10 % 10), Nat.digitChar (n / 10 / 10 % 10),
    Nat.digitChar (n / 10 % 10), Nat.digitChar (n % 10)] = _
  rw [h1, h2, h3, h4]
  rfl

/-- The conversions pick the digits of the year, the month and so on. -/
theorem timeOrigin_seconds : timeOrigin (d.seconds ++ rest) = d.short.bytes := by
  have htwo : ∀ {n : ℕ}, n < 100 → UInt8.ofInt (atoi [Nat.digitChar (n / 10 % 10),
      Nat.digitChar (n % 10)]) = UInt8.ofNat n := fun h => ofInt_atoi_pad h
  have hyear : (d.year : ℕ) % 100 < 100 := Nat.mod_lt _ (by decide)
  have hmonth := d.month.isLt
  have hday := d.day.isLt
  have hhour := d.hour.isLt
  have hmin := d.min.isLt
  have hsec := d.sec.isLt
  unfold timeOrigin convert DateTime.seconds DateTime.short QueryTime.bytes
  simp only [pad_four, pad_two, List.cons_append, List.nil_append, List.getD_cons_succ,
    List.getD_cons_zero, Nat.reduceAdd, htwo hyear, htwo hmonth, htwo hday, htwo hhour, htwo hmin,
    htwo hsec]

/-- The milliseconds, high byte first. -/
def DateTime.milliBytes (d : DateTime) : List UInt8 :=
  [UInt8.ofNat (d.milli / 256), UInt8.ofNat d.milli]

theorem austemSendTime_text : austemSendTime d.text = d.short.bytes ++ d.milliBytes := by
  have hmilli := d.milli.isLt
  have hthree : pad 3 d.milli = [Nat.digitChar (d.milli / 10 / 10 % 10),
    Nat.digitChar (d.milli / 10 % 10), Nat.digitChar (d.milli % 10)] := rfl
  have hdigits : atoi [d.text.getD 15 '\x00', d.text.getD 16 '\x00', d.text.getD 17 '\x00'] =
      (d.milli : ℕ) := by
    unfold DateTime.text DateTime.seconds
    simp only [pad_four, pad_two, hthree, List.cons_append, List.nil_append, List.getD_cons_succ,
      List.getD_cons_zero]
    exact atoi_pad (w := 2) hmilli (by omega)
  have hword : UInt16.ofInt ((d.milli : ℕ) : ℤ) = UInt16.ofNat d.milli := by
    have hmod : (((d.milli : ℕ) : ℤ) % 2 ^ 16).toNat = (d.milli : ℕ) := by omega
    rw [UInt16.ofInt, hmod]
  have hnat : (UInt16.ofNat d.milli).toNat = (d.milli : ℕ) := by
    rw [UInt16.toNat_ofNat']
    omega
  obtain ⟨hhigh, hlow⟩ := toUInt8_mask_short (UInt16.ofNat d.milli)
  rw [hnat] at hhigh hlow
  have htime : timeOrigin d.text = d.short.bytes := timeOrigin_seconds d _
  simp only [austemSendTime, hdigits, hword, hhigh, hlow, htime]
  rfl

end

/-! ### Records -/

/-- The record of a row. -/
def LogRow.bytes (r : LogRow) : List UInt8 :=
  [r.nodeid, r.tag] ++ beBytes r.value.toUInt32 ++ (r.datetime.short.bytes ++ r.datetime.milliBytes)

/-- The record of a row up to the last port. -/
def StatusRow.headBytes (r : StatusRow) : List UInt8 :=
  [r.nodeid, 6] ++ beBytes r.port1.toUInt32 ++ beBytes r.port2.toUInt32 ++
    beBytes r.port3.toUInt32 ++ beBytes r.port4.toUInt32 ++ beBytes r.port5.toUInt32 ++
    beBytes r.port6.toUInt32

def StatusRow.bytes (r : StatusRow) : List UInt8 :=
  r.headBytes ++ List.replicate 8 0 ++ r.datetime.short.bytes

def NodeRow.bytes (r : NodeRow) : List UInt8 := [r.nodeid, r.group] ++ r.datetime.short.bytes

variable {data : SelectData} {rowSize : ℕ} {rest : List Text}

theorem entry_add {texts : List Text} (h : data.pastResult.drop rowSize = texts ++ rest) {k : ℕ}
    (hk : k < texts.length) : data.entry (rowSize + k) = texts.getD k [] := by
  have hget := congrArg (fun l : List Text => l.getD k []) h
  simp only [List.getD_append _ _ _ _ hk] at hget
  rw [← hget, SelectData.entry, List.getD_eq_getElem?_getD, List.getD_eq_getElem?_getD,
    List.getElem?_drop]

theorem austemSendData_eq {r : LogRow} (h : data.pastResult.drop rowSize = r.texts ++ rest) :
    austemSendData data rowSize = r.bytes := by
  have h0 : data.entry rowSize = print r.nodeid.toNat :=
    entry_add (k := 0) h (by simp [LogRow.texts])
  have h1 : data.entry (rowSize + 1) = print r.tag.toNat := entry_add h (by simp [LogRow.texts])
  have h2 : data.entry (rowSize + 2) = print r.value.toInt := entry_add h (by simp [LogRow.texts])
  have h3 : data.entry (rowSize + 3) = r.datetime.text := entry_add h (by simp [LogRow.texts])
  rw [austemSendData, h0, h1, h2, h3, ofInt_atoi_print_byte, ofInt_atoi_print_byte,
    ofInt_atoi_print_value, valueBytes_eq, austemSendTime_text, LogRow.bytes]

theorem statusHead_eq {r : StatusRow} (h : data.pastResult.drop rowSize = r.texts ++ rest) :
    statusHead data rowSize = r.headBytes := by
  have h0 : data.entry rowSize = print r.nodeid.toNat :=
    entry_add (k := 0) h (by simp [StatusRow.texts])
  have h1 : data.entry (rowSize + 1) = ['6'] := entry_add h (by simp [StatusRow.texts])
  have h2 : data.entry (rowSize + 2) = print r.port1.toInt :=
    entry_add h (by simp [StatusRow.texts])
  have h3 : data.entry (rowSize + 3) = print r.port2.toInt :=
    entry_add h (by simp [StatusRow.texts])
  have h4 : data.entry (rowSize + 4) = print r.port3.toInt :=
    entry_add h (by simp [StatusRow.texts])
  have h5 : data.entry (rowSize + 5) = print r.port4.toInt :=
    entry_add h (by simp [StatusRow.texts])
  have h6 : data.entry (rowSize + 6) = print r.port5.toInt :=
    entry_add h (by simp [StatusRow.texts])
  have h7 : data.entry (rowSize + 7) = print r.port6.toInt :=
    entry_add h (by simp [StatusRow.texts])
  have hsix : UInt8.ofInt (atoi ['6']) = 6 := by decide
  rw [statusHead, h0, h1, h2, h3, h4, h5, h6, h7, hsix, StatusRow.headBytes]
  simp only [ofInt_atoi_print_byte, ofInt_atoi_print_value, valueBytes_eq]

theorem timeOrigin_status {r : StatusRow} (h : data.pastResult.drop rowSize = r.texts ++ rest) :
    timeOrigin (data.entry (rowSize + 8)) = r.datetime.short.bytes := by
  have h8 : data.entry (rowSize + 8) = r.datetime.text := entry_add h (by simp [StatusRow.texts])
  rw [h8]
  exact timeOrigin_seconds _ _

theorem rtrnNodeGroup_eq {r : NodeRow} (h : data.pastResult.drop rowSize = r.texts ++ rest) :
    rtrnNodeGroup data rowSize = r.bytes := by
  have h0 : data.entry rowSize = print r.nodeid.toNat :=
    entry_add (k := 0) h (by simp [NodeRow.texts])
  have h1 : data.entry (rowSize + 1) = print r.group.toNat := entry_add h (by simp [NodeRow.texts])
  have h2 : data.entry (rowSize + 2) = r.datetime.seconds := entry_add h (by simp [NodeRow.texts])
  have htime : timeOrigin r.datetime.seconds = r.datetime.short.bytes := by
    have hseconds := timeOrigin_seconds r.datetime []
    rwa [List.append_nil] at hseconds
  rw [rtrnNodeGroup, h0, h1, h2, htime, ofInt_atoi_print_byte, ofInt_atoi_print_byte, NodeRow.bytes]

/-! ### Loops -/

theorem drop_texts {α : Type} {texts : α → List Text} {r : α} {rows : List α} {n : ℕ}
    (hn : (texts r).length = n) (h : data.pastResult.drop rowSize = (r :: rows).flatMap texts) :
    data.pastResult.drop rowSize = texts r ++ rows.flatMap texts ∧
      data.pastResult.drop (rowSize + n) = rows.flatMap texts := by
  rw [List.flatMap_cons] at h
  refine ⟨h, ?_⟩
  rw [← List.drop_drop, h, List.drop_left' hn]

theorem fillAustemSend_eq {rows : List LogRow}
    (h : data.pastResult.drop rowSize = rows.flatMap LogRow.texts) (i : ℕ) (m : Mem) :
    fillAustemSend data rows.length i rowSize m =
      m.store (14 * i) (rows.flatMap LogRow.bytes) := by
  induction rows generalizing rowSize i m with
  | nil => exact (m.store_nil _).symm
  | cons r rows ih =>
      obtain ⟨hfirst, hrest⟩ := drop_texts (n := 4) rfl h
      rw [List.length_cons, fillAustemSend, austemSendData_eq hfirst, ih hrest,
        List.flatMap_cons, Mem.store_append]
      rfl

theorem fillSend_eq {rows : List NodeRow}
    (h : data.pastResult.drop rowSize = rows.flatMap NodeRow.texts) (i : ℕ) (m : Mem) :
    fillSend data rows.length i rowSize m = m.store (8 * i) (rows.flatMap NodeRow.bytes) := by
  induction rows generalizing rowSize i m with
  | nil => exact (m.store_nil _).symm
  | cons r rows ih =>
      obtain ⟨hfirst, hrest⟩ := drop_texts (n := 3) rfl h
      rw [List.length_cons, fillSend, rtrnNodeGroup_eq hfirst, ih hrest, List.flatMap_cons,
        Mem.store_append]
      rfl

/-- The eight bytes between the last port and the time are not written; they are zero. -/
theorem store_status {m : Mem} {a : ℕ} (r : StatusRow) (hm : ∀ x, a ≤ x → x < a + 40 → m x = 0) :
    (m.store a r.headBytes).store (a + 34) r.datetime.short.bytes = m.store a r.bytes := by
  have hgap : ((m.store a r.headBytes).slice (a + 26) 8) = List.replicate 8 0 := by
    apply Mem.slice_eq_replicate
    intro x hx hx'
    rw [Mem.store_of_le _ (by exact hx)]
    exact hm x (by omega) (by omega)
  have hstore : (m.store a r.headBytes).store (a + 26) (List.replicate 8 0) =
      m.store a r.headBytes := Mem.store_of_slice (by rwa [List.length_replicate])
  rw [StatusRow.bytes, List.append_assoc, Mem.store_append, Mem.store_append]
  change _ = ((m.store a r.headBytes).store (a + 26) _).store (a + 26 + 8) _
  rw [hstore]

theorem fillAustemStatusSend_eq {rows : List StatusRow}
    (h : data.pastResult.drop rowSize = rows.flatMap StatusRow.texts) (i : ℕ) (m : Mem)
    (hm : ∀ x, 40 * i ≤ x → x < 40 * (i + rows.length) → m x = 0) :
    fillAustemStatusSend data rows.length i rowSize m =
      m.store (40 * i) (rows.flatMap StatusRow.bytes) := by
  induction rows generalizing rowSize i m with
  | nil => exact (m.store_nil _).symm
  | cons r rows ih =>
      obtain ⟨hfirst, hrest⟩ := drop_texts (n := 9) rfl h
      rw [List.length_cons] at hm
      have hstore := store_status r (m := m) (a := 40 * i)
        (fun x hx hx' => hm x hx (by omega))
      have hlength : r.bytes.length = 40 := rfl
      have hclear : ∀ x, 40 * (i + 1) ≤ x → x < 40 * (i + 1 + rows.length) →
          (m.store (40 * i) r.bytes) x = 0 := by
        intro x hx hx'
        rw [Mem.store_of_le _ (by omega)]
        exact hm x (by omega) (by omega)
      rw [List.length_cons, fillAustemStatusSend, statusHead_eq hfirst, timeOrigin_status hfirst,
        hstore, ih hrest _ _ hclear, List.flatMap_cons, Mem.store_append]
      rfl

/-! ### Frames -/

/-- The checksum of a frame up to its checksum. -/
def checkSum (body : List UInt8) : UInt8 := UInt8.ofNat ((body.drop 1).map UInt8.toNat).sum

/-- The frame of `getNodeData` and of `getNodeStatusData` up to its checksum. -/
def tlvBody (type : UInt8) (time : QueryTime) (records : List UInt8) : List UInt8 :=
  frameHead type (records.length + 6 + 4) (records.length + 6) ++ time.bytes ++ records

/-- The frame of `getNodeData` and of `getNodeStatusData`. -/
def tlvFrame (type : UInt8) (time : QueryTime) (records : List UInt8) : List UInt8 :=
  tlvBody type time records ++ [checkSum (tlvBody type time records), 0xFF]

/-- The frame of `commandGetNodeInfo`. -/
def listFrame (records : List UInt8) : List UInt8 :=
  frameHead 0x05 (records.length + 3) records.length ++ records ++ [0xFF]

theorem length_tlvBody (type : UInt8) (time : QueryTime) (records : List UInt8) :
    (tlvBody type time records).length = records.length + 6 + 6 := by
  simp only [tlvBody, frameHead, QueryTime.bytes, List.length_append, List.length_cons,
    List.length_nil]
  omega

theorem slice_putHead (m : Mem) (type : UInt8) (totalLength vLength : ℕ) (time : QueryTime) :
    (putHead m type totalLength vLength time).slice 0 12 =
      frameHead type totalLength vLength ++ time.bytes := by
  have hhead := m.slice_store 0 (frameHead type totalLength vLength)
  have htime := (m.store 0 (frameHead type totalLength vLength)).slice_store_append 0 6 time.bytes
  rw [Nat.zero_add] at htime
  change (m.store 0 (frameHead type totalLength vLength)).slice 0 6 = _ at hhead
  rw [hhead] at htime
  exact htime

theorem slice_putEnd {m : Mem} {body : List UInt8} {vLength : ℕ}
    (hbody : m.slice 0 (vLength + 6) = body) :
    (putEnd m vLength).slice 0 (vLength + 8) = body ++ [checkSum body, 0xFF] := by
  have hsum : getCheckSum m (vLength + 5) = checkSum body := by
    rw [getCheckSum, checkSum, ← hbody, Mem.slice_drop m 0 (by omega)]
    rfl
  have hfirst := m.slice_store_append 0 (vLength + 6) [getCheckSum m (vLength + 5)]
  have hlast := (m.store (0 + (vLength + 6)) [getCheckSum m (vLength + 5)]).slice_store_append 0
    (vLength + 7) [0xFF]
  simp only [Nat.zero_add, List.length_singleton] at hfirst hlast
  rw [putEnd, hlast, hfirst, hbody, hsum, List.append_assoc]
  rfl

/-- A frame whose records are copied from a buffer; the six bytes behind them that are copied,
too, are overwritten or not sent. -/
theorem slice_frame (m : Mem) (type : UInt8) (time : QueryTime) {src : Mem} {records : List UInt8}
    (hsrc : src.slice 0 records.length = records) :
    (putEnd ((putHead m type (records.length + 6 + 4) (records.length + 6) time).memcpy 12 src 0
      (records.length + 6)) (records.length + 6)).slice 0 (records.length + 6 + 4 + 4) =
      tlvFrame type time records := by
  apply slice_putEnd
  set head := putHead m type (records.length + 6 + 4) (records.length + 6) time with hhead
  have hcopied : (head.memcpy 12 src 0 (records.length + 6)).slice 12 records.length = records := by
    rw [← Mem.slice_take _ 12 (Nat.le_add_right records.length 6), Mem.slice_memcpy,
      Mem.slice_take _ 0 (Nat.le_add_right records.length 6), hsrc]
  have hkept : (head.memcpy 12 src 0 (records.length + 6)).slice 0 12 = head.slice 0 12 :=
    Mem.slice_store_of_disjoint _ (Or.inl (by omega))
  rw [show records.length + 6 + 6 = 12 + records.length by omega, Mem.slice_add, Nat.zero_add,
    hcopied, hkept, hhead, slice_putHead]
  rfl

theorem slice_emptyFrame (m : Mem) (type : UInt8) (time : QueryTime) :
    (putEnd (putHead m type (6 + 4) 6 time) 6).slice 0 (6 + 4 + 4) = tlvFrame type time [] :=
  slice_putEnd (by
    rw [slice_putHead]
    simp only [tlvBody, List.length_nil, List.append_nil, Nat.zero_add])

theorem slice_listFrame (m : Mem) {src : Mem} {records : List UInt8}
    (hsrc : src.slice 0 records.length = records) :
    (((m.store 0 (frameHead 0x05 (records.length + 3) records.length)).memcpy 6 src 0
      records.length).store (records.length + 3 + 3) [0xFF]).slice 0 (records.length + 3 + 4) =
      listFrame records := by
  set head := frameHead 0x05 (records.length + 3) records.length with hhead
  have hfirst : (m.store 0 head).slice 0 6 = head := Mem.slice_store _ 0 head
  have hcopied := (m.store 0 head).slice_store_append 0 6 records
  have hlast := ((m.store 0 head).store (0 + 6) records).slice_store_append 0
    (6 + records.length) [0xFF]
  rw [hfirst] at hcopied
  rw [hcopied] at hlast
  simp only [Nat.zero_add, List.length_singleton] at hlast
  rw [Mem.memcpy, hsrc, show records.length + 3 + 3 = 6 + records.length by omega,
    show records.length + 3 + 4 = 6 + records.length + 1 by omega, hlast, listFrame]

/-! ### The three replies -/

theorem select_of_ne_nil {columns : List Text} {rows : List (List Text)} (h : rows ≠ []) :
    el1000Sqlite3Select (some (columns, rows)) =
      ⟨rows.length * columns.length + columns.length, columns ++ rows.flatten⟩ := by
  cases rows with
  | nil => exact absurd rfl h
  | cons r rows => rfl

/-- The size of an answer, from which the number of rows is computed. -/
theorem size_of_ne_nil (columns : List Text) {rows : List (List Text)} (h : rows ≠ []) :
    (el1000Sqlite3Select (some (columns, rows))).size =
      (columns.length : ℤ) * (rows.length + 1) := by
  rw [select_of_ne_nil h]
  push_cast
  ring

/-- The answer to a query for rows: how many there are, and the entries behind the names of the
columns. -/
theorem select_rows {α : Type} (columns : List Text) (texts : α → List Text) {rows : List α}
    (h : rows ≠ []) :
    (el1000Sqlite3Select (some (columns, rows.map texts))).size =
        (columns.length : ℤ) * (rows.length + 1) ∧
      (el1000Sqlite3Select (some (columns, rows.map texts))).pastResult.drop columns.length =
        rows.flatMap texts := by
  have hne : rows.map texts ≠ [] := by simpa using h
  refine ⟨by rw [size_of_ne_nil columns hne, List.length_map], ?_⟩
  rw [select_of_ne_nil hne, List.drop_left, List.flatMap_def]

theorem length_flatMap_bytes {α : Type} (bytes : α → List UInt8) {n : ℕ}
    (h : ∀ r, (bytes r).length = n) (rows : List α) :
    (rows.flatMap bytes).length = n * rows.length := by
  induction rows with
  | nil => rfl
  | cons r rows ih =>
      rw [List.flatMap_cons, List.length_append, h, ih, List.length_cons]
      ring

theorem slice_store_zero {n : ℕ} (m : Mem) (l : List UInt8) :
    (m.store (n * 0) l).slice 0 l.length = l := by
  rw [Nat.mul_zero]
  exact m.slice_store 0 l

theorem getNodeData_eq (rows : List LogRow) (time : QueryTime) (b : Buffers) :
    (getNodeData (selectLog rows) time b).1 =
      [tlvFrame 0x03 time (rows.flatMap LogRow.bytes)] := by
  by_cases hrows : rows = []
  · subst hrows
    rw [List.flatMap_nil, ← slice_emptyFrame b.tlvSendBuffer]
    rfl
  · obtain ⟨hsize, hdrop⟩ := select_rows ["nodeid".toList, "tag".toList, "value".toList,
      "strftime('%Y%m%d%H%M%f', datetime)".toList] LogRow.texts hrows
    change (selectLog rows).size = 4 * ((rows.length : ℤ) + 1) at hsize
    change (selectLog rows).pastResult.drop 4 = _ at hdrop
    have hpos : 0 < (selectLog rows).size := by omega
    have hcount : (((selectLog rows).size - 4) / 4).toNat = rows.length := by omega
    have hlength := length_flatMap_bytes LogRow.bytes (n := 14) (fun _ => rfl) rows
    have hframe := slice_frame b.tlvSendBuffer 0x03 time
      (slice_store_zero (n := 14) b.austemSend (rows.flatMap LogRow.bytes))
    rw [hlength] at hframe
    simp only [getNodeData, if_pos hpos, hcount, fillAustemSend_eq hdrop, hframe]

theorem getNodeStatusData_eq {rows : List StatusRow} (hrows : rows ≠ []) (hle : rows.length ≤ 256)
    (time : QueryTime) {b : Buffers} (hb : ∀ x < 40 * 256, b.austemStatusSend x = 0) :
    (getNodeStatusData (selectStatus rows) time b).1 =
      [tlvFrame 0x06 time (rows.flatMap StatusRow.bytes)] := by
  obtain ⟨hsize, hdrop⟩ := select_rows ["nodeid".toList, "6".toList, "port1".toList,
    "port2".toList, "port3".toList, "port4".toList, "port5".toList, "port6".toList,
    "strftime('%Y%m%d%H%M%f', datetime)".toList] StatusRow.texts hrows
  change (selectStatus rows).size = 9 * ((rows.length : ℤ) + 1) at hsize
  change (selectStatus rows).pastResult.drop 9 = _ at hdrop
  have hpos : 0 < (selectStatus rows).size := by omega
  have hcount : (((selectStatus rows).size - 9) / 9).toNat = rows.length := by omega
  have hlength := length_flatMap_bytes StatusRow.bytes (n := 40) (fun _ => rfl) rows
  have hfill := fillAustemStatusSend_eq hdrop 0 b.austemStatusSend
    (fun x _ hx => hb x (by omega))
  have hframe := slice_frame b.tlvSendBuffer 0x06 time
    (slice_store_zero (n := 40) b.austemStatusSend (rows.flatMap StatusRow.bytes))
  rw [hlength] at hframe
  simp only [getNodeStatusData, if_pos hpos, hcount, hfill, hframe]

theorem getNodeStatusData_nil (time : QueryTime) (b : Buffers) :
    (getNodeStatusData (selectStatus []) time b).1 = [] := rfl

theorem commandGetNodeInfo_eq {rows : List NodeRow} (hrows : rows ≠ []) :
    commandGetNodeInfo (selectNodes rows) = [listFrame (rows.flatMap NodeRow.bytes)] := by
  obtain ⟨hsize, hdrop⟩ := select_rows ["nodeid".toList, "groupid".toList,
    "strftime('%Y%m%d%H%M%S', datetime)".toList] NodeRow.texts hrows
  change (selectNodes rows).size = 3 * ((rows.length : ℤ) + 1) at hsize
  change (selectNodes rows).pastResult.drop 3 = _ at hdrop
  have hpos : 0 < (selectNodes rows).size := by omega
  have hcount : (((selectNodes rows).size - 3) / 3).toNat = rows.length := by omega
  have hlength := length_flatMap_bytes NodeRow.bytes (n := 8) (fun _ => rfl) rows
  have hframe := slice_listFrame (fun _ => 0)
    (slice_store_zero (n := 8) (fun _ => 0) (rows.flatMap NodeRow.bytes))
  rw [hlength] at hframe
  simp only [commandGetNodeInfo, if_pos hpos, hcount, fillSend_eq hdrop, hframe]

/-! ### The buffers between two replies -/

/-- The global buffers are zero. -/
structure Cleared (b : Buffers) : Prop where
  austemSend : ∀ x < 14 * 2048, b.austemSend x = 0
  austemStatusSend : ∀ x < 40 * 256, b.austemStatusSend x = 0
  tlvSendBuffer : ∀ x < 20480, b.tlvSendBuffer x = 0

theorem cleared_getNodeData (data : SelectData) (time : QueryTime) {b : Buffers} (hb : Cleared b) :
    Cleared (getNodeData data time b).2 where
  austemSend _ hx := Mem.clear_of_lt _ hx
  austemStatusSend := hb.austemStatusSend
  tlvSendBuffer _ hx := Mem.clear_of_lt _ hx

theorem cleared_getNodeStatusData (data : SelectData) (time : QueryTime) {b : Buffers}
    (hb : Cleared b) : Cleared (getNodeStatusData data time b).2 := by
  unfold getNodeStatusData
  split_ifs with hsize
  · exact ⟨hb.austemSend, fun _ hx => Mem.clear_of_lt _ hx, fun _ hx => Mem.clear_of_lt _ hx⟩
  · exact hb

theorem cleared_perform (effect : Effect) (data : SelectData) {b : Buffers} (hb : Cleared b) :
    Cleared (perform b effect data).2 := by
  cases effect with
  | write bytes => exact ⟨hb.austemSend, hb.austemStatusSend, fun _ hx => Mem.clear_of_lt _ hx⟩
  | getNodeStatusData time => exact cleared_getNodeStatusData data time hb
  | getNodeData time => exact cleared_getNodeData data time hb
  | _ => exact hb

theorem cleared_foldl (history : List (Effect × SelectData)) {b : Buffers} (hb : Cleared b) :
    Cleared (history.foldl (fun b h => (perform b h.1 h.2).2) b) := by
  induction history generalizing b with
  | nil => exact hb
  | cons h history ih => exact ih (cleared_perform h.1 h.2 hb)

theorem cleared_after (history : List (Effect × SelectData)) : Cleared (after history) :=
  cleared_foldl history ⟨fun _ _ => rfl, fun _ _ => rfl, fun _ _ => rfl⟩

/-! ### The client -/

/-- Two and four bytes of a reply as numbers. -/
def field (l : List UInt8) (i : ℕ) : ℕ := 256 * (l.getD i 0).toNat + (l.getD (i + 1) 0).toNat

def valueAt (l : List UInt8) (i : ℕ) : Int32 :=
  (ofBytes (l.getD i 0) (l.getD (i + 1) 0) (l.getD (i + 2) 0) (l.getD (i + 3) 0)).toInt32

/-- Six bytes of a reply as a time. -/
def timeAt (l : List UInt8) (i : ℕ) : QueryTime :=
  ⟨l.getD i 0, l.getD (i + 1) 0, l.getD (i + 2) 0, l.getD (i + 3) 0, l.getD (i + 4) 0,
    l.getD (i + 5) 0⟩

/-- What a record of `getNodeData` says. -/
structure LogRecord where
  nodeid : UInt8
  tag : UInt8
  value : Int32
  time : QueryTime
  milli : ℕ
deriving DecidableEq

/-- What a record of `getNodeStatusData` says: `channels` are all eight. -/
structure StatusRecord where
  nodeid : UInt8
  channelSize : UInt8
  channels : List Int32
  time : QueryTime
deriving DecidableEq

/-- What a record of `commandGetNodeInfo` says. -/
structure NodeRecord where
  nodeid : UInt8
  group : UInt8
  time : QueryTime
deriving DecidableEq

def decodeLogRecord (l : List UInt8) : LogRecord :=
  ⟨l.getD 0 0, l.getD 1 0, valueAt l 2, timeAt l 6, field l 12⟩

def decodeStatusRecord (l : List UInt8) : StatusRecord :=
  ⟨l.getD 0 0, l.getD 1 0, (List.range 8).map (fun k => valueAt l (2 + 4 * k)), timeAt l 34⟩

def decodeNodeRecord (l : List UInt8) : NodeRecord := ⟨l.getD 0 0, l.getD 1 0, timeAt l 2⟩

/-- The rows as the records show them. -/
def LogRow.record (r : LogRow) : LogRecord :=
  ⟨r.nodeid, r.tag, r.value, r.datetime.short, r.datetime.milli⟩

def StatusRow.record (r : StatusRow) : StatusRecord :=
  ⟨r.nodeid, 6, [r.port1, r.port2, r.port3, r.port4, r.port5, r.port6, 0, 0], r.datetime.short⟩

def NodeRow.record (r : NodeRow) : NodeRecord := ⟨r.nodeid, r.group, r.datetime.short⟩

/-- Read a reply to a query for data: the request time, and the records behind it. -/
def decodeReply {α : Type} (size : ℕ) (decode : List UInt8 → α) (frame : List UInt8) :
    QueryTime × List α :=
  (timeAt frame 6, Delimited.records size decode ((field frame 4 - 6) / size) (frame.drop 12))

/-- Read a list of nodes. -/
def decodeList (frame : List UInt8) : List NodeRecord :=
  Delimited.records 8 decodeNodeRecord (field frame 4 / 8) (frame.drop 6)

/-- A frame of `getNodeData` or `getNodeStatusData` whose two lengths, checksum and terminator
agree with the number of its bytes. -/
structure TlvFramed (type : UInt8) (frame : List UInt8) : Prop where
  start : frame.head? = some 0xFE
  type_eq : frame.getD 3 0 = type
  totalLength : field frame 1 + 4 = frame.length
  vLength : field frame 4 + 8 = frame.length
  sum : frame.getD (field frame 4 + 6) 0 =
    UInt8.ofNat (((frame.drop 1).take (field frame 4 + 5)).map UInt8.toNat).sum
  stop : frame.getLast? = some 0xFF

/-- The same for a list of nodes, which has no checksum. -/
structure ListFramed (frame : List UInt8) : Prop where
  start : frame.head? = some 0xFE
  type_eq : frame.getD 3 0 = 0x05
  totalLength : field frame 1 + 4 = frame.length
  vLength : field frame 4 + 7 = frame.length
  stop : frame.getLast? = some 0xFF

/-! ### Round trips -/

theorem shortNumber {n : ℕ} (h : n < 65536) :
    256 * (UInt8.ofNat (n >>> 8)).toNat + (UInt8.ofNat n).toNat = n := by
  rw [UInt8.toNat_ofNat', UInt8.toNat_ofNat', Nat.shiftRight_eq_div_pow]
  omega

theorem valueAt_beBytes (v : Int32) :
    (ofBytes (byteAt v.toUInt32 3) (byteAt v.toUInt32 2) (byteAt v.toUInt32 1)
      (byteAt v.toUInt32 0)).toInt32 = v := by
  rw [ofBytes_byteAt, Int32.toInt32_toUInt32]

theorem decodeLogRecord_bytes (r : LogRow) : decodeLogRecord r.bytes = r.record := by
  have hvalue : valueAt r.bytes 2 = r.value := valueAt_beBytes r.value
  have hmilli : field r.bytes 12 = r.datetime.milli := by
    have hlt := r.datetime.milli.isLt
    change 256 * (UInt8.ofNat (r.datetime.milli / 256)).toNat +
      (UInt8.ofNat r.datetime.milli).toNat = r.datetime.milli
    rw [UInt8.toNat_ofNat', UInt8.toNat_ofNat']
    omega
  rw [decodeLogRecord, hvalue, hmilli]
  rfl

theorem decodeStatusRecord_bytes (r : StatusRow) : decodeStatusRecord r.bytes = r.record := by
  have hzero : (ofBytes 0 0 0 0).toInt32 = 0 := by decide
  have hrange : List.range 8 = [0, 1, 2, 3, 4, 5, 6, 7] := rfl
  have hgap : List.replicate 8 (0 : UInt8) = [0, 0, 0, 0, 0, 0, 0, 0] := rfl
  unfold decodeStatusRecord StatusRow.bytes StatusRow.headBytes StatusRow.record
  simp only [hrange, hgap, List.map_cons, List.map_nil, valueAt, timeAt, beBytes, QueryTime.bytes,
    List.cons_append, List.nil_append, Nat.reduceAdd, Nat.reduceMul, List.getD_cons_succ,
    List.getD_cons_zero, valueAt_beBytes, hzero]

theorem decodeNodeRecord_bytes (r : NodeRow) : decodeNodeRecord r.bytes = r.record := rfl

theorem field_tlvFrame (type : UInt8) (time : QueryTime) {records : List UInt8}
    (h : records.length + 10 < 65536) :
    field (tlvFrame type time records) 1 = records.length + 10 ∧
      field (tlvFrame type time records) 4 = records.length + 6 :=
  ⟨shortNumber h, shortNumber (by omega)⟩

theorem tlvFramed (type : UInt8) (time : QueryTime) {records : List UInt8}
    (h : records.length + 10 < 65536) : TlvFramed type (tlvFrame type time records) := by
  obtain ⟨htotal, hv⟩ := field_tlvFrame type time h
  have hbody := length_tlvBody type time records
  have hlength : (tlvFrame type time records).length = records.length + 14 := by
    rw [tlvFrame, List.length_append, hbody]
    rfl
  refine ⟨rfl, rfl, by omega, by omega, ?_, ?_⟩
  · -- the checksum is the byte behind the records
    have hcut : ((tlvFrame type time records).drop 1).take (records.length + 6 + 5) =
        (tlvBody type time records).drop 1 := by
      rw [tlvFrame, List.drop_append_of_le_length (by omega), List.take_left']
      rw [List.length_drop, hbody]
      omega
    rw [hv, hcut, tlvFrame, List.getD_append_right _ _ _ _ (by omega), hbody, Nat.sub_self]
    rfl
  · rw [tlvFrame]
    simp

theorem decodeReply_tlvFrame {α β : Type} {bytes : α → List UInt8} {decode : List UInt8 → β}
    {record : α → β} {n : ℕ} (hn : 0 < n) (hlength : ∀ r, (bytes r).length = n)
    (hdecode : ∀ r, decode (bytes r) = record r) (type : UInt8) (time : QueryTime) (rows : List α)
    (h : n * rows.length + 10 < 65536) :
    decodeReply n decode (tlvFrame type time (rows.flatMap bytes)) = (time, rows.map record) := by
  have hrecords := length_flatMap_bytes bytes hlength rows
  have hfit : (rows.flatMap bytes).length + 10 < 65536 := by omega
  obtain ⟨-, hv⟩ := field_tlvFrame type time hfit
  have hcount : (field (tlvFrame type time (rows.flatMap bytes)) 4 - 6) / n = rows.length := by
    rw [hv, hrecords, Nat.add_sub_cancel, Nat.mul_div_cancel_left _ hn]
  have hdrop : (tlvFrame type time (rows.flatMap bytes)).drop 12 = rows.flatMap bytes ++
      [checkSum (tlvBody type time (rows.flatMap bytes)), 0xFF] := rfl
  rw [decodeReply, hcount, hdrop, Delimited.records_flatMap hlength hdecode]
  rfl

theorem field_listFrame {records : List UInt8} (h : records.length + 3 < 65536) :
    field (listFrame records) 1 = records.length + 3 ∧
      field (listFrame records) 4 = records.length :=
  ⟨shortNumber h, shortNumber (by omega)⟩

theorem listFramed {records : List UInt8} (h : records.length + 3 < 65536) :
    ListFramed (listFrame records) := by
  obtain ⟨htotal, hv⟩ := field_listFrame h
  have hlength : (listFrame records).length = records.length + 7 := by
    simp only [listFrame, frameHead, List.length_append, List.length_cons, List.length_nil]
    omega
  refine ⟨rfl, rfl, by omega, by omega, ?_⟩
  rw [listFrame]
  simp

theorem decodeList_listFrame {rows : List NodeRow} (h : 8 * rows.length + 3 < 65536) :
    decodeList (listFrame (rows.flatMap NodeRow.bytes)) = rows.map NodeRow.record := by
  have hrecords := length_flatMap_bytes NodeRow.bytes (n := 8) (fun _ => rfl) rows
  have hfit : (rows.flatMap NodeRow.bytes).length + 3 < 65536 := by omega
  obtain ⟨-, hv⟩ := field_listFrame hfit
  have hcount : field (listFrame (rows.flatMap NodeRow.bytes)) 4 / 8 = rows.length := by omega
  have hdrop : (listFrame (rows.flatMap NodeRow.bytes)).drop 6 =
      rows.flatMap NodeRow.bytes ++ [0xFF] := rfl
  have hlength : ∀ r : NodeRow, r.bytes.length = 8 := fun _ => rfl
  rw [decodeList, hcount, hdrop, Delimited.records_flatMap hlength decodeNodeRecord_bytes]

/-- **Replies decode back to the table**: whatever was replied before, a query for data writes
one frame, which depends on the rows and the request time only; its lengths, checksum and
terminator agree with the bytes written, and the client reads the rows in their order, the year
without its century.  For the status and for the list of nodes there is at least one row. -/
theorem replies_decode (time : QueryTime) :
    (∀ rows : List LogRow, rows.length ≤ 1461 → ∃ frame,
      (∀ history, (getNodeData (selectLog rows) time (after history)).1 = [frame]) ∧
      TlvFramed 0x03 frame ∧
      decodeReply 14 decodeLogRecord frame = (time, rows.map LogRow.record)) ∧
    (∀ rows : List StatusRow, rows ≠ [] → rows.length ≤ 255 → ∃ frame,
      (∀ history, (getNodeStatusData (selectStatus rows) time (after history)).1 = [frame]) ∧
      TlvFramed 0x06 frame ∧
      decodeReply 40 decodeStatusRecord frame = (time, rows.map StatusRow.record)) ∧
    ∀ rows : List NodeRow, rows ≠ [] → rows.length ≤ 64 → ∃ frame,
      commandGetNodeInfo (selectNodes rows) = [frame] ∧
      ListFramed frame ∧
      decodeList frame = rows.map NodeRow.record := by
  refine ⟨fun rows hle => ?_, fun rows hrows hle => ?_, fun rows hrows hle => ?_⟩
  · have hbytes : ∀ r : LogRow, r.bytes.length = 14 := fun _ => rfl
    have hlength := length_flatMap_bytes LogRow.bytes hbytes rows
    have hdecode := decodeReply_tlvFrame (by decide) hbytes decodeLogRecord_bytes 0x03 time
      rows (by omega)
    exact ⟨tlvFrame 0x03 time (rows.flatMap LogRow.bytes),
      fun history => getNodeData_eq rows time (after history), tlvFramed _ _ (by omega), hdecode⟩
  · have hbytes : ∀ r : StatusRow, r.bytes.length = 40 := fun _ => rfl
    have hlength := length_flatMap_bytes StatusRow.bytes hbytes rows
    have hdecode := decodeReply_tlvFrame (by decide) hbytes decodeStatusRecord_bytes 0x06 time
      rows (by omega)
    exact ⟨tlvFrame 0x06 time (rows.flatMap StatusRow.bytes),
      fun history => getNodeStatusData_eq hrows (by omega) time
        (cleared_after history).austemStatusSend, tlvFramed _ _ (by omega), hdecode⟩
  · have hlength := length_flatMap_bytes NodeRow.bytes (n := 8) (fun _ => rfl) rows
    exact ⟨listFrame (rows.flatMap NodeRow.bytes), commandGetNodeInfo_eq hrows,
      listFramed (by omega), decodeList_listFrame (by omega)⟩

/-- Noon on a day of 2013, and the same a century before. -/
def someDate : DateTime := ⟨2013, 11, 15, 12, 0, 0, 250⟩

def centuryBefore : DateTime := { someDate with year := 1913 }

/-- Two rows of each table. -/
def someLogRow : LogRow := ⟨1, 2, -3, someDate⟩

def otherLogRow : LogRow := ⟨7, 3, 70000, { someDate with month := 12 }⟩

def someStatusRow : StatusRow := ⟨1, 10, 20, 30, -40, 50, 60, someDate⟩

def otherStatusRow : StatusRow := ⟨7, 0, 256, 65536, -1, 2, 3, { someDate with month := 12 }⟩

def someNodeRow : NodeRow := ⟨1, 4, someDate⟩

def otherNodeRow : NodeRow := ⟨7, 5, { someDate with month := 12 }⟩

theorem replies_decode_some :
    (∃ frame, (∀ history, (getNodeData (selectLog [otherLogRow, someLogRow]) someDate.short
        (after history)).1 = [frame]) ∧ TlvFramed 0x03 frame ∧
      decodeReply 14 decodeLogRecord frame =
        (someDate.short, [otherLogRow, someLogRow].map LogRow.record)) ∧
    (∃ frame, (∀ history, (getNodeStatusData (selectStatus [otherStatusRow, someStatusRow])
        someDate.short (after history)).1 = [frame]) ∧ TlvFramed 0x06 frame ∧
      decodeReply 40 decodeStatusRecord frame =
        (someDate.short, [otherStatusRow, someStatusRow].map StatusRow.record)) ∧
    ∃ frame, commandGetNodeInfo (selectNodes [otherNodeRow, someNodeRow]) = [frame] ∧
      ListFramed frame ∧ decodeList frame = [otherNodeRow, someNodeRow].map NodeRow.record := by
  obtain ⟨hlog, hstatus, hnodes⟩ := replies_decode someDate.short
  exact ⟨hlog [otherLogRow, someLogRow] (by decide),
    hstatus [otherStatusRow, someStatusRow] (by simp) (by decide),
    hnodes [otherNodeRow, someNodeRow] (by simp) (by decide)⟩

/-- An empty `tb_comm_status` is answered with nothing, and two rows a century apart are
answered with the same bytes. -/
theorem replies_wrong :
    (¬ ∀ (history : List (Effect × SelectData)) (time : QueryTime) (rows : List StatusRow),
      rows.length ≤ 255 → ∃ frame,
        (getNodeStatusData (selectStatus rows) time (after history)).1 = [frame]) ∧
    ¬ ∃ decode : List UInt8 → List LogRow, ∀ (history : List (Effect × SelectData))
      (time : QueryTime) (rows : List LogRow), rows.length ≤ 1461 → ∃ frame,
        (getNodeData (selectLog rows) time (after history)).1 = [frame] ∧ decode frame = rows := by
  refine ⟨fun h => ?_, ?_⟩
  · obtain ⟨frame, hframe⟩ := h [] someDate.short [] (by decide)
    rw [getNodeStatusData_nil] at hframe
    cases hframe
  · rintro ⟨decode, h⟩
    obtain ⟨frame, hframe, hdecode⟩ := h [] someDate.short [someLogRow] (by decide)
    obtain ⟨frame', hframe', hdecode'⟩ := h [] someDate.short
      [{ someLogRow with datetime := centuryBefore }] (by decide)
    rw [getNodeData_eq] at hframe hframe'
    have hsame : ({ someLogRow with datetime := centuryBefore } : LogRow).bytes =
        someLogRow.bytes := by decide
    have hframes : frame' = frame := by
      rw [← List.singleton_inj.mp hframe, ← List.singleton_inj.mp hframe']
      simp only [List.flatMap_cons, List.flatMap_nil, hsame]
    rw [hframes, hdecode] at hdecode'
    have hyear := congrArg (fun rows : List LogRow =>
      rows.map (fun r => (r.datetime.year : ℕ))) hdecode'
    revert hyear
    decide

end IdcuIot.M2MManager
