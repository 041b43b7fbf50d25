import IdcuIot.Etri.Messages
import IdcuIot.Etri.Result
import IdcuIot.Lib.CString
import IdcuIot.Lib.Footprint

/-! # The arrays for the transducers

Before anything is sent, `Transducer_Description_Registration` fills `env`, 256 packets of 103
bytes, and `sendSize` from the rows of `transducerinfo`, and
`Transducer_Description_Deregistration` fills 64 packets of 12 bytes.  Neither loop looks at the
size of its array.  The unit of a row is copied into the last 32 bytes of its packet with the
length that another column gives; what is longer goes on in the packet of the next row, which is
filled afterwards.  `arrays_iff` says for which tables both functions keep to their arrays, and
every unit is sent as it is. -/

namespace IdcuIot.Etri

open Memory CString Decimal TagServer

/-- A row of `transducerinfo` whose last column is the string `unit`. -/
structure UnitRow extends TransducerRow where
  unit : List UInt8
  isString : IsString dataUnit 0 unit

/-- `DataUnitLength`. -/
def UnitRow.unitLength (row : UnitRow) : ℕ := (UInt8.ofInt (atoi row.dataUnitLength)).toNat

/-- The fields of a packet in front of `DataUnit`. -/
def StructTransducerRegistration.head (s : StructTransducerRegistration) : List UInt8 :=
  s.bytes.take 71

variable (info : ReadEnv)

/-- The loop over the rows, for the packets from `env[i]` on. -/
def fillEnv : List UnitRow → ℕ → Mem → Mem
  | [], _, env => env
  | row :: rows, i, env =>
      let env := env.store (103 * i) (transducerRegistration info row.toTransducerRow).head
      fillEnv rows (i + 1) (env.memcpy (103 * i + 71) row.dataUnit 0 row.unitLength)

/-- The loop over the rows, for `sendSize` from index `i` on. -/
def fillSendSize : List UnitRow → ℕ → (ℕ → ℤ) → ℕ → ℤ
  | [], _, sendSize => sendSize
  | row :: rows, i, sendSize =>
      fillSendSize rows (i + 1) (Function.update sendSize i
        (transducerRegistration info row.toTransducerRow).sendSize)

/-- The loop of `Transducer_Description_Deregistration`, for the packets from `env[i]` on. -/
def fillDeregistrationEnv : List UnitRow → ℕ → Mem → Mem
  | [], _, env => env
  | row :: rows, i, env =>
      fillDeregistrationEnv rows (i + 1)
        (env.store (12 * i) (transducerDeregistration info row.transducerId).bytes)

variable (sys : System) (table : List UnitRow)

/-- `env` of `Transducer_Description_Registration` when the first message is sent, from what was
on the stack. -/
def registrationEnv (env : Mem) : Mem :=
  fillEnv info (table.take sys.selected) 0 (env.clear 0 (103 * 256))

/-- `sendSize` at that time. -/
def registrationSendSize (sendSize : ℕ → ℤ) : ℕ → ℤ :=
  fillSendSize info (table.take sys.selected) 0 (fun i => if i < 256 then 0 else sendSize i)

/-- The bytes of `sender( tcp, &env[k], sendSize[k] )`. -/
def registrationBytes (env : Mem) (sendSize : ℕ → ℤ) (k : ℕ) : List UInt8 :=
  (registrationEnv info sys table env).slice (103 * k)
    (registrationSendSize info sys table sendSize k).toNat

/-- `env` of `Transducer_Description_Deregistration` when the first message is sent. -/
def deregistrationEnv (env : Mem) : Mem :=
  fillDeregistrationEnv info (table.take (sys.rows.getD 0)) 0 (env.clear 0 (12 * 64))

/-- The registration keeps to its arrays, reads no more of a unit than there is, and sends the
unit of the row with each message. -/
structure Registers : Prop where
  env : Mem.KeepsFrom (103 * 256) (registrationEnv info sys table)
  sendSize : ∀ sendSize i, 256 ≤ i → registrationSendSize info sys table sendSize i = sendSize i
  reads : ∀ row ∈ table.take sys.selected, row.unitLength ≤ row.unit.length
  sends : ∀ env sendSize, ∀ step ∈ stepsOf (transducerDescriptionRegistration sys), ∃ k row,
    step.packet = .transducerRegistration k ∧ table[k]? = some row ∧
      (registrationBytes info sys table env sendSize k).drop 71 = row.unit

/-- The deregistration keeps to its array, and sends the packet of the row with each message. -/
structure Deregisters : Prop where
  env : Mem.KeepsFrom (12 * 64) (deregistrationEnv info sys table)
  sends : ∀ env, ∀ step ∈ stepsOf (transducerDescriptionDeregistration sys), ∃ k row,
    step.packet = .transducerDeregistration k ∧ table[k]? = some row ∧
      (deregistrationEnv info sys table env).slice (12 * k) 12 =
        (transducerDeregistration info row.transducerId).bytes

/-- The queries for the rows give those of the table, unless they fail. -/
def Selects : Prop := sys.rows = some table.length ∨ sys.rows = none

/-- At most 64 rows, the length of every unit in its column, and no unit but the last longer than
its field, except by the byte that comes next anyway: the first one of every packet. -/
structure Fits : Prop where
  count : table.length ≤ 64
  length : ∀ row ∈ table, row.unitLength = row.unit.length
  field : ∀ row ∈ table.dropLast, row.unit.drop 32 = [] ∨ row.unit.drop 32 = [0x07]

/-! ### The loops -/

section
variable {info : ReadEnv} {row row' : UnitRow} {rows rows' : List UnitRow} {i : ℕ} {m : Mem}

theorem length_head (s : StructTransducerRegistration) : s.head.length = 71 := by
  simp [StructTransducerRegistration.head, StructTransducerRegistration.bytes,
    StructTransducer.bytes]

theorem head_eq (info : ReadEnv) (row : TransducerRow) :
    ∃ l, (transducerRegistration info row).head = 0x07 :: 0x00 :: l := by
  have hid : le16 0x0007 = [0x07, 0x00] := rfl
  simp [StructTransducerRegistration.head, StructTransducerRegistration.bytes,
    StructTransducer.bytes, transducerRegistration, hid]

theorem unitLength_lt (row : UnitRow) : row.unitLength < 256 := UInt8.toNat_lt _

theorem sendSize_eq (info : ReadEnv) (row : UnitRow) :
    (transducerRegistration info row.toTransducerRow).sendSize = 71 + row.unitLength := by
  unfold StructTransducerRegistration.sendSize UnitRow.unitLength
  rw [toNat_length_transducerRegistration]
  omega

theorem fillEnv_append (rows rows' : List UnitRow) (i : ℕ) (m : Mem) :
    fillEnv info (rows ++ rows') i m =
      fillEnv info rows' (i + rows.length) (fillEnv info rows i m) := by
  induction rows generalizing i m with
  | nil => rfl
  | cons row rows ih =>
      rw [List.cons_append, fillEnv, fillEnv, ih, List.length_cons,
        Nat.add_assoc i 1, Nat.add_comm 1]

theorem fillEnv_of_lt (m : Mem) {x : ℕ} (h : x < 103 * i) : fillEnv info rows i m x = m x := by
  induction rows generalizing i m with
  | nil => rfl
  | cons row rows ih =>
      rw [fillEnv, ih _ (by omega), Mem.memcpy, Mem.store_of_lt _ _ (by omega),
        Mem.store_of_lt _ _ h]

theorem keepsFrom_fillEnv {n : ℕ} (h : 103 * (i + rows.length) + 223 ≤ n) :
    Mem.KeepsFrom n (fillEnv info rows i) := by
  induction rows generalizing i with
  | nil => exact fun m x _ => rfl
  | cons row rows ih =>
      intro m x hx
      have hunit := unitLength_lt row
      have hhead := length_head (transducerRegistration info row.toTransducerRow)
      rw [List.length_cons] at h
      rw [fillEnv, ih (by omega) _ x hx, Mem.memcpy,
        Mem.store_of_le _ (by rw [Mem.length_slice]; omega), Mem.store_of_le _ (by omega)]

theorem slice_fillEnv_head (rows : List UnitRow) (i : ℕ) (m : Mem) :
    (fillEnv info (row :: rows) i m).slice (103 * i) 71 =
      (transducerRegistration info row.toTransducerRow).head := by
  have hhead := length_head (transducerRegistration info row.toTransducerRow)
  rw [fillEnv, Mem.slice_congr (fun k hk => fillEnv_of_lt _ (by omega)), Mem.memcpy,
    Mem.slice_store_of_disjoint _ (Or.inl (by omega))]
  have hstore := m.slice_store (103 * i) (transducerRegistration info row.toTransducerRow).head
  rwa [hhead] at hstore

theorem slice_fillEnv_unit (rows : List UnitRow) (i : ℕ) (m : Mem) {n : ℕ}
    (h : n ≤ row.unitLength) (hn : rows = [] ∨ n ≤ 32) :
    (fillEnv info (row :: rows) i m).slice (103 * i + 71) n = row.dataUnit.slice 0 n := by
  have hrest : ∀ m' : Mem, (fillEnv info rows (i + 1) m').slice (103 * i + 71) n =
      m'.slice (103 * i + 71) n := by
    intro m'
    rcases hn with rfl | hn
    · rfl
    · exact Mem.slice_congr (fun k hk => fillEnv_of_lt _ (by omega))
  rw [fillEnv, hrest, ← Mem.slice_take _ _ h, Mem.slice_memcpy, Mem.slice_take _ _ h]

/-- A string in front of a zero that has been stored there by others is empty, or the one byte
they left. -/
theorem slice_eq_self_iff (m : Mem) (x : ℕ) {s : List UInt8} (h0 : 0 ∉ s)
    (hzero : m (x + 1) = 0) : m.slice x s.length = s ↔ s = [] ∨ s = [m x] := by
  match s with
  | [] => simp
  | [b] => simp [Mem.slice, eq_comm]
  | b :: c :: s =>
      refine iff_of_false (fun h => ?_) (by simp)
      have hsecond := ((Mem.slice_eq_iff _ _ _ _).mp h).2 1 (by simp)
      rw [hzero] at hsecond
      exact h0 (by simp [hsecond])

/-- The bytes of a unit behind its field are those of the next packet. -/
theorem slice_unit_iff (hlength : row.unitLength = row.unit.length) :
    (fillEnv info (row :: rows) i m).slice (103 * i + 71) row.unitLength = row.unit ↔
      rows = [] ∨ (fillEnv info (row :: rows) i m).slice (103 * (i + 1))
        (row.unit.drop 32).length = row.unit.drop 32 := by
  have hbytes := row.isString.bytes
  by_cases hfits : rows = [] ∨ row.unit.length ≤ 32
  · rw [slice_fillEnv_unit rows i m le_rfl (by rwa [hlength]), hlength, hbytes]
    rcases hfits with hlast | hle
    · simp [hlast]
    · simp [List.drop_of_length_le hle]
  · rw [not_or] at hfits
    obtain ⟨e, he⟩ := Nat.exists_eq_add_of_le (Nat.le_of_not_le hfits.2)
    have hfield : row.dataUnit.slice 0 32 = row.unit.take 32 := by
      rw [← Mem.slice_take _ _ (Nat.le_of_not_le hfits.2), hbytes]
    rw [hlength, he, Mem.slice_add, slice_fillEnv_unit rows i m (by omega) (Or.inr le_rfl), hfield,
      List.length_drop, he, Nat.add_sub_cancel_left,
      show 103 * i + 71 + 32 = 103 * (i + 1) by omega]
    nth_rewrite 2 [← List.take_append_drop 32 row.unit]
    simp only [hfits.1, false_or, List.append_right_inj]

/-- **One unit**: it lies behind the fields of its packet when the packet is the last one, or when
it fits, or when its only byte too many is the first one of the next packet. -/
theorem unit_iff (hlength : row.unitLength = row.unit.length) :
    (fillEnv info (row :: rows) i m).slice (103 * i + 71) row.unitLength = row.unit ↔
      rows = [] ∨ row.unit.drop 32 = [] ∨ row.unit.drop 32 = [0x07] := by
  rw [slice_unit_iff hlength]
  cases rows with
  | nil => simp
  | cons row' rows =>
      obtain ⟨l, hl⟩ := head_eq info row'.toTransducerRow
      have hhead : (fillEnv info (row :: row' :: rows) i m).slice (103 * (i + 1)) 71 =
          0x07 :: 0x00 :: l := by
        rw [fillEnv, slice_fillEnv_head, hl]
      have hbyte := ((Mem.slice_eq_iff _ _ _ _).mp hhead).2
      have hfirst := hbyte 0 (by simp)
      have hsecond := hbyte 1 (by simp)
      rw [slice_eq_self_iff _ _ (fun h => row.isString.nonzero (List.mem_of_mem_drop h)) hsecond,
        show (fillEnv info (row :: row' :: rows) i m) (103 * (i + 1)) = 0x07 from hfirst]

theorem fillSendSize_of_lt {j : ℕ} (sendSize : ℕ → ℤ) (h : j < i) :
    fillSendSize info rows i sendSize j = sendSize j := by
  induction rows generalizing i sendSize with
  | nil => rfl
  | cons row rows ih =>
      rw [fillSendSize, ih _ (Nat.lt_succ_of_lt h), Function.update_of_ne (by omega)]

theorem fillSendSize_of_ge {j : ℕ} (sendSize : ℕ → ℤ) (h : i + rows.length ≤ j) :
    fillSendSize info rows i sendSize j = sendSize j := by
  induction rows generalizing i sendSize with
  | nil => rfl
  | cons row rows ih =>
      rw [List.length_cons] at h
      rw [fillSendSize, ih _ (by omega), Function.update_of_ne (by omega)]

theorem fillSendSize_append (rows rows' : List UnitRow) (i : ℕ) (sendSize : ℕ → ℤ) :
    fillSendSize info (rows ++ rows') i sendSize =
      fillSendSize info rows' (i + rows.length) (fillSendSize info rows i sendSize) := by
  induction rows generalizing i sendSize with
  | nil => rfl
  | cons row rows ih =>
      rw [List.cons_append, fillSendSize, fillSendSize, ih, List.length_cons,
        Nat.add_assoc i 1, Nat.add_comm 1]

theorem fillDeregistrationEnv_eq (rows : List UnitRow) (i : ℕ) (m : Mem) :
    fillDeregistrationEnv info rows i m = m.store (12 * i)
      (rows.flatMap (fun row => (transducerDeregistration info row.transducerId).bytes)) := by
  induction rows generalizing i m with
  | nil => exact (m.store_nil _).symm
  | cons row rows ih =>
      rw [fillDeregistrationEnv, ih, List.flatMap_cons, Mem.store_append]
      rfl

theorem length_deregistrationBytes (rows : List UnitRow) :
    (rows.flatMap (fun row => (transducerDeregistration info row.transducerId).bytes)).length =
      12 * rows.length := by
  induction rows with
  | nil => rfl
  | cons row rows ih =>
      have hrow : (transducerDeregistration info row.transducerId).bytes.length = 12 := rfl
      rw [List.flatMap_cons, List.length_append, ih, hrow, List.length_cons]
      omega

end

/-! ### Messages -/

section
variable {info : ReadEnv} {sys : System} {table rows rows' : List UnitRow} {row : UnitRow}

theorem drop_registrationBytes (h : table.take sys.selected = rows ++ row :: rows') (env : Mem)
    (sendSize : ℕ → ℤ) : ∃ m, (registrationBytes info sys table env sendSize rows.length).drop 71 =
      (fillEnv info (row :: rows') rows.length m).slice (103 * rows.length + 71)
        row.unitLength := by
  have hsize : registrationSendSize info sys table sendSize rows.length =
      ((71 + row.unitLength : ℕ) : ℤ) := by
    rw [registrationSendSize, h, fillSendSize_append, Nat.zero_add, fillSendSize,
      fillSendSize_of_lt _ (Nat.lt_succ_self _), Function.update_self, sendSize_eq]
  refine ⟨fillEnv info rows 0 (env.clear 0 (103 * 256)), ?_⟩
  rw [registrationBytes, hsize, Int.toNat_natCast, registrationEnv, h, fillEnv_append,
    Nat.zero_add, Mem.slice_add, List.drop_left' (Mem.length_slice _ _ _)]

/-- **The unit of a row is sent** when its length is right and it fits. -/
theorem sent_unit_iff (h : table.take sys.selected = rows ++ row :: rows') (env : Mem)
    (sendSize : ℕ → ℤ) :
    (registrationBytes info sys table env sendSize rows.length).drop 71 = row.unit ↔
      row.unitLength = row.unit.length ∧
        (rows' = [] ∨ row.unit.drop 32 = [] ∨ row.unit.drop 32 = [0x07]) := by
  obtain ⟨m, hm⟩ : ∃ m, (registrationBytes info sys table env sendSize rows.length).drop 71 = _ :=
    drop_registrationBytes h env sendSize
  rw [hm]
  constructor
  · intro hunit
    have hlength := congrArg List.length hunit
    rw [Mem.length_slice] at hlength
    exact ⟨hlength, (unit_iff hlength).mp hunit⟩
  · rintro ⟨hlength, hfield⟩
    exact (unit_iff hlength).mpr hfield

theorem exists_row {n : ℕ} {message : ℕ → Packet} {step : Step}
    (hstep : step ∈ attempts sys (transducers message n) 0) (hn : n ≤ table.length) :
    ∃ rows row rows', table.take n = rows ++ row :: rows' ∧ table[rows.length]? = some row ∧
      step.packet = message rows.length := by
  obtain ⟨k, hk, hpacket⟩ := mem_transducers.mp (packet_mem_of_mem_attempts hstep)
  have hk' : k < (table.take n).length := by
    rw [List.length_take]
    omega
  have hlen : ((table.take n).take k).length = k := by
    rw [List.length_take]
    omega
  refine ⟨(table.take n).take k, (table.take n)[k], (table.take n).drop (k + 1), ?_, ?_, ?_⟩
  · rw [← List.drop_eq_getElem_cons hk', List.take_append_drop]
  · rw [hlen, List.getElem_take, List.getElem?_eq_getElem (by omega)]
  · rw [hlen, hpacket]

theorem Selects.rows_eq (h : Selects sys table) :
    sys.rows.getD 0 = table.length ∨ sys.rows.getD 0 = 0 := by
  rcases h with h | h <;> simp [h]

theorem Selects.selected_eq (h : Selects sys table) :
    sys.selected = table.length ∨ sys.selected = 0 := by
  unfold System.selected
  split_ifs
  · exact h.rows_eq
  · exact Or.inr rfl

/-- A deregistration keeps to its array when there are at most 64 rows. -/
theorem keepsFrom_deregistrationEnv_iff :
    Mem.KeepsFrom (12 * 64) (deregistrationEnv info sys table) ↔
      (table.take (sys.rows.getD 0)).length ≤ 64 := by
  have henv : deregistrationEnv info sys table = fun m => (m.clear 0 (12 * 64)).store 0
      ((table.take (sys.rows.getD 0)).flatMap
        (fun row => (transducerDeregistration info row.transducerId).bytes)) := by
    funext m
    exact fillDeregistrationEnv_eq _ 0 _
  rw [henv, Mem.keepsFrom_store_zero_iff (Mem.keepsFrom_clear le_rfl), length_deregistrationBytes]
  omega

theorem sent_deregistration (h : table.take (sys.rows.getD 0) = rows ++ row :: rows') (env : Mem) :
    (deregistrationEnv info sys table env).slice (12 * rows.length) 12 =
      (transducerDeregistration info row.transducerId).bytes := by
  have hrow : (transducerDeregistration info row.transducerId).bytes.length = 12 := rfl
  have hstore := Mem.slice_store ((env.clear 0 (12 * 64)).store 0
    (rows.flatMap (fun row => (transducerDeregistration info row.transducerId).bytes)))
    (12 * rows.length) (transducerDeregistration info row.transducerId).bytes
  rw [hrow] at hstore
  rw [deregistrationEnv, fillDeregistrationEnv_eq, h, List.flatMap_append, List.flatMap_cons,
    Nat.mul_zero, Mem.store_append, length_deregistrationBytes, Nat.zero_add, Mem.store_append,
    Mem.slice_store_of_disjoint _ (Or.inl (by rw [hrow])), hstore]

theorem mem_dropLast_iff : row ∈ table.dropLast ↔
    ∃ rows rows', table = rows ++ row :: rows' ∧ rows' ≠ [] := by
  constructor
  · intro hrow
    have hne : table ≠ [] := by
      rintro rfl
      cases hrow
    obtain ⟨rows, rows', heq⟩ := List.append_of_mem hrow
    refine ⟨rows, rows' ++ [table.getLast hne], ?_, by simp⟩
    rw [← List.cons_append, ← List.append_assoc, ← heq, List.dropLast_append_getLast]
  · rintro ⟨rows, rows', rfl, hne⟩
    rw [List.dropLast_append_cons, List.dropLast_cons_of_ne_nil hne]
    simp

/-! ### The two functions -/

theorem registers_of_fits (hsys : Selects sys table) (h : Fits table) :
    Registers info sys table := by
  have hcount : (table.take sys.selected).length ≤ 64 :=
    (List.length_take_le' _ _).trans h.count
  refine ⟨?_, fun sendSize i hi => ?_, fun row hrow => ?_, fun env sendSize step hstep => ?_⟩
  · exact (keepsFrom_fillEnv (by omega)).comp (Mem.keepsFrom_clear le_rfl)
  · rw [registrationSendSize, fillSendSize_of_ge _ (by omega), if_neg (by omega)]
  · exact (h.length row (List.mem_of_mem_take hrow)).le
  · have hselected := hsys.selected_eq
    rw [steps_registration] at hstep
    obtain ⟨rows, row, rows', htake, hrow, hpacket⟩ :=
      exists_row hstep (show _ ≤ table.length by omega)
    refine ⟨_, row, hpacket, hrow, (sent_unit_iff htake env sendSize).mpr ?_⟩
    have hall : table.take sys.selected = table := by
      rcases hselected with hall | hnone
      · rw [hall, List.take_length]
      · rw [hnone] at htake
        simp at htake
    rw [hall] at htake
    refine ⟨h.length row (by simp [htake]), or_iff_not_imp_left.mpr (fun hne => ?_)⟩
    exact h.field row (mem_dropLast_iff.mpr ⟨rows, rows', htake, hne⟩)

theorem deregisters_of_fits (hsys : Selects sys table) (h : Fits table) :
    Deregisters info sys table := by
  refine ⟨keepsFrom_deregistrationEnv_iff.mpr ((List.length_take_le' _ _).trans h.count),
    fun env step hstep => ?_⟩
  have hrows := hsys.rows_eq
  rw [stepsOf, steps_deregistration] at hstep
  obtain ⟨rows, row, rows', htake, hrow, hpacket⟩ :=
    exists_row hstep (show _ ≤ table.length by omega)
  exact ⟨_, row, hpacket, hrow, sent_deregistration htake env⟩

/-- A system in which everything works. -/
def working (n : ℕ) : System := ⟨0, true, some n, 0, fun _ => confirmed⟩

theorem of_registers (info : ReadEnv) (h : table = rows ++ row :: rows')
    (hsends : Registers info (working table.length) table) :
    row.unitLength = row.unit.length ∧
      (rows' = [] ∨ row.unit.drop 32 = [] ∨ row.unit.drop 32 = [0x07]) := by
  have hall : Succeed (working table.length) 0
      (transducers .transducerRegistration table.length).length := by
    have hsender : TcpSocket.sender confirmed = 0 := by decide
    exact fun _ _ => hsender
  have hinj : Function.Injective Packet.transducerRegistration := fun _ _ h => by injection h
  obtain ⟨step, hstep, hpacket, -⟩ := (confirmed_iff (nodup_transducers hinj _) 0).mpr hall _
    (mem_transducers.mpr ⟨rows.length, by simp [h], rfl⟩)
  obtain ⟨k, row', hk, hrow', hunit⟩ := hsends.sends (fun _ => 0) (fun _ => 0) step
    (by rw [steps_registration]; exact hstep)
  obtain rfl : k = rows.length := by
    rw [hpacket] at hk
    injection hk with hk
    exact hk.symm
  obtain rfl : row = row' := by simpa [h] using hrow'
  exact (sent_unit_iff (by rw [← h]; exact List.take_length) _ _).mp hunit

end

/-- **The arrays for the transducers**: whatever the system answers, both functions keep to their
arrays and send the rows as they are, exactly for the tables that fit. -/
theorem arrays_iff (info : ReadEnv) (table : List UnitRow) :
    (∀ sys, Selects sys table → Registers info sys table ∧ Deregisters info sys table) ↔
      Fits table := by
  constructor
  · intro h
    obtain ⟨hregisters, hderegisters⟩ := h (working table.length) (Or.inl rfl)
    refine ⟨?_, fun row hrow => ?_, fun row hrow => ?_⟩
    · have hcount := keepsFrom_deregistrationEnv_iff.mp hderegisters.env
      rwa [show (working table.length).rows.getD 0 = table.length from rfl,
        List.take_length] at hcount
    · obtain ⟨rows, rows', heq⟩ := List.append_of_mem hrow
      exact (of_registers info heq hregisters).1
    · obtain ⟨rows, rows', heq, hne⟩ := mem_dropLast_iff.mp hrow
      exact (of_registers info heq hregisters).2.resolve_left hne
  · exact fun h sys hsys => ⟨registers_of_fits hsys h, deregisters_of_fits hsys h⟩

/-- A transducer with the unit `C`. -/
def celsius : UnitRow where
  toTransducerRow :=
    { someRow with dataUnitLength := ['1'], dataUnit := Mem.store (fun _ => 0) 0 [0x43] }
  unit := [0x43]
  isString := ⟨rfl, rfl, by decide⟩

/-- The packets of 65 transducers do not fit in the array of the deregistration. -/
theorem arrays_wrong : ¬ ∀ (info : ReadEnv) (sys : System) (table : List UnitRow),
    Selects sys table → Registers info sys table ∧ Deregisters info sys table := by
  intro h
  have hkeeps := (h someInfo (working 65) (List.replicate 65 celsius) (Or.inl rfl)).2.env
  rw [keepsFrom_deregistrationEnv_iff] at hkeeps
  revert hkeeps
  decide

end IdcuIot.Etri
