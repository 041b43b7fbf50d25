import IdcuIot.Driver.Plcs.SelectTag

/-! # The PLCS drivers: from a frame to its message

The values of a frame, as a list (`exported`), determine the pieces between the semicolons and
with them the strings in the rows that `selectTag` reads (`rows`); `handle_eq` puts the two
halves of a driver together.  From it follow when no token is missing and when the message fits
in `data_buff`. -/

namespace IdcuIot.Driver.Plcs

open Memory Tokens CString

/-! ### From the values to the rows -/

/-- The text of one value, without its semicolon. -/
def line (t : Tag) : List UInt8 := bytesOf (Decimal.pad 3 t.id) ++ 0x3A :: t.value

/-- The pieces between the semicolons. -/
def pieces (ts : List Tag) : List (List UInt8) := tokens 0x3B (setString ts)

/-- The strings in the rows that are read. -/
def rows (d : Plcs) (ts : List Tag) : List (List UInt8) :=
  (rowTexts d.width d.height (pieces ts)).take ts.length

section
variable {d : Plcs} {ts : List Tag}

theorem pieces_eq (ts : List Tag) : pieces ts = ts.flatMap (fun t => tokens 0x3B (line t)) := by
  rw [pieces, setString, ← tokens_flatMap]
  refine congrArg (tokens 0x3B) (List.flatMap_congr (fun t _ => ?_))
  rw [entry, line, List.append_assoc, List.cons_append]

theorem length_bytesOf_pad (n : ℕ) : (bytesOf (Decimal.pad 3 n)).length = 3 := rfl

theorem length_line (t : Tag) : (line t).length = 4 + t.value.length := by
  rw [line, List.length_append, List.length_cons, length_bytesOf_pad]
  omega

theorem bytesOf_pad (n : ℕ) : ∀ b ∈ bytesOf (Decimal.pad 3 n), 0x30 ≤ b ∧ b ≤ 0x39 := by
  intro b hb
  obtain ⟨c, hc, rfl⟩ := List.mem_map.mp hb
  exact Decimal.digit_bounds (Decimal.isDigit_pad 3 n c hc)

theorem bytesOf_print (z : ℤ) :
    ∀ b ∈ bytesOf (Decimal.print z), b = 0x2D ∨ 0x30 ≤ b ∧ b ≤ 0x39 := by
  intro b hb
  obtain ⟨c, hc, rfl⟩ := List.mem_map.mp hb
  rcases Decimal.mem_print c hc with rfl | hd
  · exact Or.inl (by decide)
  · exact Or.inr (Decimal.digit_bounds hd)

theorem zero_notMem_print (z : ℤ) : 0 ∉ bytesOf (Decimal.print z) :=
  fun h0 => absurd (bytesOf_print z 0 h0) (by decide)

theorem length_le_pieces (ts : List Tag) : ts.length ≤ (pieces ts).length := by
  rw [pieces_eq]
  induction ts with
  | nil => exact le_rfl
  | cons t ts ih =>
      have hone : tokens 0x3B (line t) ≠ [] := fun h =>
        absurd (tokens_eq_nil_iff.mp h 0x3A (by simp [line])) (by decide)
      rw [List.flatMap_cons, List.length_append, List.length_cons]
      have := List.length_pos_iff.mpr hone
      omega

theorem pieces_ne_nil (h : ts ≠ []) : pieces ts ≠ [] := by
  intro hnil
  have hle := length_le_pieces ts
  rw [hnil] at hle
  exact h (List.length_eq_zero_iff.mp (Nat.le_zero.mp hle))

theorem of_mem_pieces {p : List UInt8} (hp : p ∈ pieces ts) :
    ∃ t ∈ ts, p.length ≤ 4 + t.value.length ∧ (0 ∈ p → 0 ∈ t.value) ∧ 0x3B ∉ p := by
  rw [pieces_eq] at hp
  obtain ⟨t, ht, hpt⟩ := List.mem_flatMap.mp hp
  have hpart := infix_of_mem_tokens hpt
  refine ⟨t, ht, ?_, fun h0 => ?_, (of_mem_tokens hpt).2.1⟩
  · rw [← length_line t]
    exact hpart.length_le
  · rcases List.mem_append.mp (hpart.subset h0) with h | h
    · exact absurd (bytesOf_pad t.id 0 h).1 (by decide)
    · simpa using h

theorem isSome_front_pieces {w i : ℕ} (hlen : ts.length ≤ 256) (hi : i < ts.length) :
    (front w i 0 (pieces ts)).isSome := by
  have hnum : (UInt8.ofNat i).toNat = i := UInt8.toNat_ofNat_of_lt' (show i < 256 by omega)
  have hlast : (lastAt (UInt8.ofNat i) 0 (pieces ts)).isSome := lastAt_isSome (by
    rw [UInt8.sub_zero, hnum]
    have := length_le_pieces ts
    omega)
  have := isSome_front (w := w) hlast
  rwa [hnum] at this

theorem length_rows (hlen : ts.length ≤ 256) : (d.rows ts).length = ts.length := by
  rw [rows, List.length_take, length_rowTexts]
  cases d <;> simp only [height] <;> omega

/-- The values of a frame, and any others that are strings and do not lead out of the table. -/
def Placed (d : Plcs) (ts : List Tag) : Prop :=
  ts ≠ [] ∧ ts.length ≤ 256 ∧
    ∀ t ∈ ts, 0 ∉ t.value ∧ 255 * d.width + (4 + t.value.length) < d.height * d.width

theorem isString_row (h : d.Placed ts) (parsing : Mem) {i : ℕ} (hi : i < ts.length) :
    IsString (d.pieceTable parsing (setString ts)) (i * d.width) ((d.rows ts).getD i []) ∧
      i * d.width + ((d.rows ts).getD i []).length < d.height * d.width := by
  obtain ⟨-, hlen, hvalues⟩ := h
  have hpieces : ∀ p ∈ pieces ts, 0 ∉ p ∧ 255 * d.width + p.length < d.height * d.width := by
    intro p hp
    obtain ⟨t, ht, hle, hzero, -⟩ := of_mem_pieces hp
    obtain ⟨h0, hfits⟩ := hvalues t ht
    exact ⟨fun h => h0 (hzero h), by omega⟩
  have hrow := isString_rowTexts (fun p hp => (hpieces p hp).1)
    (fun _ _ => front_lt (fun p hp => (hpieces p hp).2)) parsing (isSome_front_pieces hlen hi)
  rwa [rows, List.getD_eq_getElem?_getD, List.getElem?_take_of_lt hi, ← List.getD_eq_getElem?_getD]

/-- **What is sent**, in terms of the rows. -/
theorem selectTag_eq (h : d.Placed ts) (sensingTime : UInt32) (parsing : Mem) :
    d.selectTag sensingTime parsing (setString ts) ts.length =
      ⟨UInt8.ofNat ts.length :: (read sensingTime (seen d.width (d.rows ts))).bytes,
        (read sensingTime (seen d.width (d.rows ts))).null⟩ := by
  have hne : tokens 0x3B (setString ts) ≠ [] := pieces_ne_nil h.1
  have hread := readRows_eq sensingTime (i := 0) ts.length
    (fun i _ hi => isString_row h parsing (show i < ts.length by omega))
  rw [map_getD_range' (length_rows h.2.1)] at hread
  rw [selectTag, if_neg hne, hread]

theorem value_exported {frame : List UInt8} (h : d.IsFrame frame) {indexCount : ℤ}
    (hindex : -2 ^ 31 ≤ indexCount ∧ indexCount < 2 ^ 31)
    (hts : d.exported indexCount frame = some ts) :
    ∀ t ∈ ts, 0 ∉ t.value ∧ t.value.length < 32 := by
  intro t ht
  rcases (of_exported hts).2.2 t ht with hv | ⟨k, hv⟩
  · have := Decimal.length_print hindex.1 hindex.2
    rw [hv]
    exact ⟨zero_notMem_print indexCount, by rw [bytesOf, List.length_map]; omega⟩
  · rw [hv]
    refine ⟨fun h0 => ?_, (trim_part _).length_le.trans_lt (length_numbered h k)⟩
    exact numbered_of_mem (p := fun t => 0 ∉ t) (by simp)
      (fun t ht => (short_of_mem_present h t ht).2) k ((trim_part _).subset h0)

theorem placed_exported {frame : List UInt8} (h : d.IsFrame frame) {indexCount : ℤ}
    (hindex : -2 ^ 31 ≤ indexCount ∧ indexCount < 2 ^ 31)
    (hts : d.exported indexCount frame = some ts) : d.Placed ts := by
  obtain ⟨hne, hlen, -⟩ := of_exported hts
  refine ⟨hne, hlen.trans (by decide), fun t ht => ?_⟩
  obtain ⟨h0, hshort⟩ := value_exported h hindex hts t ht
  refine ⟨h0, ?_⟩
  cases d <;> simp only [width, height] <;> omega

theorem handle_eq_selectTag {frame : List UInt8} (h : d.IsFrame frame) (indexCount : ℤ)
    (sensingTime : UInt32) (parsing : Mem) :
    d.handle indexCount sensingTime parsing frame = (d.exported indexCount frame).map
      (fun ts => d.selectTag sensingTime parsing (setString ts) ts.length) := by
  rw [handle, fieldTable_eq h]
  dsimp only
  rw [tags_eq h]

/-- **What a driver does with a frame**, in terms of its fields. -/
theorem handle_eq {frame : List UInt8} (h : d.IsFrame frame) {indexCount : ℤ}
    (hindex : -2 ^ 31 ≤ indexCount ∧ indexCount < 2 ^ 31) (sensingTime : UInt32) (parsing : Mem) :
    d.handle indexCount sensingTime parsing frame = (d.exported indexCount frame).map (fun ts =>
      ⟨UInt8.ofNat ts.length :: (read sensingTime (seen d.width (d.rows ts))).bytes,
        (read sensingTime (seen d.width (d.rows ts))).null⟩) := by
  rw [handle_eq_selectTag h]
  cases hts : d.exported indexCount frame with
  | none => rfl
  | some ts => exact congrArg some (selectTag_eq (placed_exported h hindex hts) sensingTime parsing)

end

/-! ### Values without separators -/

section
variable {d : Plcs} {ts : List Tag} {w : ℕ} {s : List UInt8} {rows : List (List UInt8)}

theorem cutAt_of_short (h : s.length ≤ w) : cutAt w s = none := by
  simp only [cutAt]
  rw [if_neg (by omega), if_neg (by omega)]

theorem seen_of_dropLast (h : ∀ s ∈ rows.dropLast, s.length ≤ w) : seen w rows = rows := by
  induction rows with
  | nil => rfl
  | cons s rows ih =>
      cases rows with
      | nil =>
          rw [seen]
          cases cutAt w s <;> rfl
      | cons s' rows =>
          rw [List.dropLast_cons_cons] at h
          obtain ⟨hs, hrows⟩ := List.forall_mem_cons.mp h
          rw [seen, cutAt_of_short hs, ih hrows]

theorem complete_of_short (h : ∀ s ∈ rows, s.length ≤ w) :
    Complete w rows ↔ ∀ s ∈ rows, 2 ≤ (tokens 0x3A s).length := by
  induction rows with
  | nil => simp [Complete]
  | cons s rows ih =>
      obtain ⟨hs, hrows⟩ := List.forall_mem_cons.mp h
      rw [Complete, cutAt_of_short hs, ih hrows, List.forall_mem_cons]
      simp

theorem colon_notMem_pad (n : ℕ) : 0x3A ∉ bytesOf (Decimal.pad 3 n) :=
  fun h => absurd (bytesOf_pad n 0x3A h).2 (by decide)

theorem tokens_pad (n : ℕ) (s : List UInt8) : tokens 0x3A (bytesOf (Decimal.pad 3 n) ++ 0x3A :: s) =
    bytesOf (Decimal.pad 3 n) :: tokens 0x3A s :=
  tokens_token (colon_notMem_pad n) (by simp [bytesOf, Decimal.pad]) s

theorem tokens_line (t : Tag) :
    tokens 0x3A (line t) = bytesOf (Decimal.pad 3 t.id) :: tokens 0x3A t.value :=
  tokens_pad t.id t.value

theorem pieces_eq_map (h : ∀ t ∈ ts, 0x3B ∉ t.value) : pieces ts = ts.map line := by
  rw [pieces_eq, ← List.flatMap_pure_eq_map]
  refine List.flatMap_congr (fun t ht => tokens_of_notMem (fun hmem => ?_) (by simp [line]))
  rcases List.mem_append.mp hmem with hmem | hmem
  · exact absurd (bytesOf_pad t.id 0x3B hmem).2 (by decide)
  · exact h t ht (by simpa using hmem)

theorem rows_eq_map (hlen : ts.length ≤ 256)
    (h : ∀ t ∈ ts, 0x3B ∉ t.value ∧ 4 + t.value.length < d.width) : d.rows ts = ts.map line := by
  have hmap := pieces_eq_map (fun t ht => (h t ht).1)
  have htake : (rowTexts d.width d.height (ts.map line)).take (ts.map line).length = ts.map line :=
    rowTexts_take (by cases d <;> decide)
    (fun s hs => by
      obtain ⟨t, ht, rfl⟩ := List.mem_map.mp hs
      rw [length_line]
      exact (h t ht).2)
    (by rwa [List.length_map])
    (by rw [List.length_map]; cases d <;> simp only [height] <;> omega)
  rw [List.length_map, ← hmap] at htake
  exact htake.trans hmap

/-- Values without a semicolon: a token is missing when one of them is empty or consists of
colons. -/
theorem complete_rows_iff (hlen : ts.length ≤ 256)
    (h : ∀ t ∈ ts, 0x3B ∉ t.value ∧ 4 + t.value.length < d.width) :
    Complete d.width (d.rows ts) ↔ ∀ t ∈ ts, ∃ b ∈ t.value, b ≠ 0x3A := by
  rw [rows_eq_map hlen h, complete_of_short (fun s hs => by
    obtain ⟨t, ht, rfl⟩ := List.mem_map.mp hs
    rw [length_line]
    exact (h t ht).2.le), List.forall_mem_map]
  apply forall₂_congr
  intro t _
  rw [tokens_line, List.length_cons, Nat.succ_le_succ_iff, Nat.one_le_iff_ne_zero,
    Ne, List.length_eq_zero_iff, tokens_eq_nil_iff]
  simp only [not_forall, exists_prop]

theorem size_rows (hlen : ts.length ≤ 256) (h : ∀ t ∈ ts, t.value ≠ [] ∧ 0x3A ∉ t.value ∧
    0x3B ∉ t.value ∧ 4 + t.value.length < d.width) :
    size (seen d.width (d.rows ts)) = (ts.map (fun t => 8 + t.value.length)).sum := by
  rw [rows_eq_map hlen (fun t ht => (h t ht).2.2), seen_of_dropLast (fun s hs => by
    obtain ⟨t, ht, rfl⟩ := List.mem_map.mp (List.mem_of_mem_dropLast hs)
    rw [length_line]
    exact (h t ht).2.2.2.le)]
  clear hlen
  induction ts with
  | nil => rfl
  | cons t ts ih =>
      obtain ⟨⟨hne, hcolon, -⟩, hts⟩ := List.forall_mem_cons.mp h
      rw [List.map_cons, List.map_cons, List.sum_cons, size, tokens_line,
        tokens_of_notMem hcolon hne]
      dsimp only
      rw [ih hts]

end

/-- **When no token is missing**: a driver uses no `NULL` for a frame exactly when all rows it
reads hold an id and a value and, but for the last, do not run on into the next row. -/
theorem handle_null_iff (d : Plcs) (indexCount : ℤ)
    (hindex : -2 ^ 31 ≤ indexCount ∧ indexCount < 2 ^ 31) (sensingTime : UInt32) (parsing : Mem)
    (frame : List UInt8) (h : d.IsFrame frame) :
    (∀ o, d.handle indexCount sensingTime parsing frame = some o → o.null = false) ↔
      ∀ ts, d.exported indexCount frame = some ts → Complete d.width (d.rows ts) := by
  rw [handle_eq h hindex]
  cases hts : d.exported indexCount frame with
  | none => simp
  | some ts => simp [null_read]

theorem handle_null_emptyField :
    (∀ o, plcs10.handle 1 0 (fun _ => 0) emptyField = some o → o.null = false) ↔
      ∀ ts, plcs10.exported 1 emptyField = some ts → Complete plcs10.width (plcs10.rows ts) :=
  handle_null_iff plcs10 1 (by decide) 0 (fun _ => 0) emptyField isFrame_emptyField

/-- A frame with ten fields gives no value to most ids. -/
theorem handle_null_wrong : ¬ ∀ (d : Plcs) (indexCount : ℤ) (sensingTime : UInt32) (parsing : Mem)
    (frame : List UInt8), d.IsFrame frame →
    ∀ o, d.handle indexCount sensingTime parsing frame = some o → o.null = false := by
  intro h
  have hnull := h plcs10 1 0 (fun _ => 0) emptyField isFrame_emptyField
  obtain ⟨ts, hts⟩ : ∃ ts, plcs10.exported 1 emptyField = some ts := ⟨_, rfl⟩
  rw [handle_eq isFrame_emptyField (by decide), hts] at hnull
  have hread := hnull _ rfl
  have hcomplete := null_read.mp hread
  obtain rfl := Option.some.inj hts
  rw [complete_rows_iff (by decide) (by decide)] at hcomplete
  revert hcomplete
  decide

/-- **When the message fits**: `data_buff` is not left exactly when the values, with eight bytes
each and the count, take 1024 bytes at most. -/
theorem handle_length_iff (d : Plcs) (indexCount : ℤ)
    (hindex : -2 ^ 31 ≤ indexCount ∧ indexCount < 2 ^ 31) (sensingTime : UInt32) (parsing : Mem)
    (frame : List UInt8) (h : d.IsFrame frame) :
    (∀ o, d.handle indexCount sensingTime parsing frame = some o → o.bytes.length ≤ 1024) ↔
      ∀ ts, d.exported indexCount frame = some ts → 1 + size (seen d.width (d.rows ts)) ≤ 1024 := by
  rw [handle_eq h hindex]
  cases hts : d.exported indexCount frame with
  | none => simp
  | some ts => simp [length_read, Nat.add_comm]

/-- A frame of 72 fields, all but the first two of nine digits. -/
def longFields : List UInt8 :=
  start .plcs10 ++ (List.replicate 70 (0x2C :: List.replicate 9 0x31)).flatten

theorem isFrame_longFields : plcs10.IsFrame longFields :=
  ⟨List.prefix_append _ _, by decide +kernel, by decide +kernel⟩

theorem handle_length_longFields :
    (∀ o, plcs10.handle 1 0 (fun _ => 0) longFields = some o → o.bytes.length ≤ 1024) ↔
      ∀ ts, plcs10.exported 1 longFields = some ts →
        1 + size (seen plcs10.width (plcs10.rows ts)) ≤ 1024 :=
  handle_length_iff plcs10 1 (by decide) 0 (fun _ => 0) longFields isFrame_longFields

/-- The message for that frame takes 1072 bytes. -/
theorem handle_length_wrong : ¬ ∀ (d : Plcs) (indexCount : ℤ) (sensingTime : UInt32) (parsing : Mem)
    (frame : List UInt8), d.IsFrame frame →
    ∀ o, d.handle indexCount sensingTime parsing frame = some o → o.bytes.length ≤ 1024 := by
  intro h
  have hlength := h plcs10 1 0 (fun _ => 0) longFields isFrame_longFields
  obtain ⟨ts, hts⟩ : ∃ ts, plcs10.exported 1 longFields = some ts := ⟨_, rfl⟩
  rw [handle_eq isFrame_longFields (by decide), hts] at hlength
  have hsize := hlength _ rfl
  obtain rfl := Option.some.inj hts
  rw [List.length_cons, length_read, size_rows (by decide) (by decide +kernel)] at hsize
  revert hsize
  decide +kernel

end IdcuIot.Driver.Plcs
