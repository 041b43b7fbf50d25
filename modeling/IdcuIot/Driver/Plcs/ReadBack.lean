import IdcuIot.Driver.Plcs.Message

/-! # The PLCS drivers: reading a message back

A message of PLCS_10 or PLCS_12 is walked record by record: id, time, length, value and the zero
behind it.  `records_iff` says for which values the walk gives back the ids and values that were
formatted.  One direction is a round trip through the text, its two tokenisations and the table;
for the other, every value that is read back is free of separators (`readRows_records`), and a
row that is full runs on into the next (`length_of_read`). -/

namespace IdcuIot.Driver.Plcs

open Memory Tokens CString

/-! ### Walking a message -/

/-- The ids and values of `n` records that make up the given bytes. -/
def walk : ℕ → List UInt8 → Option (List Tag)
  | 0, [] => some []
  | 0, _ :: _ => none
  | n + 1, low :: high :: _ :: _ :: _ :: _ :: len :: l =>
      -- the length counts the zero behind the value
      if len ≠ 0 ∧ l[len.toNat - 1]? = some 0 then
        (walk n (l.drop len.toNat)).map
          (⟨low.toNat + 256 * high.toNat, l.take (len.toNat - 1)⟩ :: ·)
      else none
  | _ + 1, _ => none

/-- The ids and values in a message. -/
def records (data : TData) : Option (List Tag) :=
  match data.bytes with
  | [] => none
  | count :: l => walk count.toNat l

theorem records_message (count : UInt8) (l : List UInt8) :
    records (Driver.message (count :: l)) = walk count.toNat l := by
  have hbytes : (Driver.message (count :: l)).bytes = count :: l := Mem.slice_store _ 0 _
  rw [records, hbytes]

theorem length_of_walk {n : ℕ} {l : List UInt8} {ts : List Tag} (h : walk n l = some ts) :
    ts.length = n := by
  induction n, l using walk.induct generalizing ts with
  | case1 =>
      obtain rfl := Option.some.inj h
      rfl
  | case2 => cases h
  | case3 n low high _ _ _ _ len l hlen ih =>
      rw [walk, if_pos hlen, Option.map_eq_some_iff] at h
      obtain ⟨us, hus, rfl⟩ := h
      rw [List.length_cons, ih hus]
  | case4 n low high _ _ _ _ len l hlen =>
      rw [walk, if_neg hlen] at h
      cases h
  | case5 n l hshort =>
      rw [walk.eq_4 l n hshort] at h
      cases h

theorem count_of_records {data : TData} {ts : List Tag} (h : records data = some ts) :
    data.bytes.head?.map UInt8.toNat = some ts.length := by
  unfold records at h
  cases hb : data.bytes with
  | nil => simp [hb] at h
  | cons count l =>
      rw [hb] at h
      simp [length_of_walk h]

section
variable {sensingTime : UInt32} {u v l : List UInt8}

theorem record_append (sensingTime : UInt32) (u v l : List UInt8) :
    record sensingTime u v ++ l = atoi u :: 0 :: Words.byteAt sensingTime 0 ::
      Words.byteAt sensingTime 1 :: Words.byteAt sensingTime 2 :: Words.byteAt sensingTime 3 ::
        UInt8.ofNat (v.length + 1) :: (v ++ 0 :: l) := by
  simp [record, utc, List.range_succ]

/-- The walk goes over a record whose length fits in its byte, and over no other. -/
theorem walk_record (h0 : 0 ∉ v) (n : ℕ) : walk (n + 1) (record sensingTime u v ++ l) =
    if v.length ≤ 254 then (walk n l).map (⟨(atoi u).toNat, v⟩ :: ·) else none := by
  have hlen : (UInt8.ofNat (v.length + 1)).toNat = (v.length + 1) % 256 := UInt8.toNat_ofNat'
  rw [record_append, walk]
  split_ifs with hwalk hle hle
  · rw [Nat.mod_eq_of_lt (by omega)] at hlen
    have hdrop : (v ++ 0 :: l).drop (v.length + 1) = l := by simp
    have htake : (v ++ 0 :: l).take v.length = v := List.take_left
    rw [hlen, hdrop, Nat.add_sub_cancel, htake]
    rfl
  · -- a length that has wrapped ends the value before its zero
    obtain ⟨hne, hzero⟩ := hwalk
    have hpos : (UInt8.ofNat (v.length + 1)).toNat ≠ 0 := fun h => hne (UInt8.toNat_inj.mp h)
    have hlt : (UInt8.ofNat (v.length + 1)).toNat - 1 < v.length := by omega
    rw [List.getElem?_append_left hlt, List.getElem?_eq_some_iff] at hzero
    obtain ⟨_, hzero⟩ := hzero
    exact absurd (hzero ▸ List.getElem_mem _) h0
  · exfalso
    rw [Nat.mod_eq_of_lt (by omega)] at hlen
    refine hwalk ⟨fun h => ?_, ?_⟩
    · rw [h] at hlen
      exact absurd hlen (Nat.succ_ne_zero _).symm
    · rw [hlen, Nat.add_sub_cancel]
      simp
  · rfl

theorem walk_records {us : List (List UInt8 × List UInt8)} (h0 : ∀ u ∈ us, 0 ∉ u.2) :
    ∀ {ts : List Tag}, walk us.length (us.flatMap (fun u => record sensingTime u.1 u.2)) = some ts ↔
      (∀ u ∈ us, u.2.length ≤ 254) ∧ ts = us.map (fun u => ⟨(atoi u.1).toNat, u.2⟩) := by
  induction us with
  | nil => simp [walk, eq_comm]
  | cons u us ih =>
      obtain ⟨hu, hus⟩ := List.forall_mem_cons.mp h0
      intro ts
      rw [List.length_cons, List.flatMap_cons, walk_record hu, List.forall_mem_cons]
      split_ifs with hle
      · simp only [Option.map_eq_some_iff, ih hus, List.map_cons, hle, true_and]
        constructor
        · rintro ⟨ts, ⟨hall, rfl⟩, rfl⟩
          exact ⟨hall, rfl⟩
        · rintro ⟨hall, rfl⟩
          exact ⟨_, ⟨hall, rfl⟩, rfl⟩
      · simp [hle]

end

/-! ### Values that are read have no separators -/

/-- What is written without a `NULL` are records, and their values have no separators, as long as
the strings in the rows have no semicolon. -/
theorem readRows_records {w limit : ℕ} {sensingTime : UInt32} (n : ℕ) : ∀ {i : ℕ} {m : Mem},
    (∀ j, i ≤ j → j < i + n → HasString (· ≠ 0x3B) m (j * w)) →
    (readRows w limit sensingTime n i m).null = false →
    ∃ us : List (List UInt8 × List UInt8), us.length = n ∧
      (readRows w limit sensingTime n i m).bytes =
        us.flatMap (fun u => record sensingTime u.1 u.2) ∧
      ∀ u ∈ us, ∀ b ∈ u.2, b ≠ 0 ∧ b ≠ 0x3A ∧ b ≠ 0x3B := by
  induction n with
  | zero => exact fun _ _ => ⟨[], rfl, rfl, by simp⟩
  | succ n ih =>
      intro i m hm hnull
      have hrow := hm i le_rfl (by omega)
      rw [readRows] at hnull ⊢
      dsimp only at hnull ⊢
      cases hid : (strtok 0x3A limit m (i * w)).token with
      | none =>
          rw [hid] at hnull
          cases hnull
      | some trid =>
          rw [hid] at hnull
          dsimp only at hnull ⊢
          cases hvalue : (strtok 0x3A limit (strtok 0x3A limit m (i * w)).mem
              (strtok 0x3A limit m (i * w)).next).token with
          | none =>
              rw [hvalue] at hnull
              cases hnull
          | some text =>
              rw [hvalue] at hnull
              dsimp only at hnull ⊢
              obtain ⟨us, hlen, hbytes, hus⟩ := ih (fun j h1 h2 =>
                ((hm j (by omega) (by omega)).strtok_mem _ _ _).strtok_mem _ _ _) hnull
              refine ⟨(trid, text) :: us, by rw [List.length_cons, hlen], ?_, ?_⟩
              · rw [hbytes, List.flatMap_cons]
              · refine List.forall_mem_cons.mpr ⟨fun b hb => ?_, hus⟩
                obtain ⟨hA, h0, hd⟩ := ((hrow.strtok_next 0x3A limit).of_token hvalue).2 b hb
                exact ⟨h0, hd, hA⟩

/-! ### Reading formatted values -/

section
variable {sensingTime : UInt32} {ts : List Tag}

/-- The record of a value. -/
def recordOf (sensingTime : UInt32) (t : Tag) : List UInt8 :=
  record sensingTime (bytesOf (Decimal.pad 3 t.id)) t.value

theorem atoi_pad {n : ℕ} (h : n < 1000) : atoi (bytesOf (Decimal.pad 3 n)) = UInt8.ofNat n := by
  have hmap := Decimal.chars_bytes (t := Decimal.pad 3 n)
    (fun c hc => Decimal.toNat_lt_of_isDigit (Decimal.isDigit_pad 3 n c hc))
  rw [atoi, bytesOf, hmap, Decimal.atoi_pad (by omega) (by omega), Words.ofInt_natCast]

theorem read_lines (h : ∀ t ∈ ts, t.value ≠ [] ∧ 0x3A ∉ t.value) :
    read sensingTime (ts.map line) = ⟨ts.flatMap (recordOf sensingTime), false⟩ := by
  induction ts with
  | nil => rfl
  | cons t ts ih =>
      obtain ⟨⟨hne, hcolon⟩, hts⟩ := List.forall_mem_cons.mp h
      rw [List.map_cons, read, tokens_line, tokens_of_notMem hcolon hne]
      dsimp only
      rw [ih hts]
      rfl

theorem length_recordOf (t : Tag) : (recordOf sensingTime t).length = 8 + t.value.length := by
  have := congrArg List.length
    (record_append sensingTime (bytesOf (Decimal.pad 3 t.id)) t.value [])
  rw [List.append_nil] at this
  rw [recordOf, this]
  simp only [List.length_cons, List.length_append, List.length_nil]
  omega

theorem length_records (ts : List Tag) : (ts.flatMap (recordOf sensingTime)).length =
    (ts.map (fun t => 8 + t.value.length)).sum := by
  rw [List.length_flatMap]
  exact congrArg List.sum (List.map_congr_left (fun t _ => length_recordOf t))

theorem walk_recordOf (h : ∀ t ∈ ts, 0 ∉ t.value ∧ t.id < 256 ∧ t.value.length ≤ 254) :
    walk ts.length (ts.flatMap (recordOf sensingTime)) = some ts := by
  have hback : ts = (ts.map (fun t => (bytesOf (Decimal.pad 3 t.id), t.value))).map
      (fun u => (⟨(atoi u.1).toNat, u.2⟩ : Tag)) := by
    rw [List.map_map]
    refine (List.map_id ts).symm.trans (List.map_congr_left (fun t ht => ?_))
    have hid := (h t ht).2.1
    simp only [Function.comp_apply, atoi_pad (show t.id < 1000 by omega),
      UInt8.toNat_ofNat_of_lt' hid]
    rfl
  have hwalk : walk (ts.map (fun t => (bytesOf (Decimal.pad 3 t.id), t.value))).length
      ((ts.map (fun t => (bytesOf (Decimal.pad 3 t.id), t.value))).flatMap
        (fun u => record sensingTime u.1 u.2)) = some ts :=
    (walk_records (List.forall_mem_map.mpr (fun t ht => (h t ht).1))).mpr
      ⟨List.forall_mem_map.mpr (fun t ht => (h t ht).2.2), hback⟩
  rwa [List.length_map, List.flatMap_map] at hwalk

/-- The strings in the rows of formatted values, where `x` is what the row behind them begins
with. -/
def lineTexts (w : ℕ) (x : List UInt8) (ts : List Tag) : List (List UInt8) :=
  (runOn w (ts.map (fun t => (line t).take w) ++ [x])).take ts.length

theorem take_line (t : Tag) {w : ℕ} (hw : 4 ≤ w) :
    (line t).take w = bytesOf (Decimal.pad 3 t.id) ++ 0x3A :: t.value.take (w - 4) := by
  obtain ⟨k, rfl⟩ := Nat.exists_eq_add_of_le hw
  rw [line, List.take_append,
    List.take_of_length_le (by rw [length_bytesOf_pad]; omega), length_bytesOf_pad,
    show 4 + k - 3 = k + 1 by omega, List.take_succ_cons, Nat.add_sub_cancel_left]

theorem head_lineTexts {w : ℕ} (hw : 4 ≤ w) (x : List UInt8) (t : Tag) (ts : List Tag) : ∃ r,
    (runOn w ((t :: ts).map (fun t => (line t).take w) ++ [x])).headD [] =
      bytesOf (Decimal.pad 3 t.id) ++ 0x3A :: r := by
  rw [List.map_cons, List.cons_append, runOn, List.headD_cons, take_line t hw]
  split_ifs
  · exact ⟨_, rfl⟩
  · exact ⟨_, by rw [List.append_assoc, List.cons_append]⟩

/-- A row that is full: its second token ends at the colon behind the id of the next row. -/
theorem cutAt_full {w : ℕ} (hw : 4 < w) {t : Tag} (hcolon : 0x3A ∉ t.value)
    (hlong : w ≤ 4 + t.value.length) (id : ℕ) (r : List UInt8) :
    cutAt w ((line t).take w ++ (bytesOf (Decimal.pad 3 id) ++ 0x3A :: r)) = some (w + 3) := by
  have hvalue : 0x3A ∉ t.value.take (w - 4) ++ bytesOf (Decimal.pad 3 id) := fun h =>
    (List.mem_append.mp h).elim (fun h => hcolon (List.mem_of_mem_take h)) (colon_notMem_pad id)
  have hend : firstEnd 0x3A (t.value.take (w - 4) ++ (bytesOf (Decimal.pad 3 id) ++
      0x3A :: r)) = w - 1 := by
    have := firstEnd_token (d := 0x3A) 0 (by simp [bytesOf, Decimal.pad]) hvalue r
    rw [List.replicate_zero, List.nil_append, List.append_assoc] at this
    rw [this, List.length_append, List.length_take, length_bytesOf_pad]
    omega
  have hcutAt := (cutAt_token (w := w) (n := 0) (r := t.value.take (w - 4) ++
    (bytesOf (Decimal.pad 3 id) ++ 0x3A :: r)) (by simp [bytesOf, Decimal.pad])
    (colon_notMem_pad t.id) rfl).2.2.2
  rw [List.replicate_zero, List.nil_append, hend, length_bytesOf_pad, if_neg (by omega),
    if_pos] at hcutAt
  · rw [take_line t hw.le, List.append_assoc, List.cons_append, hcutAt]
    congr 1
    omega
  · simp only [List.length_append, List.length_take, List.length_cons, length_bytesOf_pad]
    omega

/-- A value that is not the last and fills its row cuts the next one. -/
theorem short_of_complete {w : ℕ} (hw : 4 < w) {x : List UInt8}
    (h : ∀ t ∈ ts, t.value ≠ [] ∧ 0x3A ∉ t.value) (hcomplete : Complete w (lineTexts w x ts)) :
    ∀ t ∈ ts.dropLast, 4 + t.value.length < w := by
  induction ts with
  | nil => exact fun t ht => absurd ht List.not_mem_nil
  | cons t ts ih =>
      cases ts with
      | nil => exact fun t ht => absurd ht List.not_mem_nil
      | cons t' ts =>
          obtain ⟨⟨-, hcolon⟩, hts⟩ := List.forall_mem_cons.mp h
          have htexts : lineTexts w x (t :: t' :: ts) =
              (if ((line t).take w).length < w then (line t).take w else (line t).take w ++
                (runOn w ((t' :: ts).map (fun t => (line t).take w) ++ [x])).headD []) ::
                  lineTexts w x (t' :: ts) := rfl
          rw [htexts, Complete] at hcomplete
          obtain ⟨-, hcut, hrest⟩ := hcomplete
          rw [List.dropLast_cons_cons, List.forall_mem_cons]
          refine ⟨?_, ih hts hrest⟩
          by_contra hlong
          have hlen := length_line t
          obtain ⟨r, hr⟩ := head_lineTexts hw.le x t' ts
          have hnone := hcut (by simp [lineTexts, runOn])
          rw [if_neg (by rw [List.length_take]; omega), hr,
            cutAt_full hw hcolon (by omega) t'.id r] at hnone
          cases hnone

end

/-! ### The table of formatted values -/

/-- Values without separators that, formatted, reach the next row at most. -/
def Plain (w : ℕ) (ts : List Tag) : Prop :=
  ∀ t ∈ ts, t.value ≠ [] ∧ 0 ∉ t.value ∧ 0x3A ∉ t.value ∧ 0x3B ∉ t.value ∧
    4 + t.value.length < 2 * w

section
variable {w limit : ℕ} {sensingTime : UInt32} {parsing : Mem} {ts : List Tag}

theorem hasString_pieces (hw : 0 < w) (hlen : ts.length ≤ 256)
    (hvalues : ∀ t ∈ ts, 0 ∉ t.value ∧ t.value.length < 1024) {i : ℕ} (hi : i < ts.length) :
    HasString (· ≠ 0x3B) (copyRows w parsing 0 (pieces ts)).1 (i * w) := by
  have hpieces : ∀ p ∈ pieces ts, 0 ∉ p ∧ 255 * w + p.length < (255 + 1028) * w := by
    intro p hp
    obtain ⟨t, ht, hle, hzero, -⟩ := of_mem_pieces hp
    obtain ⟨h0, hlt⟩ := hvalues t ht
    exact ⟨fun h => h0 (hzero h), by rw [Nat.add_mul]; omega⟩
  have hrow := isString_rowTexts (fun p hp => (hpieces p hp).1)
    (fun _ _ => front_lt (fun p hp => (hpieces p hp).2)) parsing (isSome_front_pieces hlen hi)
  refine ⟨_, hrow.1, fun b hb => ?_⟩
  rw [List.getD_eq_getElem _ _ (by rw [length_rowTexts]; omega)] at hb
  obtain ⟨p, hp, hbp⟩ := mem_rowTexts (List.getElem_mem _) b hb
  exact fun h => (of_mem_tokens hp).2.1 (h ▸ hbp)

theorem lines_nonzero (hvalues : ∀ t ∈ ts, 0 ∉ t.value) : ∀ s ∈ ts.map line, 0 ∉ s := by
  refine List.forall_mem_map.mpr (fun t ht h0 => ?_)
  rcases List.mem_append.mp h0 with h | h
  · exact absurd (bytesOf_pad t.id 0 h).1 (by decide)
  · exact hvalues t ht (by simpa using h)

theorem isString_lineTexts (parsing : Mem) (hlen : ts.length ≤ 255) (hplain : Plain w ts) :
    ∃ x, ∀ i < ts.length,
      IsString (copyRows w parsing 0 (pieces ts)).1 (i * w) ((lineTexts w x ts).getD i []) ∧
        i * w + ((lineTexts w x ts).getD i []).length < (ts.length + 1) * w := by
  have hpieces := pieces_eq_map (fun t ht => (hplain t ht).2.2.2.1)
  have hcount : (pieces ts).length = ts.length := by rw [hpieces, List.length_map]
  have h0 : ∀ p ∈ pieces ts, 0 ∉ p := by
    rw [hpieces]
    exact lines_nonzero (fun t ht => (hplain t ht).2.1)
  have hlt : ∀ k f, front w k 0 (pieces ts) = some f → k < ts.length + 1 := by
    intro k f hf
    obtain ⟨i, hi, hleft⟩ := exists_left hf
    obtain ⟨hik, hle, -⟩ := left_eq hleft
    rw [toNat_add_ofNat 0 (by rw [UInt8.toNat_zero]; omega), UInt8.toNat_zero,
      Nat.zero_add] at hik hle
    obtain ⟨t, ht, hlen, -⟩ := of_mem_pieces (List.getElem_mem hi)
    have htwo : k - i < 2 := lt_of_mul_lt_mul_right
      (hle.trans_lt (hlen.trans_lt (hplain t ht).2.2.2.2)) (Nat.zero_le w)
    omega
  refine ⟨(front w ts.length 0 (pieces ts)).getD [], fun i hi => ?_⟩
  have hrow := isString_rowTexts h0 hlt parsing
    (isSome_front_pieces (w := w) (Nat.le_succ_of_le hlen) hi)
  have htexts : lineTexts w ((front w ts.length 0 (pieces ts)).getD []) ts =
      (rowTexts w (ts.length + 1) (pieces ts)).take ts.length := by
    rw [← hcount, rowTexts_eq (by omega), hpieces, List.map_map, List.length_map]
    rfl
  rw [htexts, List.getD_eq_getElem?_getD, List.getElem?_take_of_lt hi, ← List.getD_eq_getElem?_getD]
  exact hrow

/-- Values that, but for the last, are shorter than their rows give their records. -/
theorem readRows_lines (hlen : ts.length ≤ 255) (hplain : Plain w ts)
    (hlimit : (ts.length + 1) * w ≤ limit) (hshort : ∀ t ∈ ts.dropLast, 4 + t.value.length < w) :
    readRows w limit sensingTime ts.length 0 (copyRows w parsing 0 (pieces ts)).1 =
      ⟨ts.flatMap (recordOf sensingTime), false⟩ := by
  have hpieces := pieces_eq_map (fun t ht => (hplain t ht).2.2.2.1)
  have hlines : ∀ s ∈ (ts.map line).dropLast, s.length < w := by
    rw [← List.map_dropLast]
    refine List.forall_mem_map.mpr (fun t ht => ?_)
    rw [length_line]
    exact hshort t ht
  have hcount : (ts.map line).length = ts.length := List.length_map line
  have hrow : ∀ i < ts.length,
      IsString (copyRows w parsing 0 (pieces ts)).1 (i * w) ((ts.map line).getD i []) ∧
        i * w + ((ts.map line).getD i []).length < limit := by
    intro i hi
    have hi' : i < (ts.map line).length := by rwa [hcount]
    have hstring := isString_copyRows_getElem (by omega)
      (lines_nonzero (fun t ht => (hplain t ht).2.1)) hlines parsing hi'
    rw [List.getD_eq_getElem _ _ hi', hpieces]
    refine ⟨hstring, ?_⟩
    have hlast := (hplain _ (List.getElem_mem hi)).2.2.2.2
    have hrows := Nat.mul_le_mul_right w (show i + 2 ≤ ts.length + 1 by omega)
    rw [Nat.add_mul] at hrows
    rw [List.getElem_map, length_line]
    omega
  have hrows := readRows_eq sensingTime (i := 0) ts.length
    (fun i _ hi => hrow i (show i < ts.length by omega))
  rw [hrows, map_getD_range' hcount, seen_of_dropLast (fun s hs => (hlines s hs).le)]
  exact read_lines (fun t ht => ⟨(hplain t ht).1, (hplain t ht).2.2.1⟩)

/-- **The table of formatted values**: no token is missing exactly when the values, but for the
last, are shorter than their rows. -/
theorem readRows_null_iff (hw : 4 < w) (hlen : ts.length ≤ 255) (hplain : Plain w ts)
    (hlimit : (ts.length + 1) * w ≤ limit) :
    (readRows w limit sensingTime ts.length 0 (copyRows w parsing 0 (pieces ts)).1).null = false ↔
      ∀ t ∈ ts.dropLast, 4 + t.value.length < w := by
  constructor
  · intro hnull
    obtain ⟨x, hx⟩ := isString_lineTexts parsing hlen hplain
    have hread := readRows_eq sensingTime (i := 0) ts.length
      (fun i _ hi => (hx i (show i < ts.length by omega)).imp_right (fun h => h.trans_le hlimit))
    rw [map_getD_range' (by simp [lineTexts])] at hread
    rw [hread, null_read] at hnull
    exact short_of_complete hw (fun t ht => ⟨(hplain t ht).1, (hplain t ht).2.2.1⟩) hnull
  · intro hshort
    rw [readRows_lines hlen hplain hlimit hshort]

/-- A message that is walked is the count and the records of the rows. -/
theorem message_iff {d : Plcs} (hne : ts ≠ []) (hlen : ts.length ≤ 255) {us : List Tag} :
    (∃ data, (d.selectTag sensingTime parsing (setString ts) ts.length).message = some data ∧
        records data = some us) ↔
      (readRows d.width (d.height * d.width) sensingTime ts.length 0
          (copyRows d.width parsing 0 (pieces ts)).1).null = false ∧
        (readRows d.width (d.height * d.width) sensingTime ts.length 0
          (copyRows d.width parsing 0 (pieces ts)).1).bytes.length ≤ 1023 ∧
        walk ts.length (readRows d.width (d.height * d.width) sensingTime ts.length 0
          (copyRows d.width parsing 0 (pieces ts)).1).bytes = some us := by
  have hpieces : tokens 0x3B (setString ts) ≠ [] := pieces_ne_nil hne
  have hcount : (UInt8.ofNat ts.length).toNat = ts.length :=
    UInt8.toNat_ofNat_of_lt' (show ts.length < 256 by omega)
  have hrecords : ∀ l, records (Driver.message (UInt8.ofNat ts.length :: l)) =
      walk ts.length l := by
    intro l
    rw [records_message, hcount]
  have htable : d.pieceTable parsing (setString ts) =
      (copyRows d.width parsing 0 (pieces ts)).1 := rfl
  rw [selectTag, if_neg hpieces, htable, Written.message]
  split_ifs with hbad
  · simp only [List.length_cons] at hbad
    simp only [false_and, exists_false, false_iff, not_and]
    rcases hbad with h | h
    · simp [h]
    · omega
  · simp only [List.length_cons, not_or, Bool.not_eq_true] at hbad
    simp only [Option.some_inj, exists_eq_left', hrecords, hbad.1, true_and]
    exact ⟨fun h => ⟨by omega, h⟩, fun h => h.2⟩

/-- Values that are read back have no separators, and fit with the count in a byte. -/
theorem of_walk (hw : 0 < w) (hlen : ts.length ≤ 256)
    (hvalues : ∀ t ∈ ts, 0 ∉ t.value ∧ t.value.length < 1024)
    (hnull : (readRows w limit sensingTime ts.length 0
      (copyRows w parsing 0 (pieces ts)).1).null = false) {us : List Tag}
    (hwalk : walk ts.length (readRows w limit sensingTime ts.length 0
      (copyRows w parsing 0 (pieces ts)).1).bytes = some us) :
    us.length = ts.length ∧ ∀ u ∈ us, u.id < 256 ∧ u.value.length ≤ 254 ∧
      ∀ b ∈ u.value, b ≠ 0 ∧ b ≠ 0x3A ∧ b ≠ 0x3B := by
  obtain ⟨vs, hcount, hbytes, hvs⟩ := readRows_records ts.length (fun i _ hi =>
    hasString_pieces hw hlen hvalues (show i < ts.length by omega)) hnull
  rw [hbytes, ← hcount, walk_records (fun v hv h0 => (hvs v hv 0 h0).1 rfl)] at hwalk
  obtain ⟨hle, rfl⟩ := hwalk
  exact ⟨by rw [List.length_map, hcount],
    List.forall_mem_map.mpr (fun v hv => ⟨(atoi v.1).toNat_lt, hle v hv, hvs v hv⟩)⟩

end

/-! ### The drivers -/

/-- Values without separators whose length fits in a byte and, but for the last, in a row. -/
def Readable (ts : List Tag) : Prop :=
  (∀ t ∈ ts, 0x3A ∉ t.value ∧ 0x3B ∉ t.value ∧ t.value.length ≤ 254) ∧
    ∀ t ∈ ts.dropLast, t.value.length ≤ 251

instance (ts : List Tag) : Decidable (Readable ts) := inferInstanceAs (Decidable (_ ∧ _))

/-- The table of pieces of the 256-byte rows, and what is read from it. -/
abbrev tableOf (parsing : Mem) (ts : List Tag) : Mem := (copyRows 256 parsing 0 (pieces ts)).1

section
variable {sensingTime : UInt32} {parsing : Mem} {ts : List Tag}

theorem plain_of_values (hvalues : ∀ t ∈ ts, t.value ≠ [] ∧ 0 ∉ t.value)
    (hall : ∀ t ∈ ts, 0x3A ∉ t.value ∧ 0x3B ∉ t.value ∧ t.value.length ≤ 254) : Plain 256 ts := by
  intro t ht
  obtain ⟨hne, h0⟩ := hvalues t ht
  obtain ⟨hcolon, hsemi, hle⟩ := hall t ht
  exact ⟨hne, h0, hcolon, hsemi, by omega⟩

theorem readRows_readable (hlen : ts.length ≤ 255) (hread : Readable ts)
    (hvalues : ∀ t ∈ ts, t.value ≠ [] ∧ 0 ∉ t.value) :
    readRows 256 65536 sensingTime ts.length 0 (tableOf parsing ts) =
      ⟨ts.flatMap (recordOf sensingTime), false⟩ :=
  readRows_lines hlen (plain_of_values hvalues hread.1) (by omega)
    (fun t ht => by have := hread.2 t ht; omega)

theorem readable_of_walk (hlen : ts.length ≤ 255)
    (hvalues : ∀ t ∈ ts, t.value ≠ [] ∧ 0 ∉ t.value ∧ t.value.length < 1024)
    (hnull : (readRows 256 65536 sensingTime ts.length 0 (tableOf parsing ts)).null = false)
    (hwalk : walk ts.length
      (readRows 256 65536 sensingTime ts.length 0 (tableOf parsing ts)).bytes = some ts) :
    Readable ts := by
  obtain ⟨-, hus⟩ := of_walk (by decide) (by omega) (fun t ht => (hvalues t ht).2) hnull hwalk
  have hall : ∀ t ∈ ts, 0x3A ∉ t.value ∧ 0x3B ∉ t.value ∧ t.value.length ≤ 254 := fun t ht =>
    ⟨fun h => ((hus t ht).2.2 _ h).2.1 rfl, fun h => ((hus t ht).2.2 _ h).2.2 rfl, (hus t ht).2.1⟩
  have hplain := plain_of_values (fun t ht => ⟨(hvalues t ht).1, (hvalues t ht).2.1⟩) hall
  have hshort := (readRows_null_iff (by decide) hlen hplain (by omega)).mp hnull
  exact ⟨hall, fun t ht => by have := hshort t ht; omega⟩

end

/-- **When values are read back**: for values of the exported ids whose message fits, the walk
gives back all of them exactly when they are readable. -/
theorem records_iff (d : Plcs) (hd : d ≠ .plcs12ex) (sensingTime : UInt32) (parsing : Mem)
    (ts : List Tag) (hids : ts.map Tag.id = d.idOffsets.map (fun k => 91 + k))
    (hvalues : ∀ t ∈ ts, t.value ≠ [] ∧ 0 ∉ t.value)
    (hfits : 1 + (ts.map (fun t => 8 + t.value.length)).sum ≤ 1024) :
    (∃ data, (d.selectTag sensingTime parsing (setString ts) ts.length).message = some data ∧
        records data = some ts) ↔ Readable ts := by
  have hcount : ts.length ≤ 255 ∧ ts ≠ [] := by
    have hlen := congrArg List.length hids
    rw [List.length_map, List.length_map] at hlen
    have hbound : d.idOffsets.length ≤ 255 := by cases d <;> decide
    have hpos : d.idOffsets.length ≠ 0 := by
      cases d with
      | plcs10 | plcs12 => decide
      | plcs12ex => exact absurd rfl hd
    exact ⟨by omega, fun h => hpos (by rw [← hlen, h, List.length_nil])⟩
  have hid : ∀ t ∈ ts, t.id < 256 := by
    intro t ht
    have hmem : t.id ∈ ts.map Tag.id := List.mem_map_of_mem ht
    rw [hids] at hmem
    obtain ⟨k, hk, hkt⟩ := List.mem_map.mp hmem
    have := lt_of_mem_idOffsets hk
    omega
  have hshort : ∀ t ∈ ts, t.value.length < 1024 := by
    intro t ht
    have := List.single_le_sum (l := ts.map (fun t => 8 + t.value.length))
      (fun _ _ => Nat.zero_le _) (8 + t.value.length) (List.mem_map_of_mem ht)
    omega
  obtain ⟨hwidth, hheight⟩ : d.width = 256 ∧ d.height = 256 := by
    cases d with
    | plcs10 | plcs12 => exact ⟨rfl, rfl⟩
    | plcs12ex => exact absurd rfl hd
  rw [message_iff hcount.2 hcount.1, hwidth, hheight]
  constructor
  · rintro ⟨hnull, -, hwalk⟩
    exact readable_of_walk hcount.1
      (fun t ht => ⟨(hvalues t ht).1, (hvalues t ht).2, hshort t ht⟩) hnull hwalk
  · intro hread
    rw [readRows_readable hcount.1 hread hvalues]
    refine ⟨rfl, ?_, walk_recordOf (fun t ht => ⟨(hvalues t ht).2, hid t ht, (hread.1 t ht).2.2⟩)⟩
    rw [length_records]
    omega

/-- The values of PLCS_10: a clock time under the first id, one digit under the others. -/
def clock : List Tag :=
  (idOffsets .plcs10).map
    (fun k => ⟨91 + k, if k = 9 then [0x31, 0x32, 0x3A, 0x33, 0x30] else [0x31]⟩)

theorem records_clock :
    (∃ data, (plcs10.selectTag 0 (fun _ => 0) (setString clock) clock.length).message = some data ∧
        records data = some clock) ↔ Readable clock :=
  records_iff plcs10 (by decide) 0 (fun _ => 0) clock (by decide) (by decide) (by decide)

/-- The clock time is cut at its colon. -/
theorem records_wrong : ¬ ∀ (d : Plcs), d ≠ .plcs12ex → ∀ (sensingTime : UInt32) (parsing : Mem)
    (ts : List Tag), ts.map Tag.id = d.idOffsets.map (fun k => 91 + k) →
    (∀ t ∈ ts, t.value ≠ [] ∧ 0 ∉ t.value) →
    1 + (ts.map (fun t => 8 + t.value.length)).sum ≤ 1024 →
    ∃ data, (d.selectTag sensingTime parsing (setString ts) ts.length).message = some data ∧
      records data = some ts := by
  intro h
  have hclock := h plcs10 (by decide) 0 (fun _ => 0) clock (by decide) (by decide) (by decide)
  rw [message_iff (by decide) (by decide)] at hclock
  have hread := readable_of_walk (by decide) (by decide) hclock.1 hclock.2.2
  revert hread
  decide

end IdcuIot.Driver.Plcs
