import IdcuIot.Driver.Plcs.ReadBack

/-! # PLCS_12ex: the fields of a type-36 frame

A frame whose second field is `36` may have any number of fields, and all of them from the tenth
on are exported, the `k`-th under the id `91 + k`.  `type36_iff` says for which frames the message
holds them all.  The rows in which `selectTag_12ex` keeps the values with their ids are no longer
than a field without its id, and the message has 1024 bytes; no id of a message that fits is too
large for its byte. -/

namespace IdcuIot.Driver.Plcs

open Memory Tokens CString

/-- A frame of type 36 without empty fields, and without separators of the driver behind the
start word. -/
structure IsFrame36 (frame : List UInt8) : Prop extends plcs12ex.IsFrame frame where
  type : field frame 2 = [0x33, 0x36]
  full : ∀ f ∈ fields frame, f ≠ []
  plain : ∀ f ∈ (fields frame).tail, 0x3A ∉ f ∧ 0x3B ∉ f

/-- The index and the fields from the tenth on, under their ids. -/
def everyField (indexCount : ℤ) (frame : List UInt8) : List Tag :=
  ⟨100, bytesOf (Decimal.print indexCount)⟩ ::
    (List.range' 10 ((fields frame).length - 9)).map (fun k => ⟨91 + k, trim (field frame k)⟩)

/-- The message for a frame has one record for each, in order and under different ids, and as
many as it announces. -/
def ExportsEvery (indexCount : ℤ) (sensingTime : UInt32) (parsing : Mem) (frame : List UInt8) :
    Prop :=
  ∃ o data, plcs12ex.handle indexCount sensingTime parsing frame = some o ∧
    o.message = some data ∧ records data = some (everyField indexCount frame) ∧
    data.bytes.head?.map UInt8.toNat = some (everyField indexCount frame).length ∧
    ((everyField indexCount frame).map Tag.id).Nodup

/-- The fields are strings, all exported ones but the last fit in a row with their ids, and all
of them in `data_buff`. -/
def AllFit (indexCount : ℤ) (frame : List UInt8) : Prop :=
  ((fields frame).length ≤ 9 ∨ ∀ f ∈ fields frame, 0 ∉ f) ∧
    (∀ k < (fields frame).length, 10 ≤ k → (trim (field frame k)).length ≤ 27) ∧
    1 + ((everyField indexCount frame).map (fun t => 8 + t.value.length)).sum ≤ 1024

/-! ### The fields -/

section
variable {indexCount : ℤ} {frame : List UInt8}

theorem length_everyField (indexCount : ℤ) (frame : List UInt8) :
    (everyField indexCount frame).length = (fields frame).length - 9 + 1 := by
  simp [everyField]

theorem nodup_everyField (indexCount : ℤ) (frame : List UInt8) :
    ((everyField indexCount frame).map Tag.id).Nodup := by
  have hrange : (List.range' 10 ((fields frame).length - 9)).Nodup := List.nodup_range'
  have hmap : ((List.range' 10 ((fields frame).length - 9)).map (91 + ·)).Nodup :=
    hrange.map (fun _ _ => Nat.add_left_cancel)
  simp only [everyField, List.map_cons, List.map_map, List.nodup_cons]
  refine ⟨?_, hmap⟩
  simp only [List.mem_map, List.mem_range'_1, Function.comp_apply, not_exists, not_and]
  omega

theorem field_mem_tail {k : ℕ} (h10 : 10 ≤ k) (hk : k ≤ (fields frame).length) :
    field frame k ∈ (fields frame).tail := by
  rw [field, List.getD_eq_getElem _ _ (by omega), List.mem_iff_getElem]
  refine ⟨k - 2, by rw [List.length_tail]; omega, ?_⟩
  rw [List.getElem_tail]
  congr 1
  omega

/-- The fields up to the first zero byte are there, and of the field with the zero in it a part
at most. -/
theorem present_eq (h : IsFrame36 frame) : ∃ r,
    present frame = (fields frame).takeWhile (0 ∉ ·) ++ r ∧ r.length ≤ 1 ∧
      ((fields frame).takeWhile (0 ∉ ·)).length + r.length ≤ (fields frame).length := by
  rw [fields_eq_tokens h.full]
  exact tokens_takeWhile (by decide) frame

theorem present_of_strings (h : IsFrame36 frame) (h0 : ∀ f ∈ fields frame, 0 ∉ f) :
    present frame = fields frame := by
  obtain ⟨r, hpresent, -, hle⟩ := present_eq h
  rw [List.takeWhile_eq_self_iff.mpr (fun f hf => decide_eq_true (h0 f hf))] at hpresent hle
  obtain rfl : r = [] := List.length_eq_zero_iff.mp (by omega)
  rw [hpresent, List.append_nil]

theorem present_type (h : IsFrame36 frame) : (present frame)[1]? = some [0x33, 0x36] := by
  obtain ⟨r, hpresent, -, -⟩ := present_eq h
  obtain ⟨l, hl⟩ := h.start
  have hfirst : fields frame = [0x22, 0x3A, 0x22] :: (0x33 :: l).splitOn 0x2C := by
    rw [fields, ← hl]
    exact List.splitOn_append_cons_self_of_not_mem
      (show (0x2C : UInt8) ∉ [0x22, 0x3A, 0x22] by decide) (0x33 :: l)
  have htype := h.type
  rw [hpresent, hfirst]
  rw [field, hfirst] at htype
  cases hs : (0x33 :: l).splitOn 0x2C with
  | nil => exact absurd hs (List.splitOn_ne_nil _ _)
  | cons f fs =>
      rw [hs] at htype
      obtain rfl : f = [0x33, 0x36] := htype
      simp

/-- As long as the numbers of the fields do not wrap, the frame is known as one of type 36. -/
theorem exported_of_le (h : IsFrame36 frame) (hlen : (fields frame).length ≤ 254)
    (indexCount : ℤ) : plcs12ex.exported indexCount frame =
      some (⟨100, bytesOf (Decimal.print indexCount)⟩ ::
        (List.range' 10 ((present frame).length - 9)).map
          (fun k => ⟨91 + k, trim (numbered frame k)⟩)) := by
  obtain ⟨r, hpresent, -, hle⟩ := present_eq h
  have hcount : (present frame).length ≤ (fields frame).length := by
    rw [hpresent, List.length_append]
    exact hle
  have htype : numbered frame 2 = [0x33, 0x36] := by
    rw [numbered, lastAt_eq_getElem? (by omega),
      show (UInt8.ofNat 2 - 1).toNat = 1 from rfl, present_type h, Option.getD_some]
  simp only [exported, htype, if_true]
  rw [Nat.mod_eq_of_lt (by omega), show (present frame).length + 1 - 10 =
    (present frame).length - 9 by omega]

theorem numbered_of_strings (h : IsFrame36 frame) (h0 : ∀ f ∈ fields frame, 0 ∉ f)
    (hlen : (fields frame).length ≤ 254) {k : ℕ} (h10 : 10 ≤ k) (hk : k < 256) :
    numbered frame k = field frame k := by
  have hnum : (UInt8.ofNat k - 1).toNat = k - 1 := by
    rw [UInt8.toNat_sub, UInt8.toNat_ofNat_of_lt' hk, show (1 : UInt8).toNat = 1 from rfl]
    omega
  rw [numbered, present_of_strings h h0, lastAt_eq_getElem? (by omega), hnum, field,
    List.getD_eq_getElem?_getD]

theorem exported_eq (h : IsFrame36 frame) (hlen : (fields frame).length ≤ 254)
    (h0 : (fields frame).length ≤ 9 ∨ ∀ f ∈ fields frame, 0 ∉ f) (indexCount : ℤ) :
    plcs12ex.exported indexCount frame = some (everyField indexCount frame) := by
  rw [exported_of_le h hlen, everyField]
  rcases h0 with h9 | h0
  · obtain ⟨r, hpresent, -, hle⟩ := present_eq h
    have hcount : (present frame).length ≤ 9 := by
      rw [hpresent, List.length_append]
      omega
    rw [Nat.sub_eq_zero_of_le h9, Nat.sub_eq_zero_of_le hcount]
    rfl
  · rw [present_of_strings h h0]
    refine congrArg (fun l => some (_ :: l)) (List.map_congr_left (fun k hk => ?_))
    have := List.mem_range'_1.mp hk
    rw [numbered_of_strings h h0 hlen this.1 (by omega)]

/-! ### What is read back -/

theorem print_ne_nil (z : ℤ) : bytesOf (Decimal.print z) ≠ [] := by
  unfold bytesOf Decimal.print
  split_ifs <;> simp

theorem length_index (hindex : -2 ^ 31 ≤ indexCount ∧ indexCount < 2 ^ 31) :
    (bytesOf (Decimal.print indexCount)).length ≤ 11 := by
  rw [bytesOf, List.length_map]
  exact Decimal.length_print hindex.1 hindex.2

theorem plain_everyField (h : IsFrame36 frame)
    (hindex : -2 ^ 31 ≤ indexCount ∧ indexCount < 2 ^ 31)
    (h0 : (fields frame).length ≤ 9 ∨ ∀ f ∈ fields frame, 0 ∉ f) :
    Plain 32 (everyField indexCount frame) := by
  refine List.forall_mem_cons.mpr ⟨?_, List.forall_mem_map.mpr (fun k hk => ?_)⟩
  · have hbytes := bytesOf_print indexCount
    exact ⟨print_ne_nil indexCount, zero_notMem_print indexCount,
      fun hb => absurd (hbytes _ hb) (by decide), fun hb => absurd (hbytes _ hb) (by decide),
      by have := length_index hindex; dsimp only; omega⟩
  · obtain ⟨h10, hlt⟩ := List.mem_range'_1.mp hk
    have htail := field_mem_tail h10 (show k ≤ (fields frame).length by omega)
    have hmem := List.mem_of_mem_tail htail
    obtain ⟨hcolon, hsemi⟩ := h.plain _ htail
    have hpart := trim_part (field frame k)
    exact ⟨trim_ne_nil (h.full _ hmem),
      fun hb => h0.elim (by omega) (fun h0 => h0 _ hmem (hpart.subset hb)),
      fun hb => hcolon (hpart.subset hb), fun hb => hsemi (hpart.subset hb),
      by have := hpart.length_le.trans_lt (h.short _ hmem); dsimp only; omega⟩

/-- All values but the last fit in their rows when all fields but the last do. -/
theorem short_iff (hindex : -2 ^ 31 ≤ indexCount ∧ indexCount < 2 ^ 31) :
    (∀ t ∈ (everyField indexCount frame).dropLast, 4 + t.value.length < 32) ↔
      ∀ k < (fields frame).length, 10 ≤ k → (trim (field frame k)).length ≤ 27 := by
  have hfirst := length_index hindex
  rw [everyField]
  rcases Nat.lt_or_ge (fields frame).length 10 with hlt | hge
  · rw [Nat.sub_eq_zero_of_le (by omega)]
    exact iff_of_true (fun t ht => absurd ht List.not_mem_nil) (fun k hk h10 => by omega)
  · obtain ⟨m, hm⟩ := Nat.exists_eq_add_of_le hge
    rw [show (fields frame).length - 9 = m + 1 by omega, List.range'_concat, List.map_append,
      List.map_singleton, ← List.cons_append, List.dropLast_concat, List.forall_mem_cons,
      List.forall_mem_map]
    simp only [List.mem_range'_1]
    constructor
    · rintro ⟨-, hall⟩ k hk h10
      have := hall k ⟨h10, by omega⟩
      omega
    · intro hall
      refine ⟨by omega, fun k hk => ?_⟩
      have := hall k (by omega) hk.1
      omega

theorem length_of_sum (h : IsFrame36 frame)
    (hfits : 1 + ((everyField indexCount frame).map (fun t => 8 + t.value.length)).sum ≤ 1024) :
    (fields frame).length ≤ 121 := by
  have hnine : ∀ n ∈ (everyField indexCount frame).map (fun t => 8 + t.value.length), 9 ≤ n := by
    refine List.forall_mem_map.mpr (fun t ht => ?_)
    have hne : t.value ≠ [] := by
      rcases List.mem_cons.mp ht with rfl | ht
      · exact print_ne_nil indexCount
      · obtain ⟨k, hk, rfl⟩ := List.mem_map.mp ht
        obtain ⟨h10, hlt⟩ := List.mem_range'_1.mp hk
        exact trim_ne_nil (h.full _ (List.mem_of_mem_tail
          (field_mem_tail h10 (show k ≤ (fields frame).length by omega))))
    have := List.length_pos_iff.mpr hne
    omega
  have hsum := List.card_nsmul_le_sum _ 9 hnine
  rw [List.length_map, length_everyField, smul_eq_mul] at hsum
  omega

/-! ### Messages -/

/-- What is read back from the message for a frame whose values are known. -/
theorem exports_iff (h : IsFrame36 frame)
    (hindex : -2 ^ 31 ≤ indexCount ∧ indexCount < 2 ^ 31) (hlen : (fields frame).length ≤ 164)
    (h0 : (fields frame).length ≤ 9 ∨ ∀ f ∈ fields frame, 0 ∉ f) (sensingTime : UInt32)
    (parsing : Mem) :
    (∃ data, (plcs12ex.selectTag sensingTime parsing (setString (everyField indexCount frame))
        (everyField indexCount frame).length).message = some data ∧
        records data = some (everyField indexCount frame)) ↔
      (∀ k < (fields frame).length, 10 ≤ k → (trim (field frame k)).length ≤ 27) ∧
        1 + ((everyField indexCount frame).map (fun t => 8 + t.value.length)).sum ≤ 1024 := by
  have hplain := plain_everyField h hindex h0
  have hcount := length_everyField indexCount frame
  have hlen' : (everyField indexCount frame).length ≤ 255 := by omega
  have hlimit : ((everyField indexCount frame).length + 1) * 32 ≤ 1024 * 32 := by omega
  have hne : everyField indexCount frame ≠ [] := List.cons_ne_nil _ _
  rw [message_iff hne hlen', ← short_iff hindex]
  simp only [width, height]
  rw [readRows_null_iff (by decide) hlen' hplain hlimit]
  apply and_congr_right
  intro hshort
  rw [readRows_lines hlen' hplain hlimit hshort, length_records]
  have hwalk : walk (everyField indexCount frame).length
      ((everyField indexCount frame).flatMap (recordOf sensingTime)) =
        some (everyField indexCount frame) := by
    refine walk_recordOf (fun t ht => ⟨(hplain t ht).2.1, ?_, ?_⟩)
    · rcases List.mem_cons.mp ht with rfl | ht
      · exact show 100 < 256 by decide
      · obtain ⟨k, hk, rfl⟩ := List.mem_map.mp ht
        have := List.mem_range'_1.mp hk
        dsimp only
        omega
    · have := (hplain t ht).2.2.2.2
      omega
  simp only [hwalk, and_true]
  omega

/-- A frame whose fields are read back has as many values, and its fields are strings. -/
theorem of_exports (h : IsFrame36 frame)
    (hindex : -2 ^ 31 ≤ indexCount ∧ indexCount < 2 ^ 31) {sensingTime : UInt32} {parsing : Mem}
    {ts : List Tag} (hts : plcs12ex.exported indexCount frame = some ts) {data : TData}
    (hmessage : (plcs12ex.selectTag sensingTime parsing (setString ts) ts.length).message =
      some data) (hrecords : records data = some (everyField indexCount frame)) :
    (fields frame).length ≤ 164 ∧
      ((fields frame).length ≤ 9 ∨ ∀ f ∈ fields frame, 0 ∉ f) := by
  have hvalues := value_exported h.toIsFrame hindex hts
  obtain ⟨hne, hlen, -⟩ := of_exported hts
  obtain ⟨hnull, -, hwalk⟩ := (message_iff hne hlen).mp ⟨data, hmessage, hrecords⟩
  obtain ⟨hcount, hus⟩ := of_walk (by decide) (by omega)
    (fun t ht => ⟨(hvalues t ht).1, (hvalues t ht).2.trans (by decide)⟩) hnull hwalk
  have hfields : ∀ k, 10 ≤ k → k ≤ (fields frame).length → 91 + k < 256 ∧ 0 ∉ field frame k := by
    intro k h10 hk
    have hmem : (⟨91 + k, trim (field frame k)⟩ : Tag) ∈ everyField indexCount frame :=
      List.mem_cons_of_mem _ (List.mem_map_of_mem (List.mem_range'_1.mpr ⟨h10, by omega⟩))
    obtain ⟨hid, -, hbytes⟩ := hus _ hmem
    exact ⟨hid, fun hzero => (hbytes 0 (mem_trim (by decide) hzero)).1 rfl⟩
  have h164 : (fields frame).length ≤ 164 := by
    by_contra hlong
    have := (hfields 165 (by decide) (by omega)).1
    omega
  refine ⟨h164, or_iff_not_imp_left.mpr (fun h9 => ?_)⟩
  -- as many values as fields, so that the zero could only lie in the last field
  obtain ⟨r, hpresent, hr, hle⟩ := present_eq h
  rw [exported_of_le h (by omega)] at hts
  obtain rfl := Option.some.inj hts
  rw [length_everyField, List.length_cons, List.length_map, List.length_range', hpresent,
    List.length_append] at hcount
  intro f hf
  obtain ⟨i, hi, rfl⟩ := List.mem_iff_getElem.mp hf
  rcases Nat.lt_or_ge i ((fields frame).takeWhile (0 ∉ ·)).length with hlt | hge
  · rw [← (List.takeWhile_prefix _).getElem hlt]
    simpa using List.mem_takeWhile_imp (List.getElem_mem hlt)
  · have hlast := (hfields (fields frame).length (by omega) le_rfl).2
    rw [field, List.getD_eq_getElem _ _ (by omega)] at hlast
    obtain rfl : i = (fields frame).length - 1 := by omega
    exact hlast

end

/-- **Type-36 frames**: every field from the tenth on is exported under its own id exactly when
the fields are strings, fit in their rows and in the message. -/
theorem type36_iff (indexCount : ℤ) (hindex : -2 ^ 31 ≤ indexCount ∧ indexCount < 2 ^ 31)
    (sensingTime : UInt32) (parsing : Mem) (frame : List UInt8) (h : IsFrame36 frame) :
    ExportsEvery indexCount sensingTime parsing frame ↔ AllFit indexCount frame := by
  unfold ExportsEvery AllFit
  rw [handle_eq_selectTag h.toIsFrame]
  constructor
  · rintro ⟨o, data, hhandle, hmessage, hrecords, -⟩
    obtain ⟨ts, hts, rfl⟩ := Option.map_eq_some_iff.mp hhandle
    obtain ⟨hlen, h0⟩ := of_exports h hindex hts hmessage hrecords
    rw [exported_eq h (by omega) h0] at hts
    obtain rfl := Option.some.inj hts
    exact ⟨h0, (exports_iff h hindex hlen h0 sensingTime parsing).mp ⟨data, hmessage, hrecords⟩⟩
  · rintro ⟨h0, hfit⟩
    have hlen := length_of_sum h hfit.2
    obtain ⟨data, hmessage, hrecords⟩ :=
      (exports_iff h hindex (by omega) h0 sensingTime parsing).mpr hfit
    rw [exported_eq h (by omega) h0]
    exact ⟨_, data, rfl, hmessage, hrecords, count_of_records hrecords,
      nodup_everyField indexCount frame⟩

/-- A frame of eleven fields, with the given number of digits in the tenth. -/
def frame36 (n : ℕ) : List UInt8 :=
  start .plcs12ex ++ [0x36, 0x2C, 0x31, 0x2C, 0x31, 0x2C, 0x31, 0x2C, 0x31, 0x2C, 0x31, 0x2C,
    0x31, 0x2C, 0x31, 0x2C] ++ List.replicate n 0x35 ++ [0x2C, 0x31]

theorem type36_frame36 :
    ExportsEvery 1 0 (fun _ => 0) (frame36 2) ↔ AllFit 1 (frame36 2) :=
  type36_iff 1 (by decide) 0 (fun _ => 0) (frame36 2)
    ⟨⟨List.prefix_append _ _, by decide, by decide⟩, by decide, by decide, by decide⟩

/-- A field of 28 digits leaves no value to the one behind it. -/
theorem type36_wrong : ¬ ∀ (indexCount : ℤ), -2 ^ 31 ≤ indexCount ∧ indexCount < 2 ^ 31 →
    ∀ (sensingTime : UInt32) (parsing : Mem) (frame : List UInt8), IsFrame36 frame →
      ExportsEvery indexCount sensingTime parsing frame := by
  intro h
  have hframe : IsFrame36 (frame36 28) :=
    ⟨⟨List.prefix_append _ _, by decide, by decide⟩, by decide, by decide, by decide⟩
  obtain ⟨o, data, hhandle, hmessage, hrecords, -⟩ :=
    h 1 (by decide) 0 (fun _ => 0) (frame36 28) hframe
  have h0 : (fields (frame36 28)).length ≤ 9 ∨ ∀ f ∈ fields (frame36 28), 0 ∉ f :=
    Or.inr (by decide)
  rw [handle_eq_selectTag hframe.toIsFrame, exported_eq hframe (by decide) h0] at hhandle
  obtain rfl := Option.some.inj hhandle
  have hshort := ((exports_iff hframe (by decide) (by decide) h0 0 (fun _ => 0)).mp
    ⟨data, hmessage, hrecords⟩).1
  revert hshort
  decide

end IdcuIot.Driver.Plcs
