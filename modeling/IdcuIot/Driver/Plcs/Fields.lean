import Mathlib.Data.List.DropRight
import IdcuIot.Driver.Plcs.Receive
import IdcuIot.Lib.Decimal
import IdcuIot.Lib.StringTable

/-! # The PLCS drivers: the fields of a frame

What the parsers do with a frame.  Its fields are taken apart at the commas and copied into the
rows of `parsing`, from row 1 on; the rows that a driver exports are trimmed and become the
values of the transducers.  `strtok` passes over empty fields, and the counter of the rows is an
`unsigned char`; `tags_iff` says for which frames the rows are the fields all the same. -/

namespace IdcuIot.Driver.Plcs

open Memory Marked Tokens CString

/-! ### `trim` -/

/-- `isspace`. -/
def isSpace (b : UInt8) : Bool := b == 0x20 || (0x09 ≤ b && b ≤ 0x0D)

/-- `ltrim`: a string of blanks is left as it is. -/
def ltrim (s : List UInt8) : List UInt8 := if s.all isSpace then s else s.dropWhile isSpace

/-- `rtrim`: the first character stays. -/
def rtrim : List UInt8 → List UInt8
  | [] => []
  | b :: s => b :: s.rdropWhile isSpace

/-- `trim`. -/
def trim (s : List UInt8) : List UInt8 := rtrim (ltrim s)

theorem trim_part (s : List UInt8) : trim s <:+: s := by
  have hl : ltrim s <:+ s := by
    unfold ltrim
    split_ifs
    · exact List.suffix_rfl
    · exact List.dropWhile_suffix _
  have hr : ∀ l, rtrim l <+: l := by
    intro l
    cases l with
    | nil => exact List.prefix_rfl
    | cons b l => exact List.prefix_cons_inj b |>.mpr (List.rdropWhile_prefix _ l)
  exact (hr _).isInfix.trans hl.isInfix

theorem trim_ne_nil {s : List UInt8} (h : s ≠ []) : trim s ≠ [] := by
  have hltrim : ltrim s ≠ [] := by
    unfold ltrim
    split_ifs with hblank
    · exact h
    · rw [Ne, List.dropWhile_eq_nil_iff]
      simpa using hblank
  unfold trim
  cases hl : ltrim s with
  | nil => exact absurd hl hltrim
  | cons b l => exact List.cons_ne_nil _ _

theorem mem_trim {b : UInt8} {s : List UInt8} (hb : isSpace b = false) (hs : b ∈ s) :
    b ∈ trim s := by
  have hdrop : ∀ l : List UInt8, b ∈ l → b ∈ l.dropWhile isSpace := by
    intro l hl
    rw [← List.takeWhile_append_dropWhile (p := isSpace) (l := l), List.mem_append] at hl
    exact hl.resolve_left (fun h => by simp [List.mem_takeWhile_imp h] at hb)
  have hltrim : b ∈ ltrim s := by
    unfold ltrim
    split_ifs
    · exact hs
    · exact hdrop s hs
  unfold trim
  cases hl : ltrim s with
  | nil => simp [hl] at hltrim
  | cons c l =>
      rw [hl] at hltrim
      rcases List.mem_cons.mp hltrim with rfl | h
      · exact List.mem_cons_self
      · rw [rtrim, List.rdropWhile]
        exact List.mem_cons_of_mem c (by simpa using hdrop l.reverse (by simpa using h))

/-! ### The table of fields -/

/-- The table `parsing` and the counter `parsingCnt` for a frame; the string in `setBuffer` ends
at the first zero.  `none` when the first `strtok` returns `NULL`. -/
def fieldTable (frame : List UInt8) : Option (Mem × UInt8) :=
  match tokens 0x2C (frame.takeWhile (· ≠ 0)) with
  | [] => none
  | t :: ts => some (copyRows 32 (fun _ => 0) 1 (t :: ts))

/-- `trim( trimBuffer )` for the row `idOffset`. -/
def trimPoint (parsing : Mem) (idOffset : ℕ) : List UInt8 :=
  trim (cstr parsing (idOffset * 32) (idOffset * 32 + 32))

/-- A transducer id and the value put under it. -/
structure Tag where
  id : ℕ
  value : List UInt8
deriving DecidableEq

/-- Bytes of a text. -/
def bytesOf (t : Decimal.Text) : List UInt8 := t.map (fun c => UInt8.ofNat c.toNat)

/-- `createETRIPacketFormat`: the values of a frame of PLCS_12ex, after the index. -/
def createETRIPacketFormat (indexCount : ℤ) (parsing : Mem) (parsingCnt : UInt8) :
    Option (List Tag) :=
  let id := cstr parsing (2 * 32) (1024 * 32)
  let index : Tag := ⟨100, bytesOf (Decimal.print indexCount)⟩
  if id = [0x33, 0x36] then
    some (index :: (List.range' 10 (parsingCnt.toNat - 10)).map
      (fun idOffset => ⟨101 - 10 + idOffset, trimPoint parsing idOffset⟩))
  else if id = [0x33, 0x33] then
    some (index :: ((List.range' 10 68).filter (fun idOffset => idOffset - 10 ≠ 52)).map
      (fun idOffset => ⟨101 - 10 + idOffset, trimPoint parsing idOffset⟩))
  else none

/-- The rows exported by PLCS_10 and PLCS_12; those of PLCS_12ex depend on the frame. -/
def idOffsets : Plcs → List ℕ
  | .plcs10 => List.range' 9 63
  | .plcs12 => (List.range' 9 69).filter (fun idOffset => idOffset - 9 ≠ 53)
  | .plcs12ex => []

/-- The values that a driver takes from the table; `none` when it ignores the frame. -/
def tags (d : Plcs) (indexCount : ℤ) (parsing : Mem) (parsingCnt : UInt8) : Option (List Tag) :=
  match d with
  | .plcs10 | .plcs12 =>
      some (d.idOffsets.map (fun idOffset => ⟨100 - 9 + idOffset, trimPoint parsing idOffset⟩))
  | .plcs12ex => createETRIPacketFormat indexCount parsing parsingCnt

/-! ### Frames as lists of fields -/

/-- The fields of a frame. -/
def fields (frame : List UInt8) : List (List UInt8) := frame.splitOn 0x2C

theorem fields_eq_tokens {frame : List UInt8} (hfull : ∀ f ∈ fields frame, f ≠ []) :
    fields frame = tokens 0x2C frame :=
  (List.filter_eq_self.mpr (fun f hf => decide_eq_true (hfull f hf))).symm

/-- The `k`-th field, counted from 1; empty when there is none. -/
def field (frame : List UInt8) (k : ℕ) : List UInt8 := (fields frame).getD (k - 1) []

/-- A frame of a driver: it begins with the start word, has no carriage return, and its fields
are shorter than a row. -/
structure IsFrame (d : Plcs) (frame : List UInt8) : Prop where
  start : d.start <+: frame
  stop : 0x0D ∉ frame
  short : ∀ f ∈ fields frame, f.length < 32

/-- The fields that are not empty, up to the first zero byte of the frame. -/
def present (frame : List UInt8) : List (List UInt8) := tokens 0x2C (frame.takeWhile (· ≠ 0))

/-- The last of the fields that are not empty whose number is `k` modulo 256; empty when there
is none. -/
def numbered (frame : List UInt8) (k : ℕ) : List UInt8 :=
  (lastAt (UInt8.ofNat k) 1 (present frame)).getD []

/-- Every exported field, trimmed, is the one with its number among the fields that are not
empty. -/
def Aligned (d : Plcs) (frame : List UInt8) : Prop :=
  ∀ k ∈ d.idOffsets, trim (field frame k) = trim (numbered frame k)

/-- The ids and values that a driver takes from a frame. -/
def exported (d : Plcs) (indexCount : ℤ) (frame : List UInt8) : Option (List Tag) :=
  let tag k : Tag := ⟨91 + k, trim (numbered frame k)⟩
  let index : Tag := ⟨100, bytesOf (Decimal.print indexCount)⟩
  match d with
  | .plcs10 | .plcs12 => some (d.idOffsets.map tag)
  | .plcs12ex =>
      if numbered frame 2 = [0x33, 0x36] then
        some (index :: (List.range' 10 (((present frame).length + 1) % 256 - 10)).map tag)
      else if numbered frame 2 = [0x33, 0x33] then
        some (index :: ((List.range' 10 68).filter (fun k => k - 10 ≠ 52)).map tag)
      else none

instance (d : Plcs) (frame : List UInt8) : Decidable (d.Aligned frame) :=
  inferInstanceAs (Decidable (∀ k ∈ _, _))

section
variable {d : Plcs} {frame : List UInt8}

theorem short_of_mem_present (h : d.IsFrame frame) :
    ∀ t ∈ present frame, t.length < 32 ∧ 0 ∉ t := by
  intro t ht
  refine ⟨length_lt_of_mem_tokens (r := frame.dropWhile (· ≠ 0)) ht ?_, fun h0 => ?_⟩
  · rw [List.takeWhile_append_dropWhile]
    exact h.short
  · simpa using List.mem_takeWhile_imp ((of_mem_tokens ht).2.2 0 h0)

/-- The first field of a frame is there: its first bytes are not commas. -/
theorem present_ne_nil (h : d.IsFrame frame) : present frame ≠ [] := by
  obtain ⟨l, rfl⟩ := h.start
  obtain ⟨q, s, hs, hq, hcomma⟩ : ∃ q s, d.start = q ++ 0x2C :: s ∧ q ≠ [] ∧ 0x2C ∉ q := by
    cases d
    exacts [⟨[0x22, 0x3A, 0x22], _, rfl, by decide⟩, ⟨[0x22, 0x3A, 0x22], _, rfl, by decide⟩,
      ⟨[0x22, 0x3A, 0x22], _, rfl, by decide⟩]
  have h0 : 0 ∉ d.start := by cases d <;> decide
  rw [present, takeWhile_ne_append h0, hs, List.append_assoc, List.cons_append,
    tokens_token hcomma hq]
  exact List.cons_ne_nil _ _

theorem fieldTable_eq (h : d.IsFrame frame) :
    fieldTable frame = some (copyRows 32 (fun _ => 0) 1 (present frame)) := by
  have hne := present_ne_nil h
  unfold fieldTable
  rw [show tokens 0x2C (frame.takeWhile (· ≠ 0)) = present frame from rfl]
  cases hp : present frame with
  | nil => exact absurd hp hne
  | cons t ts => rfl

theorem lt_of_mem_idOffsets : ∀ {k : ℕ}, k ∈ d.idOffsets → 9 ≤ k ∧ k < 78 := by
  cases d <;> decide

theorem numbered_of_mem {p : List UInt8 → Prop} (hnil : p []) (h : ∀ t ∈ present frame, p t)
    (k : ℕ) : p (numbered frame k) := by
  rw [numbered]
  cases hl : lastAt (UInt8.ofNat k) 1 (present frame) with
  | none => exact hnil
  | some t => exact h t (mem_of_lastAt hl)

theorem length_numbered (h : d.IsFrame frame) (k : ℕ) : (numbered frame k).length < 32 :=
  numbered_of_mem (p := fun t => t.length < 32) (by decide)
    (fun t ht => (short_of_mem_present h t ht).1) k

theorem of_exported {indexCount : ℤ} {ts : List Tag} (hts : d.exported indexCount frame = some ts) :
    ts ≠ [] ∧ ts.length ≤ 255 ∧ ∀ t ∈ ts, t.value = bytesOf (Decimal.print indexCount) ∨
      ∃ k, t.value = trim (numbered frame k) := by
  have hmem : ∀ ks : List ℕ, ∀ t ∈ ks.map (fun k => (⟨91 + k, trim (numbered frame k)⟩ : Tag)),
      ∃ k, t.value = trim (numbered frame k) := by
    intro ks t ht
    obtain ⟨k, -, rfl⟩ := List.mem_map.mp ht
    exact ⟨k, rfl⟩
  cases d with
  | plcs10 | plcs12 =>
      obtain rfl := Option.some.inj hts
      exact ⟨fun h => absurd (List.map_eq_nil_iff.mp h) (by decide),
        by rw [List.length_map]; decide, fun t ht => Or.inr (hmem _ t ht)⟩
  | plcs12ex =>
      have hcons : ∀ ks : List ℕ, ks.length < 255 → ∀ i : Tag,
          i.value = bytesOf (Decimal.print indexCount) →
          i :: ks.map (fun k => ⟨91 + k, trim (numbered frame k)⟩) = ts →
          ts ≠ [] ∧ ts.length ≤ 255 ∧ ∀ t ∈ ts, t.value = bytesOf (Decimal.print indexCount) ∨
            ∃ k, t.value = trim (numbered frame k) := by
        rintro ks hks i hi rfl
        refine ⟨List.cons_ne_nil _ _, by rw [List.length_cons, List.length_map]; omega, ?_⟩
        intro t ht
        rcases List.mem_cons.mp ht with rfl | ht
        · exact Or.inl hi
        · exact Or.inr (hmem ks t ht)
      simp only [exported] at hts
      split_ifs at hts
      · refine hcons _ ?_ _ rfl (Option.some.inj hts)
        rw [List.length_range']
        omega
      · exact hcons _ (by decide) _ rfl (Option.some.inj hts)

theorem isString_fieldTable (h : d.IsFrame frame) {k : ℕ} (hk : k < 256) :
    IsString (copyRows 32 (fun _ => 0) 1 (present frame)).1 (k * 32) (numbered frame k) := by
  have hk' : (UInt8.ofNat k).toNat = k := UInt8.toNat_ofNat_of_lt' hk
  have hzero : IsString (fun _ => 0) ((UInt8.ofNat k).toNat * 32) [] := ⟨rfl, rfl, by simp⟩
  have hrow := isString_copyRows (short_of_mem_present h) 1 (UInt8.ofNat k) hzero (by decide)
  rwa [hk'] at hrow

theorem trimPoint_copyRows (h : d.IsFrame frame) {k : ℕ} (hk : k < 256) :
    trimPoint (copyRows 32 (fun _ => 0) 1 (present frame)).1 k = trim (numbered frame k) := by
  have hlen := length_numbered h k
  rw [trimPoint, (isString_fieldTable h hk).cstr_eq (by omega)]

/-- **The values of a frame**, in terms of its fields. -/
theorem tags_eq (h : d.IsFrame frame) (indexCount : ℤ) :
    d.tags indexCount (copyRows 32 (fun _ => 0) 1 (present frame)).1
        (copyRows 32 (fun _ => 0) 1 (present frame)).2 = d.exported indexCount frame := by
  have hcnt : (copyRows 32 (fun _ => 0) 1 (present frame)).2.toNat =
      ((present frame).length + 1) % 256 := by
    rw [copyRows_snd, UInt8.toNat_add, UInt8.toNat_ofNat']
    simp [Nat.add_comm]
  have hmap : ∀ ks : List ℕ, (∀ k ∈ ks, k < 256) → ks.map (fun k => (⟨91 + k, trimPoint
      (copyRows 32 (fun _ => 0) 1 (present frame)).1 k⟩ : Tag)) =
        ks.map (fun k => ⟨91 + k, trim (numbered frame k)⟩) :=
    fun ks hks => List.map_congr_left (fun k hk => by rw [trimPoint_copyRows h (hks k hk)])
  cases d with
  | plcs10 | plcs12 =>
      exact congrArg some (hmap _ (fun k hk => by have := lt_of_mem_idOffsets hk; omega))
  | plcs12ex =>
      have hid : cstr (copyRows 32 (fun _ => 0) 1 (present frame)).1 (2 * 32) (1024 * 32) =
          numbered frame 2 :=
        (isString_fieldTable h (by decide)).cstr_eq (by have := length_numbered h 2; omega)
      simp only [tags, createETRIPacketFormat, exported, hid, hcnt]
      split_ifs
      · refine congrArg (fun l => some (_ :: l)) (hmap _ (fun k hk => ?_))
        have := Nat.mod_lt ((present frame).length + 1) (show 0 < 256 by decide)
        have := List.mem_range'_1.mp hk
        omega
      · refine congrArg (fun l => some (_ :: l)) (hmap _ (fun k hk => ?_))
        have := List.mem_range'_1.mp (List.mem_filter.mp hk).1
        omega
      · rfl

end

/-- **When field positions are kept**: PLCS_10 and PLCS_12 put the trimmed `k`-th field under the
id `91 + k`, for all exported `k`, exactly when the frame is aligned. -/
theorem tags_iff (d : Plcs) (hd : d ≠ .plcs12ex) (frame : List UInt8) (h : d.IsFrame frame)
    (indexCount : ℤ) :
    (∃ parsing parsingCnt, fieldTable frame = some (parsing, parsingCnt) ∧
        d.tags indexCount parsing parsingCnt =
          some (d.idOffsets.map (fun k => ⟨91 + k, trim (field frame k)⟩))) ↔
      d.Aligned frame := by
  have htags : ∀ parsing parsingCnt, d.tags indexCount parsing parsingCnt =
      some (d.idOffsets.map (fun k => ⟨91 + k, trimPoint parsing k⟩)) := by
    intro parsing parsingCnt
    cases d with
    | plcs10 | plcs12 => rfl
    | plcs12ex => exact absurd rfl hd
  have hrow : ∀ k ∈ d.idOffsets, trimPoint (copyRows 32 (fun _ => 0) 1 (present frame)).1 k =
      trim (numbered frame k) :=
    fun k hk => trimPoint_copyRows h (by have := lt_of_mem_idOffsets hk; omega)
  rw [fieldTable_eq h]
  constructor
  · rintro ⟨parsing, parsingCnt, htable, heq⟩
    rw [htags, Option.some_inj, List.map_inj_left] at heq
    intro k hk
    rw [← hrow k hk, Option.some.inj htable]
    exact (congrArg Tag.value (heq k hk)).symm
  · intro haligned
    refine ⟨_, _, rfl, ?_⟩
    rw [htags, Option.some_inj, List.map_inj_left]
    intro k hk
    rw [hrow k hk, haligned k hk]

/-- Among the aligned frames are those with at most 264 fields, none of them empty, and no zero
byte. -/
theorem aligned_of_full {frame : List UInt8} (d : Plcs) (h0 : 0 ∉ frame)
    (hfull : ∀ f ∈ fields frame, f ≠ []) (hlen : (fields frame).length ≤ 264) :
    d.Aligned frame := by
  have hpresent : present frame = fields frame := by
    rw [present, takeWhile_ne_self h0, fields_eq_tokens hfull]
  intro k hk
  obtain ⟨h9, h78⟩ := lt_of_mem_idOffsets hk
  have hnum : (UInt8.ofNat k - 1).toNat = k - 1 := by
    rw [UInt8.toNat_sub, UInt8.toNat_ofNat_of_lt' (show k < 256 by omega),
      show (1 : UInt8).toNat = 1 from rfl]
    omega
  rw [numbered, hpresent, lastAt_eq_getElem? (by rw [hnum]; omega), hnum, field,
    List.getD_eq_getElem?_getD]

/-- A frame of ten fields, the third of them empty. -/
def emptyField : List UInt8 :=
  start .plcs10 ++ [0x2C, 0x2C, 0x31, 0x2C, 0x32, 0x2C, 0x33, 0x2C, 0x34, 0x2C, 0x35, 0x2C, 0x36,
    0x2C, 0x37]

theorem isFrame_emptyField : plcs10.IsFrame emptyField :=
  ⟨List.prefix_append _ _, by decide, by decide⟩

theorem tags_emptyField :
    (∃ parsing parsingCnt, fieldTable emptyField = some (parsing, parsingCnt) ∧
        plcs10.tags 1 parsing parsingCnt =
          some (plcs10.idOffsets.map (fun k => ⟨91 + k, trim (field emptyField k)⟩))) ↔
      plcs10.Aligned emptyField :=
  tags_iff plcs10 (by decide) emptyField isFrame_emptyField 1

/-- The ninth field, `6`, should go under the id 100, and the tenth does. -/
theorem tags_wrong : ¬ ∀ (d : Plcs) (frame : List UInt8), d ≠ .plcs12ex → d.IsFrame frame →
    ∀ indexCount, ∃ parsing parsingCnt, fieldTable frame = some (parsing, parsingCnt) ∧
      d.tags indexCount parsing parsingCnt =
        some (d.idOffsets.map (fun k => ⟨91 + k, trim (field frame k)⟩)) := by
  intro h
  obtain ⟨parsing, parsingCnt, htable, htags⟩ :=
    h plcs10 emptyField (by decide) isFrame_emptyField 1
  have hfirst : (fieldTable emptyField).map (fun p => trimPoint p.1 9) = some [0x37] := by decide
  rw [htable, Option.map_some, Option.some_inj] at hfirst
  have hhead := congrArg (fun l => l.map List.head?) htags
  have hnine : trimPoint parsing 9 = [0x36] := congrArg Tag.value
    (Option.some.inj (Option.some.inj hhead))
  rw [hfirst] at hnine
  revert hnine
  decide

end IdcuIot.Driver.Plcs
