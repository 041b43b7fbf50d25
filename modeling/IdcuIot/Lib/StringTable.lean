import IdcuIot.Lib.CString

/-! # Tables of strings

`copyRows` fills the rows of a table of strings, `w` bytes apart, with a row number that is an
`unsigned char`.  A string that does not fit goes on in the next rows: `rowTexts` are the strings
then found in the rows, whatever lay in the table before (`isString_rowTexts`).  As long as the
strings are shorter than a row, each row holds the last string copied to it
(`isString_copyRows`). -/

namespace CString

open Memory

/-- Copy strings into the rows of a table, `w` bytes apart, from row `cnt` on. -/
def copyRows (w : ℕ) : Mem → UInt8 → List (List UInt8) → Mem × UInt8
  | m, cnt, [] => (m, cnt)
  | m, cnt, t :: ts => copyRows w (strcpy m (cnt.toNat * w) t) (cnt + 1) ts

theorem copyRows_snd (w : ℕ) (ts : List (List UInt8)) : ∀ (m : Mem) (cnt : UInt8),
    (copyRows w m cnt ts).2 = cnt + UInt8.ofNat ts.length := by
  induction ts with
  | nil => exact fun _ cnt => (UInt8.add_zero cnt).symm
  | cons t ts ih =>
      intro m cnt
      rw [copyRows, ih, List.length_cons, UInt8.ofNat_add, UInt8.add_assoc,
        UInt8.add_comm (UInt8.ofNat ts.length)]
      rfl

theorem copyRows_concat (w : ℕ) (ts : List (List UInt8)) (t : List UInt8) :
    ∀ (m : Mem) (cnt : UInt8), (copyRows w m cnt (ts ++ [t])).1 =
      strcpy (copyRows w m cnt ts).1 ((cnt + UInt8.ofNat ts.length).toNat * w) t := by
  intro m cnt
  rw [← copyRows_snd w ts m cnt]
  induction ts generalizing m cnt with
  | nil => rfl
  | cons t' ts ih => exact ih _ _

/-- The last of the elements that `cnt` numbers `k`. -/
def lastAt {β : Type*} (k : UInt8) : UInt8 → List β → Option β
  | _, [] => none
  | cnt, t :: ts => (lastAt k (cnt + 1) ts).or (if cnt = k then some t else none)

section
variable {β : Type*} {k cnt : UInt8} {t : β} {ts : List β}

theorem mem_of_lastAt (h : lastAt k cnt ts = some t) : t ∈ ts := by
  induction ts generalizing cnt with
  | nil => cases h
  | cons t' ts ih =>
      rw [lastAt, Option.or_eq_some_iff] at h
      rcases h with h | ⟨-, h⟩
      · exact List.mem_cons_of_mem t' (ih h)
      · split_ifs at h
        exact Option.some.inj h ▸ List.mem_cons_self

theorem toNat_sub_succ (h : cnt ≠ k) : (k - (cnt + 1)).toNat + 1 = (k - cnt).toNat := by
  have hne : cnt.toNat ≠ k.toNat := fun he => h (UInt8.toNat_inj.mp he)
  have hc := cnt.toNat_lt
  have hk := k.toNat_lt
  rw [UInt8.toNat_sub, UInt8.toNat_sub, UInt8.toNat_add, show (1 : UInt8).toNat = 1 from rfl]
  omega

theorem lastAt_eq_none (h : ts.length ≤ (k - cnt).toNat) : lastAt k cnt ts = none := by
  induction ts generalizing cnt with
  | nil => rfl
  | cons t ts ih =>
      rw [List.length_cons] at h
      have hne : cnt ≠ k := by
        rintro rfl
        rw [UInt8.sub_self] at h
        exact absurd h (by simp)
      have := toNat_sub_succ hne
      rw [lastAt, ih (by omega), if_neg hne, Option.or_none]

/-- As long as the counter does not come to `k` twice, the number counts. -/
theorem lastAt_eq_getElem? (h : ts.length ≤ 256 + (k - cnt).toNat) :
    lastAt k cnt ts = ts[(k - cnt).toNat]? := by
  induction ts generalizing cnt with
  | nil => rfl
  | cons t ts ih =>
      rw [List.length_cons] at h
      rw [lastAt]
      by_cases hk : cnt = k
      · subst hk
        rw [UInt8.sub_self, show (0 : UInt8).toNat = 0 from rfl] at h
        rw [lastAt_eq_none, Option.none_or, if_pos rfl, UInt8.sub_self]
        · rfl
        · rw [UInt8.toNat_sub, UInt8.toNat_add, show (1 : UInt8).toNat = 1 from rfl]
          have := cnt.toNat_lt
          omega
      · have hsucc := toNat_sub_succ hk
        rw [ih (by omega), if_neg hk, Option.or_none, ← hsucc, List.getElem?_cons_succ]

theorem lastAt_isSome (h : (k - cnt).toNat < ts.length) : (lastAt k cnt ts).isSome := by
  induction ts generalizing cnt with
  | nil => simp at h
  | cons t ts ih =>
      rw [List.length_cons] at h
      rw [lastAt, Option.isSome_or]
      by_cases hk : cnt = k
      · simp [hk]
      · have := toNat_sub_succ hk
        rw [ih (by omega), Bool.true_or]

end

/-! ### Strings of any length -/

/-- What the string `t`, copied to row `c`, leaves in row `k`. -/
def left (w k c : ℕ) (t : List UInt8) : Option (List UInt8) :=
  if c ≤ k ∧ (k - c) * w ≤ t.length then some ((t.drop ((k - c) * w)).take w) else none

/-- What the last string that reaches row `k` leaves there. -/
def front (w k : ℕ) : UInt8 → List (List UInt8) → Option (List UInt8)
  | _, [] => none
  | cnt, t :: ts => (front w k (cnt + 1) ts).or (left w k cnt.toNat t)

/-- The strings of rows with the given beginnings: a row that is full goes on in the next. -/
def runOn (w : ℕ) : List (List UInt8) → List (List UInt8)
  | [] => []
  | f :: fs => (if f.length < w then f else f ++ (runOn w fs).headD []) :: runOn w fs

/-- The strings in the first `n` rows. -/
def rowTexts (w n : ℕ) (ts : List (List UInt8)) : List (List UInt8) :=
  runOn w ((List.range n).map (fun k => (front w k 0 ts).getD []))

/-- Row `k` begins with `f`, which fills it or ends in it. -/
structure Holds (w : ℕ) (m : Mem) (k : ℕ) (f : List UInt8) : Prop where
  length_le : f.length ≤ w
  bytes : m.slice (k * w) f.length = f
  nonzero : 0 ∉ f
  stop : f.length < w → m (k * w + f.length) = 0

section
variable {w k c n : ℕ} {m : Mem} {s f t : List UInt8} {ts : List (List UInt8)}

theorem Holds.isString (h : Holds w m k f) (hlt : f.length < w) : IsString m (k * w) f :=
  ⟨h.bytes, h.stop hlt, h.nonzero⟩

theorem IsString.holds (h : IsString m (k * w) s) : Holds w m k (s.take w) := by
  refine ⟨List.length_take_le w s, ?_, fun h0 => h.nonzero (List.mem_of_mem_take h0), ?_⟩
  · rw [List.length_take]
    have htake := m.slice_take (k * w) (Nat.min_le_right w s.length)
    rw [h.bytes] at htake
    rw [← htake, ← List.take_eq_take_min]
  · intro hlt
    rw [List.length_take] at hlt
    rw [List.take_of_length_le (by omega)]
    exact h.stop

theorem Holds.append (h : Holds w m k f) (hw : w ≤ f.length) (hs : IsString m ((k + 1) * w) s) :
    IsString m (k * w) (f ++ s) := by
  have hlen : f.length = w := Nat.le_antisymm h.length_le hw
  rw [Nat.succ_mul, ← hlen] at hs
  refine ⟨?_, ?_, fun h0 => (List.mem_append.mp h0).elim h.nonzero hs.nonzero⟩
  · rw [List.length_append, Mem.slice_add, h.bytes]
    refine congrArg (f ++ ·) ?_
    rw [← hlen]
    exact hs.bytes
  · rw [List.length_append, ← Nat.add_assoc, ← hlen]
    exact hs.stop

theorem holds_left (h : left w k c t = some f) (h0 : 0 ∉ t) :
    Holds w (strcpy m (c * w) t) k f := by
  unfold left at h
  split_ifs at h with hreach
  obtain ⟨hc, hlen⟩ := hreach
  obtain rfl := Option.some.inj h
  have hdrop := (isString_strcpy m (c * w) h0).drop_at hlen
  rw [← Nat.add_mul, Nat.add_sub_cancel' hc] at hdrop
  exact hdrop.holds

theorem Holds.strcpy (h : Holds w m k f) (hleft : left w k c t = none) :
    Holds w (CString.strcpy m (c * w) t) k f := by
  have hreach : k < c ∨ c * w + t.length < k * w := by
    unfold left at hleft
    split_ifs at hleft with hr
    rcases Nat.lt_or_ge k c with hk | hk
    · exact Or.inl hk
    · rw [not_and, Nat.not_le, Nat.sub_mul] at hr
      have := Nat.mul_le_mul_right w hk
      have := hr hk
      omega
  have hout : ∀ x, k * w ≤ x → x < k * w + w → CString.strcpy m (c * w) t x = m x := by
    intro x h1 h2
    rcases hreach with hk | hk
    · have := Nat.mul_le_mul_right w hk
      rw [Nat.succ_mul] at this
      exact m.store_of_lt _ (by omega)
    · exact m.store_of_le (by rw [List.length_append, List.length_singleton]; omega)
  have hlen := h.length_le
  refine ⟨hlen, ?_, h.nonzero, fun hlt => ?_⟩
  · rw [Mem.slice_congr (fun j hj => hout (k * w + j) (by omega) (by omega)), h.bytes]
  · rw [hout _ (by omega) (by omega), h.stop hlt]

/-- What a row begins with when the table is filled: what the last string that reaches it leaves
there, or what was there before. -/
theorem holds_copyRows (h : ∀ t ∈ ts, 0 ∉ t) : ∀ {m : Mem} {cnt : UInt8} {r : Option (List UInt8)},
    (∀ f, r = some f → Holds w m k f) → ∀ {f}, (front w k cnt ts).or r = some f →
      Holds w (copyRows w m cnt ts).1 k f := by
  induction ts with
  | nil => exact fun hr f hf => hr f hf
  | cons t ts ih =>
      intro m cnt r hr f hf
      obtain ⟨h0, hts⟩ := List.forall_mem_cons.mp h
      rw [front, Option.or_assoc] at hf
      refine ih hts (fun f' hf' => ?_) hf
      cases hleft : left w k cnt.toNat t with
      | some g =>
          rw [hleft, Option.some_or] at hf'
          exact holds_left (hleft.trans hf') h0
      | none =>
          rw [hleft, Option.none_or] at hf'
          exact (hr f' hf').strcpy hleft

/-! ### Rows that are filled -/

theorem left_eq (h : left w k c t = some f) :
    c ≤ k ∧ (k - c) * w ≤ t.length ∧ f = (t.drop ((k - c) * w)).take w := by
  unfold left at h
  split_ifs at h with hr
  exact ⟨hr.1, hr.2, (Option.some.inj h).symm⟩

theorem exists_left {cnt : UInt8} (h : front w k cnt ts = some f) :
    ∃ i, ∃ hi : i < ts.length, left w k (cnt + UInt8.ofNat i).toNat ts[i] = some f := by
  induction ts generalizing cnt with
  | nil => cases h
  | cons t ts ih =>
      rw [front, Option.or_eq_some_iff] at h
      rcases h with h | ⟨-, h⟩
      · obtain ⟨i, hi, hleft⟩ := ih h
        refine ⟨i + 1, Nat.succ_lt_succ hi, ?_⟩
        rwa [UInt8.ofNat_add, UInt8.add_comm (UInt8.ofNat i), ← UInt8.add_assoc]
      · exact ⟨0, Nat.succ_pos _, by rwa [show UInt8.ofNat 0 = 0 from rfl, UInt8.add_zero]⟩

theorem mem_of_front {cnt : UInt8} (h : front w k cnt ts = some f) : ∀ b ∈ f, ∃ t ∈ ts, b ∈ t := by
  intro b hb
  obtain ⟨i, hi, hleft⟩ := exists_left h
  obtain ⟨-, -, rfl⟩ := left_eq hleft
  exact ⟨ts[i], List.getElem_mem hi, List.mem_of_mem_drop (List.mem_of_mem_take hb)⟩

theorem isSome_front_succ {cnt : UInt8} (h : front w k cnt ts = some f) (hw : w ≤ f.length) :
    (front w (k + 1) cnt ts).isSome := by
  induction ts generalizing cnt with
  | nil => cases h
  | cons t ts ih =>
      rw [front, Option.or_eq_some_iff] at h
      rw [front, Option.isSome_or, Bool.or_eq_true]
      rcases h with h | ⟨-, h⟩
      · exact Or.inl (ih h)
      · right
        obtain ⟨hc, hlen, rfl⟩ := left_eq h
        rw [List.length_take, List.length_drop] at hw
        have hnext : (k + 1 - cnt.toNat) * w ≤ t.length := by
          rw [Nat.sub_add_comm hc, Nat.succ_mul]
          omega
        simp only [left, if_pos (And.intro (Nat.le_succ_of_le hc) hnext), Option.isSome_some]

theorem isString_runOn {F : ℕ → Option (List UInt8)} (hF : ∀ k f, F k = some f → Holds w m k f)
    (hlt : ∀ k f, F k = some f → k < n)
    (hnext : ∀ k f, F k = some f → w ≤ f.length → (F (k + 1)).isSome) :
    ∀ (j i : ℕ), i + j = n → ∀ {f}, F i = some f →
      IsString m (i * w) ((runOn w ((List.range' i j).map (fun k => (F k).getD []))).headD []) ∧
        i * w + ((runOn w ((List.range' i j).map (fun k => (F k).getD []))).headD []).length <
          n * w := by
  intro j
  induction j with
  | zero => exact fun i hi f hf => absurd (hlt i f hf) (by omega)
  | succ j ih =>
      intro i hi f hf
      have hn := Nat.mul_le_mul_right w (hlt i f hf)
      rw [Nat.succ_mul] at hn
      simp only [List.range'_succ, List.map_cons, runOn, List.headD_cons, hf, Option.getD_some]
      split_ifs with hw
      · exact ⟨(hF i f hf).isString hw, by omega⟩
      · rw [not_lt] at hw
        obtain ⟨g, hg⟩ := Option.isSome_iff_exists.mp (hnext i f hf hw)
        obtain ⟨hs, hlen⟩ := ih (i + 1) (by omega) hg
        refine ⟨(hF i f hf).append hw hs, ?_⟩
        have hfull := (hF i f hf).length_le
        rw [Nat.succ_mul] at hlen
        rw [List.length_append]
        omega

@[simp] theorem length_runOn (w : ℕ) (fs : List (List UInt8)) :
    (runOn w fs).length = fs.length := by
  induction fs with
  | nil => rfl
  | cons f fs ih => rw [runOn, List.length_cons, List.length_cons, ih]

@[simp] theorem length_rowTexts (w n : ℕ) (ts : List (List UInt8)) :
    (rowTexts w n ts).length = n := by
  simp [rowTexts]

theorem runOn_drop (w : ℕ) (fs : List (List UInt8)) (i : ℕ) :
    (runOn w fs).drop i = runOn w (fs.drop i) := by
  induction fs generalizing i with
  | nil => simp [runOn]
  | cons f fs ih =>
      cases i with
      | zero => rfl
      | succ i => exact ih i

theorem front_lt (h : ∀ t ∈ ts, 255 * w + t.length < n * w) {cnt : UInt8}
    (hf : front w k cnt ts = some f) : k < n := by
  obtain ⟨i, hi, hleft⟩ := exists_left hf
  obtain ⟨hc, hlen, -⟩ := left_eq hleft
  have hrow := Nat.mul_le_mul_right w
    (Nat.le_of_lt_succ (cnt + UInt8.ofNat i : UInt8).toNat_lt)
  rw [Nat.sub_mul] at hlen
  have := h _ (List.getElem_mem hi)
  exact lt_of_mul_lt_mul_right (show k * w < n * w by omega) (Nat.zero_le w)

/-- **Rows of any length**: in a row that was reached lies its string, whatever lay there
before. -/
theorem isString_rowTexts (h0 : ∀ t ∈ ts, 0 ∉ t) (hlt : ∀ k f, front w k 0 ts = some f → k < n)
    (m : Mem) {k : ℕ} (hk : (front w k 0 ts).isSome) :
    IsString (copyRows w m 0 ts).1 (k * w) ((rowTexts w n ts).getD k []) ∧
      k * w + ((rowTexts w n ts).getD k []).length < n * w := by
  obtain ⟨f, hf⟩ := Option.isSome_iff_exists.mp hk
  have hrows := isString_runOn (m := (copyRows w m 0 ts).1) (F := fun k => front w k 0 ts)
    (fun k f hf => holds_copyRows h0 (r := none) (fun _ h => by cases h)
      (by rw [Option.or_none]; exact hf))
    hlt (fun _ _ => isSome_front_succ) (n - k) k (by have := hlt k f hf; omega) hf
  have hdrop : (rowTexts w n ts).getD k [] = (runOn w ((List.range' k (n - k)).map
      (fun k => (front w k 0 ts).getD []))).headD [] := by
    rw [List.getD_eq_getElem?_getD, ← List.head?_drop, List.headD_eq_head?_getD, rowTexts,
      runOn_drop, ← List.map_drop, List.range_eq_range', List.drop_range', Nat.zero_add, Nat.mul_one]
  rwa [hdrop]

theorem mem_runOn {fs : List (List UInt8)} (hs : s ∈ runOn w fs) :
    ∀ b ∈ s, ∃ f ∈ fs, b ∈ f := by
  induction fs generalizing s with
  | nil => exact absurd hs List.not_mem_nil
  | cons f fs ih =>
      intro b hb
      rcases List.mem_cons.mp hs with rfl | hs
      · split_ifs at hb with hw
        · exact ⟨f, List.mem_cons_self, hb⟩
        rcases List.mem_append.mp hb with hb | hb
        · exact ⟨f, List.mem_cons_self, hb⟩
        cases hr : runOn w fs with
        | nil =>
            rw [hr] at hb
            exact absurd hb List.not_mem_nil
        | cons s' r =>
            have hs' : s' ∈ runOn w fs := by rw [hr]; exact List.mem_cons_self
            rw [hr] at hb
            obtain ⟨g, hg, hbg⟩ := ih hs' b hb
            exact ⟨g, List.mem_cons_of_mem f hg, hbg⟩
      · obtain ⟨g, hg, hbg⟩ := ih hs b hb
        exact ⟨g, List.mem_cons_of_mem f hg, hbg⟩

theorem mem_rowTexts (hs : s ∈ rowTexts w n ts) : ∀ b ∈ s, ∃ t ∈ ts, b ∈ t := by
  intro b hb
  obtain ⟨f, hf, hbf⟩ := mem_runOn hs b hb
  obtain ⟨k, -, rfl⟩ := List.mem_map.mp hf
  cases hfront : front w k 0 ts with
  | none =>
      rw [hfront] at hbf
      exact absurd hbf List.not_mem_nil
  | some f =>
      rw [hfront] at hbf
      exact mem_of_front hfront b hbf

theorem toNat_add_ofNat (cnt : UInt8) {i : ℕ} (h : cnt.toNat + i < 256) :
    (cnt + UInt8.ofNat i).toNat = cnt.toNat + i := by
  rw [UInt8.toNat_add, UInt8.toNat_ofNat']
  omega

/-- As long as the row number does not wrap, each row begins with the string copied to it. -/
theorem front_getElem {cnt : UInt8} {i : ℕ} (hcnt : cnt.toNat + ts.length ≤ 256)
    (hi : i < ts.length) : front w (cnt.toNat + i) cnt ts = some (ts[i].take w) := by
  induction ts generalizing cnt i with
  | nil => exact absurd hi (Nat.not_lt_zero i)
  | cons t ts ih =>
      rw [List.length_cons] at hcnt hi
      cases i with
      | zero =>
          have hrest : front w cnt.toNat (cnt + 1) ts = none := by
            rw [Option.eq_none_iff_forall_ne_some]
            intro f hf
            obtain ⟨j, hj, hleft⟩ := exists_left hf
            have hc := (left_eq hleft).1
            rw [UInt8.add_assoc, UInt8.add_comm 1, ← UInt8.ofNat_one, ← UInt8.ofNat_add,
              toNat_add_ofNat cnt (by omega)] at hc
            omega
          rw [front, Nat.add_zero, hrest, Option.none_or]
          simp [left]
      | succ i =>
          have hsucc : (cnt + 1).toNat = cnt.toNat + 1 :=
            toNat_add_ofNat cnt (i := 1) (by omega)
          have hrest : front w ((cnt + 1).toNat + i) (cnt + 1) ts = some (ts[i].take w) :=
            ih (by omega) (by omega)
          rw [hsucc, Nat.add_right_comm] at hrest
          rw [front, ← Nat.add_assoc, hrest]
          rfl

theorem front_zero_getElem (h : ts.length ≤ 256) {i : ℕ} (hi : i < ts.length) :
    front w i 0 ts = some (ts[i].take w) := by
  have hfront : front w ((0 : UInt8).toNat + i) 0 ts = some (ts[i].take w) :=
    front_getElem (by simpa using h) hi
  rwa [UInt8.toNat_zero, Nat.zero_add] at hfront

theorem rowTexts_eq (h : ts.length ≤ 256) : rowTexts w (ts.length + 1) ts =
    runOn w (ts.map (fun t => t.take w) ++ [(front w ts.length 0 ts).getD []]) := by
  rw [rowTexts, List.range_succ, List.map_append, List.map_singleton]
  refine congrArg (fun l => runOn w (l ++ _)) (List.ext_getElem (by simp) (fun i h1 h2 => ?_))
  rw [List.length_map] at h2
  rw [List.getElem_map, List.getElem_map, List.getElem_range, front_zero_getElem h h2,
    Option.getD_some]

/-- At most 256 strings that, but for the last, are shorter than a row. -/
theorem isString_copyRows_getElem (h256 : ts.length ≤ 256) (h0 : ∀ t ∈ ts, 0 ∉ t)
    (hshort : ∀ t ∈ ts.dropLast, t.length < w) (m : Mem) {i : ℕ} (hi : i < ts.length) :
    IsString (copyRows w m 0 ts).1 (i * w) ts[i] := by
  by_cases hlast : i + 1 = ts.length
  · obtain ⟨ts, t, rfl⟩ := (List.eq_nil_or_concat' ts).resolve_left (by rintro rfl; cases hlast)
    rw [List.length_append, List.length_singleton] at hlast h256
    obtain rfl : i = ts.length := Nat.succ_injective hlast
    rw [copyRows_concat, toNat_add_ofNat 0 (by simpa using h256),
      UInt8.toNat_zero, Nat.zero_add, List.getElem_concat_length rfl]
    exact isString_strcpy _ _ (h0 t (List.mem_append_right _ List.mem_cons_self))
  · have hlt : ts[i].length < w := by
      refine hshort _ (List.mem_iff_getElem.mpr ⟨i, ?_, List.getElem_dropLast ..⟩)
      rw [List.length_dropLast]
      omega
    have hfront : front w i 0 ts = some ts[i] := by
      rw [front_zero_getElem h256 hi, List.take_of_length_le hlt.le]
    exact (holds_copyRows h0 (r := none) (fun _ h => by cases h)
      (by rw [Option.or_none]; exact hfront)).isString hlt

theorem isSome_front {k cnt : UInt8} (h : (lastAt k cnt ts).isSome) :
    (front w k.toNat cnt ts).isSome := by
  induction ts generalizing cnt with
  | nil => cases h
  | cons t ts ih =>
      rw [lastAt, Option.isSome_or, Bool.or_eq_true] at h
      rw [front, Option.isSome_or, Bool.or_eq_true]
      rcases h with h | h
      · exact Or.inl (ih h)
      · right
        split_ifs at h with hk
        · subst hk
          simp [left]
        · cases h

/-! ### Strings shorter than a row -/

theorem left_of_short (k c : UInt8) (ht : t.length < w) :
    left w k.toNat c.toNat t = if c = k then some t else none := by
  by_cases hc : c = k
  · subst hc
    rw [if_pos rfl, left, if_pos ⟨le_rfl, by rw [Nat.sub_self, Nat.zero_mul]; exact Nat.zero_le _⟩,
      Nat.sub_self, Nat.zero_mul, List.drop_zero, List.take_of_length_le ht.le]
  · rw [if_neg hc, left, if_neg]
    rintro ⟨hle, hlen⟩
    have hne : c.toNat ≠ k.toNat := fun he => hc (UInt8.toNat_inj.mp he)
    have hmul := Nat.mul_le_mul_right w (show 1 ≤ k.toNat - c.toNat by omega)
    omega

theorem front_of_short (h : ∀ t ∈ ts, t.length < w) (k cnt : UInt8) :
    front w k.toNat cnt ts = lastAt k cnt ts := by
  induction ts generalizing cnt with
  | nil => rfl
  | cons t ts ih =>
      obtain ⟨ht, hts⟩ := List.forall_mem_cons.mp h
      rw [front, lastAt, ih hts, left_of_short k cnt ht]

/-- **A table of short strings**: each row holds the last string copied to it. -/
theorem isString_copyRows (h : ∀ t ∈ ts, t.length < w ∧ 0 ∉ t) (cnt k : UInt8) {m : Mem}
    (hs : IsString m (k.toNat * w) s) (hlen : s.length < w) :
    IsString (copyRows w m cnt ts).1 (k.toNat * w) ((lastAt k cnt ts).getD s) := by
  have hbefore : ∀ f, some s = some f → Holds w m k.toNat f := by
    rintro f ⟨⟩
    have := hs.holds
    rwa [List.take_of_length_le hlen.le] at this
  have hfront : (front w k.toNat cnt ts).or (some s) = some ((lastAt k cnt ts).getD s) := by
    rw [front_of_short (fun t ht => (h t ht).1)]
    cases lastAt k cnt ts <;> rfl
  apply (holds_copyRows (fun t ht => (h t ht).2) hbefore hfront).isString
  cases hl : lastAt k cnt ts with
  | none => exact hlen
  | some t => exact (h t (mem_of_lastAt hl)).1

theorem runOn_of_short {fs : List (List UInt8)} (h : ∀ f ∈ fs, f.length < w) : runOn w fs = fs := by
  induction fs with
  | nil => rfl
  | cons f fs ih =>
      obtain ⟨hf, hfs⟩ := List.forall_mem_cons.mp h
      rw [runOn, if_pos hf, ih hfs]

theorem rowTexts_of_short (hw : 0 < w) (h : ∀ t ∈ ts, t.length < w) (n : ℕ) :
    rowTexts w n ts = (List.range n).map (fun k => (front w k 0 ts).getD []) := by
  apply runOn_of_short
  intro f hf
  obtain ⟨k, -, rfl⟩ := List.mem_map.mp hf
  cases hfront : front w k 0 ts with
  | none => exact hw
  | some f =>
      obtain ⟨i, hi, hleft⟩ := exists_left hfront
      obtain ⟨-, -, rfl⟩ := left_eq hleft
      rw [Option.getD_some, List.length_take, List.length_drop]
      have := h _ (List.getElem_mem hi)
      omega

/-- Strings shorter than a row, and no more of them than there are row numbers. -/
theorem rowTexts_take (hw : 0 < w) (h : ∀ t ∈ ts, t.length < w) (h256 : ts.length ≤ 256)
    (hn : ts.length ≤ n) : (rowTexts w n ts).take ts.length = ts := by
  rw [rowTexts_of_short hw h, ← List.map_take, List.take_range, Nat.min_eq_left hn]
  refine List.ext_getElem (by simp) (fun k h1 h2 => ?_)
  rw [List.getElem_map, List.getElem_range, front_zero_getElem h256 h2, Option.getD_some]
  exact List.take_of_length_le (h _ (List.getElem_mem h2)).le

end

end CString
