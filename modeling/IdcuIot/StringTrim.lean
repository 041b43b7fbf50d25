import IdcuIot.Driver.Plcs.Fields
import IdcuIot.Lib.Loop

/-! # `stringTrim.c`

The two loops of `trim` over the memory, with the addresses that they look at.  `ltrim` moves a
pointer over the string, and `rtrim` goes back over a copy of it.  What they return is the `trim`
that the drivers are modelled with (`trim_total`); `properTrim_iff` says for which strings it is
the string without the blanks around it. -/

namespace IdcuIot.StringTrim

open Memory CString Driver
open Driver.Plcs (isSpace)

/-- `MAX_STR_LEN`. -/
def maxStrLen : ℕ := 4000

/-- A pointer that moves over a string, and the addresses that it has looked at. -/
structure Look where
  pointer : ℕ
  examined : List ℕ
deriving DecidableEq

/-- The pointer looks at a byte and moves on. -/
def Look.go (l : Look) (pointer : ℕ) : Look := ⟨pointer, l.examined ++ [l.pointer]⟩

/-- One round of the loop of `ltrim`; it ends at the zero and with `break`. -/
def ltrimNext (m : Mem) (l : Look) : Option Look :=
  if m l.pointer ≠ 0 ∧ isSpace (m l.pointer) = true then some (l.go (l.pointer + 1)) else none

/-- `ltrim`: the pointer that it returns; `none` when `fuel` rounds are not enough. -/
def ltrim (fuel : ℕ) (m : Mem) (s : ℕ) : Option Look :=
  (Loop.run (ltrimNext m) fuel ⟨s, []⟩).map (fun l =>
    l.go (if m l.pointer ≠ 0 then l.pointer else s))

/-- One round of the loop of `rtrim` over the array at `t`. -/
def rtrimNext (stack : Mem) (t : ℕ) (l : Look) : Option Look :=
  if l.pointer ≠ t ∧ isSpace (stack l.pointer) = true then some (l.go (l.pointer - 1)) else none

/-- What `trim` returns: the string in the array `t`.  The first addresses are those of the string
that it is called with, the others those of the array. -/
structure Trimmed where
  text : List UInt8
  examined : List ℕ
  copyExamined : List ℕ
deriving DecidableEq

/-- The end of `rtrim`, when the pointer has stopped in the copy of a string of `n` characters. -/
def cutOff (copy : Mem) (t s n : ℕ) (l : Look) : Trimmed where
  text := cstr (copy.store (l.pointer + 1) [0]) t (t + maxStrLen)
  examined := List.range' s (n + 1)
  -- at the first character the loop ends without a look
  copyExamined := if l.pointer ≠ t then l.examined ++ [l.pointer] else l.examined

/-- `rtrim` of the string at `s`, with its array at `t`; not defined when the string does not fit
into the array. -/
def rtrim (fuel : ℕ) (stack : Mem) (t : ℕ) (m : Mem) (s : ℕ) : Option Trimmed :=
  let str := cstr m s (s + maxStrLen)
  let copy := strcpy stack t str
  if str.length < maxStrLen then
    (Loop.run (rtrimNext copy t) fuel ⟨t + str.length - 1, List.range' t (str.length + 1)⟩).map
      (cutOff copy t s str.length)
  else none

/-- `trim`. -/
def trim (fuel : ℕ) (stack : Mem) (t : ℕ) (m : Mem) (s : ℕ) : Option Trimmed :=
  (ltrim fuel m s).bind (fun l => (rtrim fuel stack t m l.pointer).map (fun r =>
    { r with examined := l.examined ++ r.examined }))

/-! ### What a trim is -/

/-- The string neither starts nor ends with a blank. -/
structure Unpadded (r : List UInt8) : Prop where
  front : ∀ b ∈ r.head?, isSpace b = false
  back : ∀ b ∈ r.getLast?, isSpace b = false

/-- `r` is the longest part of `s` that neither starts nor ends with a blank. -/
structure IsTrimOf (s r : List UInt8) : Prop where
  part : r <:+: s
  unpadded : Unpadded r
  longest : ∀ r', r' <:+: s → Unpadded r' → r'.length ≤ r.length

/-- `trim` of the string `str` at `s`: it returns its longest part without blanks at the ends, it
looks at nothing but the string and its copy, and a second `trim` changes nothing. -/
def ProperTrim (stack : Mem) (t : ℕ) (m : Mem) (s : ℕ) (str : List UInt8) : Prop :=
  ∃ fuel r, trim fuel stack t m s = some r ∧
    IsTrimOf str r.text ∧
    ((∀ x ∈ r.examined, s ≤ x ∧ x ≤ s + str.length) ∧
      ∀ x ∈ r.copyExamined, t ≤ x ∧ x ≤ t + (Plcs.ltrim str).length) ∧
    ∀ stack' m' s', IsString m' s' r.text →
      ∃ fuel' r', trim fuel' stack' t m' s' = some r' ∧ r'.text = r.text

/-! ### The strings -/

section
variable {s r : List UInt8}

theorem ltrim_of_exists (h : ∃ b ∈ s, isSpace b = false) :
    ∃ b l, Plcs.ltrim s = b :: l ∧ s.dropWhile isSpace = b :: l ∧ isSpace b = false := by
  obtain ⟨c, hc, hblank⟩ := h
  have hall : s.all isSpace = false := by
    rw [List.all_eq_false]
    exact ⟨c, hc, by simp [hblank]⟩
  cases hd : s.dropWhile isSpace with
  | nil => simp [List.dropWhile_eq_nil_iff.mp hd c hc] at hblank
  | cons b l =>
      have hb : isSpace b = false := by
        have hhead := List.head?_dropWhile_not isSpace s
        rw [hd] at hhead
        simpa using hhead
      exact ⟨b, l, by simp [Plcs.ltrim, hall, hd], rfl, hb⟩

theorem rtrim_cons {b : UInt8} {l : List UInt8} (hb : isSpace b = false) :
    Plcs.rtrim (b :: l) = (b :: l).rdropWhile isSpace := by
  induction l using List.reverseRecOn with
  | nil => simp [Plcs.rtrim, List.rdropWhile_singleton, hb]
  | append_singleton l c ih =>
      cases hc : isSpace c with
      | true =>
          rw [← List.cons_append, List.rdropWhile_concat_pos _ _ _ hc, ← ih, List.cons_append,
            Plcs.rtrim, List.rdropWhile_concat_pos _ _ _ hc, Plcs.rtrim]
      | false =>
          rw [← List.cons_append, List.rdropWhile_concat_neg _ _ _ (by simp [hc]), List.cons_append,
            Plcs.rtrim, List.rdropWhile_concat_neg _ _ _ (by simp [hc])]

theorem trim_of_exists (h : ∃ b ∈ s, isSpace b = false) :
    Plcs.trim s = (s.dropWhile isSpace).rdropWhile isSpace := by
  obtain ⟨b, l, hl, hd, hb⟩ := ltrim_of_exists h
  rw [Plcs.trim, hl, hd, rtrim_cons hb]

/-- A part that does not start with a blank outlives the blanks in front. -/
theorem infix_dropWhile (h : r <:+: s) (hr : ∀ b ∈ r.head?, isSpace b = false) :
    r <:+: s.dropWhile isSpace := by
  obtain ⟨u, v, rfl⟩ := h
  cases r with
  | nil => exact List.nil_infix
  | cons b r =>
      have hb : isSpace b = false := hr b rfl
      induction u with
      | nil => simpa [hb] using (List.prefix_append (b :: r) v).isInfix
      | cons c u ih =>
          cases hc : isSpace c with
          | true => simpa [hc] using ih
          | false =>
              have hstop : (c :: u ++ b :: r ++ v).dropWhile isSpace = c :: u ++ b :: r ++ v := by
                simp [hc]
              rw [hstop]
              exact ⟨c :: u, v, rfl⟩

theorem infix_rdropWhile (h : r <:+: s) (hr : ∀ b ∈ r.getLast?, isSpace b = false) :
    r <:+: s.rdropWhile isSpace := by
  have hrev := infix_dropWhile (List.reverse_infix.mpr h) (by simpa using hr)
  rw [← List.reverse_infix, List.rdropWhile, List.reverse_reverse]
  exact hrev

theorem unpadded_trim (h : ∃ b ∈ s, isSpace b = false) : Unpadded (Plcs.trim s) := by
  obtain ⟨b, l, hl, -, hb⟩ := ltrim_of_exists h
  have htrim : Plcs.trim s = (b :: l).rdropWhile isSpace := by rw [Plcs.trim, hl, rtrim_cons hb]
  refine ⟨?_, ?_⟩
  · have hfirst : Plcs.trim s = b :: l.rdropWhile isSpace := by rw [Plcs.trim, hl, Plcs.rtrim]
    simpa [hfirst] using hb
  · intro c hc
    rw [htrim] at hc
    have hne := List.ne_nil_of_mem (List.mem_of_getLast? hc)
    have hlast := List.rdropWhile_last_not isSpace _ hne
    rw [List.getLast?_eq_some_getLast hne] at hc
    cases hc
    simpa using hlast

/-- **Trimming**: with a character that is no blank, `trim` gives the longest part. -/
theorem isTrimOf_trim (h : ∃ b ∈ s, isSpace b = false) : IsTrimOf s (Plcs.trim s) := by
  refine ⟨Plcs.trim_part s, unpadded_trim h, fun r' hpart hr' => ?_⟩
  rw [trim_of_exists h]
  exact (infix_rdropWhile (infix_dropWhile hpart hr'.front) hr'.back).length_le

/-- A string that neither starts nor ends with a blank is left as it is. -/
theorem trim_of_unpadded (hr : Unpadded r) : Plcs.trim r = r := by
  cases r with
  | nil => rfl
  | cons b l =>
      have hb : isSpace b = false := hr.front b rfl
      have hfront : Plcs.ltrim (b :: l) = b :: l := by simp [Plcs.ltrim, hb]
      rw [Plcs.trim, hfront, rtrim_cons hb, List.rdropWhile_eq_self_iff]
      intro hne
      simpa using hr.back _ (List.getLast?_eq_some_getLast hne)

theorem trim_blank (hs : s ≠ []) (h : ∀ b ∈ s, isSpace b = true) :
    ∃ b, isSpace b = true ∧ Plcs.trim s = [b] := by
  cases s with
  | nil => exact absurd rfl hs
  | cons b l =>
      have hall : (b :: l).all isSpace = true := List.all_eq_true.mpr h
      have hl : l.rdropWhile isSpace = [] :=
        List.rdropWhile_eq_nil_iff.mpr (fun c hc => h c (List.mem_cons_of_mem b hc))
      exact ⟨b, h b List.mem_cons_self, by rw [Plcs.trim, Plcs.ltrim, if_pos hall, Plcs.rtrim, hl]⟩

end

/-! ### The loops -/

section
variable {m stack : Mem} {s t : ℕ} {str : List UInt8} {seen : List ℕ}

theorem examined_step {xs : List ℕ} {A B : ℕ → Prop} {now : ℕ}
    (h : ∀ x ∈ xs, x ∈ seen ++ [now] ∨ A x) (hA : ∀ x, A x → B x) (hnow : B now) :
    ∀ x ∈ xs, x ∈ seen ∨ B x := by
  intro x hx
  rcases h x hx with hold | hnew
  · rcases List.mem_append.mp hold with hold | hlast
    · exact Or.inl hold
    · rw [List.mem_singleton.mp hlast]
      exact Or.inr hnow
  · exact Or.inr (hA x hnew)

/-- The pointer of `ltrim` goes over the blanks and stops at the next character or at the zero. -/
theorem ltrim_steps (hs : IsString m s str) (seen : List ℕ) :
    ∃ l, Loop.Steps (ltrimNext m) (str.takeWhile isSpace).length ⟨s, seen⟩ l ∧
      l.pointer = s + (str.takeWhile isSpace).length ∧
      (∀ x ∈ l.examined, x ∈ seen ∨ s ≤ x ∧ x < l.pointer) := by
  induction str generalizing s seen with
  | nil => exact ⟨⟨s, seen⟩, rfl, rfl, fun x hx => Or.inl hx⟩
  | cons b str ih =>
      cases hb : isSpace b with
      | false => exact ⟨⟨s, seen⟩, by simp [hb, Loop.Steps], by simp [hb], fun x hx => Or.inl hx⟩
      | true =>
          have hbyte : m s = b := Mem.eq_getElem_of_slice hs.bytes (k := 0) (by simp)
          have hrest : IsString m (s + 1) str := hs.drop (s := [b])
          have hne : b ≠ 0 := fun h => hs.nonzero (h ▸ List.mem_cons_self)
          have hround : ltrimNext m ⟨s, seen⟩ = some ⟨s + 1, seen ++ [s]⟩ := by
            simp [ltrimNext, hbyte, hne, hb, Look.go]
          obtain ⟨l, hsteps, hpointer, hseen⟩ := ih hrest (seen ++ [s])
          refine ⟨l, ?_, ?_, ?_⟩
          · rw [List.takeWhile_cons_of_pos hb]
            exact ⟨_, hround, hsteps⟩
          · rw [hpointer, List.takeWhile_cons_of_pos hb, List.length_cons]
            omega
          · exact examined_step hseen (fun x hx => ⟨by omega, hx.2⟩) ⟨le_rfl, by omega⟩

/-- The pointer of `rtrim` goes back over the blanks, at most to the first character. -/
theorem rtrim_steps {copy : Mem} {l : List UInt8} (hl : copy.slice (t + 1) l.length = l)
    (seen : List ℕ) :
    ∃ n e, n ≤ l.length ∧ Loop.Steps (rtrimNext copy t) n ⟨t + l.length, seen⟩ e ∧
      rtrimNext copy t e = none ∧ e.pointer = t + (l.rdropWhile isSpace).length ∧
      (∀ x ∈ e.examined, x ∈ seen ∨ t ≤ x ∧ x ≤ t + l.length) := by
  induction l using List.reverseRecOn generalizing seen with
  | nil => exact ⟨0, ⟨t, seen⟩, by simp, rfl, by simp [rtrimNext], by simp, fun x hx => Or.inl hx⟩
  | append_singleton l c ih =>
      rw [List.length_append, List.length_singleton, Mem.slice_add] at hl
      obtain ⟨hfront, hlast⟩ := List.append_inj hl (copy.length_slice _ _)
      have hbyte : copy (t + (l.length + 1)) = c := by
        have hread := Mem.eq_getElem_of_slice hlast (k := 0) (by simp)
        rwa [show t + (l.length + 1) = t + 1 + l.length + 0 by omega]
      rw [List.length_append, List.length_singleton]
      cases hc : isSpace c with
      | false =>
          refine ⟨0, ⟨t + (l.length + 1), seen⟩, by omega, rfl, ?_, ?_, fun x hx => Or.inl hx⟩
          · simp [rtrimNext, hbyte, hc]
          · rw [List.rdropWhile_concat_neg _ _ _ (by simp [hc]), List.length_append,
              List.length_singleton]
      | true =>
          obtain ⟨n, e, hn, hsteps, hend, hpointer, hseen⟩ :=
            ih hfront (seen ++ [t + (l.length + 1)])
          have hround : rtrimNext copy t ⟨t + (l.length + 1), seen⟩ =
              some ⟨t + l.length, seen ++ [t + (l.length + 1)]⟩ := by
            simp only [rtrimNext, hbyte, hc, Look.go, and_true]
            rw [if_pos (by omega), Nat.add_sub_assoc (by omega), Nat.add_sub_cancel]
          refine ⟨n + 1, e, by omega, ⟨_, hround, hsteps⟩, hend, ?_, ?_⟩
          · rw [List.rdropWhile_concat_pos _ _ _ hc, hpointer]
          · exact examined_step hseen (fun x hx => ⟨hx.1, by omega⟩) ⟨by omega, le_rfl⟩

/-- The loop of `ltrim` ends at the zero or at a character that is no blank. -/
theorem ltrimNext_of_isString {e : Look} (h : IsString m e.pointer (str.dropWhile isSpace)) :
    ltrimNext m e = none ∧ (m e.pointer = 0 ↔ str.dropWhile isSpace = []) := by
  cases hd : str.dropWhile isSpace with
  | nil =>
      rw [hd] at h
      have hzero : m e.pointer = 0 := h.stop
      exact ⟨by simp [ltrimNext, hzero], by simp [hzero]⟩
  | cons b rest =>
      rw [hd] at h
      have hbyte : m e.pointer = b := Mem.eq_getElem_of_slice h.bytes (k := 0) (by simp)
      have hne : b ≠ 0 := fun hb => h.nonzero (hb ▸ List.mem_cons_self)
      have hb : isSpace b = false := by
        have hhead := List.head?_dropWhile_not isSpace str
        rw [hd] at hhead
        simpa using hhead
      exact ⟨by simp [ltrimNext, hbyte, hb], by simp [hbyte, hne]⟩

/-- `ltrim` ends, and what it returns points to the string without the blanks in front. -/
theorem ltrim_total (hs : IsString m s str) {fuel : ℕ} (hfuel : str.length < fuel) :
    ∃ l, ltrim fuel m s = some l ∧ IsString m l.pointer (Plcs.ltrim str) ∧
      l.pointer + (Plcs.ltrim str).length = s + str.length ∧
      ∀ x ∈ l.examined, s ≤ x ∧ x ≤ s + str.length := by
  obtain ⟨e, hsteps, hpointer, hseen⟩ := ltrim_steps hs []
  have hfront : (str.takeWhile isSpace).length ≤ str.length :=
    (List.takeWhile_prefix isSpace).length_le
  have hrest : IsString m e.pointer (str.dropWhile isSpace) := by
    rw [hpointer]
    have happend : IsString m s (str.takeWhile isSpace ++ str.dropWhile isSpace) := by
      rwa [List.takeWhile_append_dropWhile]
    exact happend.drop
  have hlength : (str.takeWhile isSpace).length + (str.dropWhile isSpace).length = str.length := by
    rw [← List.length_append, List.takeWhile_append_dropWhile]
  have hend := ltrimNext_of_isString hrest
  have hrun : Loop.run (ltrimNext m) fuel ⟨s, []⟩ = some e :=
    Loop.run_eq_some_iff.mpr ⟨_, by omega, hsteps, hend.1⟩
  have hexamined : ∀ p, ∀ x ∈ (e.go p).examined, s ≤ x ∧ x ≤ s + str.length := by
    intro p x hx
    rcases List.mem_append.mp hx with hx | hx
    · rcases hseen x hx with hx | hx
      · cases hx
      · omega
    · rw [List.mem_singleton] at hx
      omega
  by_cases hblank : str.dropWhile isSpace = []
  · have hall : str.all isSpace = true := by
      simpa [List.dropWhile_eq_nil_iff] using hblank
    have hsame : Plcs.ltrim str = str := by rw [Plcs.ltrim, if_pos hall]
    refine ⟨e.go s, ?_, ?_, ?_, hexamined s⟩
    · simp [ltrim, hrun, hend.2.mpr hblank]
    · rwa [hsame]
    · rw [hsame]
      rfl
  · have hall : ¬ str.all isSpace = true := by
      simpa [List.dropWhile_eq_nil_iff] using hblank
    have hdrop : Plcs.ltrim str = str.dropWhile isSpace := by rw [Plcs.ltrim, if_neg hall]
    refine ⟨e.go e.pointer, ?_, ?_, ?_, hexamined e.pointer⟩
    · simp [ltrim, hrun, hend.2, hblank]
    · rwa [hdrop]
    · rw [hdrop]
      simp only [Look.go]
      omega

/-- A zero written behind a beginning of the string leaves that beginning. -/
theorem isString_take (hs : IsString m s str) {k : ℕ} (hk : k ≤ str.length) :
    IsString (m.store (s + k) [0]) s (str.take k) := by
  rcases Nat.lt_or_eq_of_le hk with hlt | rfl
  · exact hs.cut_at hlt
  · rw [Mem.store_of_slice (by simp [Mem.slice, hs.stop]), List.take_length]
    exact hs

/-- The text that is left in the array when the zero has been written behind the pointer. -/
theorem text_cutOff {copy : Mem} {b : UInt8} {l : List UInt8} {e : Look} {n : ℕ}
    (hcopy : IsString copy t (b :: l)) (hlen : l.length + 1 < maxStrLen)
    (hpointer : e.pointer = t + (l.rdropWhile isSpace).length) :
    (cutOff copy t s n e).text = Plcs.rtrim (b :: l) := by
  have hprefix := List.rdropWhile_prefix isSpace l
  have hle := hprefix.length_le
  have hcut := isString_take (k := (l.rdropWhile isSpace).length + 1) hcopy (by
    rw [List.length_cons]
    omega)
  rw [List.take_succ_cons, ← List.prefix_iff_eq_take.mp hprefix, ← Nat.add_assoc, ← hpointer]
    at hcut
  exact hcut.cstr_eq (by rw [List.length_cons]; omega)

/-- `rtrim` looks at its array where the loop does, and where the pointer has stopped. -/
theorem of_mem_copyExamined {copy : Mem} {n x : ℕ} {e : Look}
    (hx : x ∈ (cutOff copy t s n e).copyExamined) : x ∈ e.examined ∨ x = e.pointer := by
  unfold cutOff at hx
  dsimp only at hx
  split_ifs at hx
  · simpa using hx
  · exact Or.inl hx

/-- `rtrim` ends, and the string in its array is the one without the blanks behind it. -/
theorem rtrim_total (hs : IsString m s str) (hne : str ≠ []) (hlen : str.length < maxStrLen)
    {fuel : ℕ} (hfuel : str.length ≤ fuel) :
    ∃ r, rtrim fuel stack t m s = some r ∧ r.text = Plcs.rtrim str ∧
      (∀ x ∈ r.examined, s ≤ x ∧ x ≤ s + str.length) ∧
      ∀ x ∈ r.copyExamined, t ≤ x ∧ x ≤ t + str.length := by
  have hstr : cstr m s (s + maxStrLen) = str := hs.cstr_eq (by omega)
  cases str with
  | nil => exact absurd rfl hne
  | cons b l =>
      have hcopy : IsString (strcpy stack t (b :: l)) t (b :: l) :=
        isString_strcpy stack t hs.nonzero
      have hrest : (strcpy stack t (b :: l)).slice (t + 1) l.length = l :=
        (hcopy.drop (s := [b])).bytes
      obtain ⟨n, e, hn, hsteps, hend, hpointer, hseen⟩ :=
        rtrim_steps hrest (List.range' t ((b :: l).length + 1))
      have hle := (List.rdropWhile_prefix isSpace l).length_le
      rw [List.length_cons] at hfuel hlen
      have hrun : Loop.run (rtrimNext (strcpy stack t (b :: l)) t) fuel
          ⟨t + (b :: l).length - 1, List.range' t ((b :: l).length + 1)⟩ = some e := by
        rw [List.length_cons, ← Nat.add_assoc, Nat.add_sub_cancel]
        exact Loop.run_eq_some_iff.mpr ⟨n, by omega, hsteps, hend⟩
      refine ⟨cutOff (strcpy stack t (b :: l)) t s (b :: l).length e, ?_,
        text_cutOff hcopy hlen hpointer, ?_, ?_⟩
      · simp only [rtrim, hstr]
        rw [if_pos (by rwa [List.length_cons]), hrun, Option.map_some]
      · intro x hx
        rw [cutOff, List.mem_range'_1] at hx
        omega
      · intro x hx
        rw [List.length_cons]
        rcases of_mem_copyExamined hx with hx | rfl
        · rcases hseen x hx with hx | hx
          · rw [List.mem_range'_1, List.length_cons] at hx
            omega
          · omega
        · omega

theorem trim_total (hs : IsString m s str) (hne : str ≠ []) (hlen : str.length < maxStrLen)
    {fuel : ℕ} (hfuel : str.length < fuel) :
    ∃ r, trim fuel stack t m s = some r ∧ r.text = Plcs.trim str ∧
      (∀ x ∈ r.examined, s ≤ x ∧ x ≤ s + str.length) ∧
      ∀ x ∈ r.copyExamined, t ≤ x ∧ x ≤ t + (Plcs.ltrim str).length := by
  obtain ⟨l, hl, hleft, hsum, hexamined⟩ := ltrim_total hs hfuel
  have hleftNe : Plcs.ltrim str ≠ [] := by
    intro h
    have hnil := Plcs.trim_ne_nil hne
    rw [Plcs.trim, h] at hnil
    exact hnil rfl
  have hle : (Plcs.ltrim str).length ≤ str.length := by
    unfold Plcs.ltrim
    split_ifs
    · exact le_rfl
    · exact (List.dropWhile_suffix _).length_le
  obtain ⟨r, hr, htext, hr1, hr2⟩ :=
    @rtrim_total m stack _ t _ hleft hleftNe (by omega) fuel (by omega)
  refine ⟨{ r with examined := l.examined ++ r.examined }, by simp [trim, hl, hr], htext, ?_, hr2⟩
  intro x hx
  rcases List.mem_append.mp hx with hx | hx
  · exact hexamined x hx
  · have := hr1 x hx
    omega

theorem ltrim_unique {fuel fuel' : ℕ} {l l' : Look} (h : ltrim fuel m s = some l)
    (h' : ltrim fuel' m s = some l') : l = l' := by
  obtain ⟨e, he, rfl⟩ := Option.map_eq_some_iff.mp h
  obtain ⟨e', he', rfl⟩ := Option.map_eq_some_iff.mp h'
  rw [Loop.run_unique he he']

theorem rtrim_unique {fuel fuel' : ℕ} {r r' : Trimmed} (h : rtrim fuel stack t m s = some r)
    (h' : rtrim fuel' stack t m s = some r') : r = r' := by
  unfold rtrim at h h'
  dsimp only at h h'
  split_ifs at h h'
  obtain ⟨e, he, rfl⟩ := Option.map_eq_some_iff.mp h
  obtain ⟨e', he', rfl⟩ := Option.map_eq_some_iff.mp h'
  rw [Loop.run_unique he he']

theorem trim_unique {fuel fuel' : ℕ} {r r' : Trimmed} (h : trim fuel stack t m s = some r)
    (h' : trim fuel' stack t m s = some r') : r = r' := by
  obtain ⟨l, hl, h⟩ := Option.bind_eq_some_iff.mp h
  obtain ⟨l', hl', h'⟩ := Option.bind_eq_some_iff.mp h'
  cases ltrim_unique hl hl'
  obtain ⟨e, he, rfl⟩ := Option.map_eq_some_iff.mp h
  obtain ⟨e', he', rfl⟩ := Option.map_eq_some_iff.mp h'
  rw [rtrim_unique he he']

theorem mem_examined_of_steps {copy : Mem} {n x : ℕ} {l e : Look}
    (h : Loop.Steps (rtrimNext copy t) n l e) (hx : x ∈ l.examined) : x ∈ e.examined := by
  induction n generalizing l with
  | zero =>
      cases h
      exact hx
  | succ n ih =>
      obtain ⟨l', hround, h⟩ := h
      unfold rtrimNext at hround
      split_ifs at hround
      cases hround
      exact ih h (List.mem_append_left _ hx)

/-- The first byte that `rtrim` looks at, unless it is the first one of its array. -/
theorem mem_copyExamined {copy : Mem} {fuel n : ℕ} {l e : Look}
    (h : Loop.run (rtrimNext copy t) fuel l = some e) (hl : l.pointer ≠ t) :
    l.pointer ∈ (cutOff copy t s n e).copyExamined := by
  obtain ⟨k, -, hsteps, -⟩ := Loop.run_eq_some_iff.mp h
  have hmem : ∀ x ∈ e.examined, x ∈ (cutOff copy t s n e).copyExamined := by
    intro x hx
    unfold cutOff
    split_ifs
    · exact List.mem_append_left _ hx
    · exact hx
  cases k with
  | zero =>
      cases hsteps
      simp [cutOff, hl]
  | succ k =>
      obtain ⟨l', hround, hsteps⟩ := hsteps
      unfold rtrimNext at hround
      split_ifs at hround
      cases hround
      exact hmem _ (mem_examined_of_steps hsteps (by simp [Look.go]))

theorem mem_copyExamined_of_nil (ht : 0 < t) (hs : IsString m s []) {fuel : ℕ} {r : Trimmed}
    (h : trim fuel stack t m s = some r) : t - 1 ∈ r.copyExamined := by
  obtain ⟨l, hl, h⟩ := Option.bind_eq_some_iff.mp h
  obtain ⟨r, hr, rfl⟩ := Option.map_eq_some_iff.mp h
  obtain ⟨l', hl', hleft, -, -⟩ := ltrim_total hs (Nat.lt_succ_self _)
  cases ltrim_unique hl hl'
  have hnil : IsString m l.pointer [] := hleft
  have hpos : ([] : List UInt8).length < maxStrLen := by decide
  have hstr : cstr m l.pointer (l.pointer + maxStrLen) = [] := hnil.cstr_eq (by omega)
  simp only [rtrim, hstr, if_pos hpos] at hr
  obtain ⟨e, he, rfl⟩ := Option.map_eq_some_iff.mp hr
  have hfront := mem_copyExamined (s := l.pointer) (n := 0) he (by
    simp only [List.length_nil]
    omega)
  simpa using hfront

theorem exists_of_properTrim (ht : 0 < t) (hs : IsString m s str) (hlen : str.length < maxStrLen)
    (h : ProperTrim stack t m s str) : ∃ b ∈ str, isSpace b = false := by
  obtain ⟨fuel, r, hr, htrim, ⟨-, hcopy⟩, -⟩ := h
  by_contra hblank
  push Not at hblank
  by_cases hne : str = []
  · subst hne
    have hfront := (hcopy _ (mem_copyExamined_of_nil ht hs hr)).1
    omega
  · obtain ⟨r', hr', htext, -, -⟩ := trim_total hs hne hlen (Nat.lt_succ_self _)
    obtain ⟨b, hb, hone⟩ := trim_blank hne (fun b hb => by simpa using hblank b hb)
    have hfront := htrim.unpadded.front b (by rw [trim_unique hr hr', htext, hone]; rfl)
    simp [hb] at hfront

end

/-- **`trim`** gives the longest part that neither starts nor ends with a blank, looks at the string
alone and is idempotent for the strings that have a character that is no blank, and for no other. -/
theorem properTrim_iff (stack : Mem) {t : ℕ} (m : Mem) {s : ℕ} {str : List UInt8} (ht : 0 < t)
    (hs : IsString m s str) (hlen : str.length < maxStrLen) :
    ProperTrim stack t m s str ↔ ∃ b ∈ str, isSpace b = false := by
  constructor
  · exact exists_of_properTrim ht hs hlen
  · intro h
    have hne : str ≠ [] := by
      obtain ⟨b, hb, -⟩ := h
      exact List.ne_nil_of_mem hb
    obtain ⟨r, hr, htext, hexamined, hcopy⟩ := trim_total hs hne hlen (Nat.lt_succ_self _)
    have htrim := isTrimOf_trim h
    refine ⟨_, r, hr, by rwa [htext], ⟨hexamined, hcopy⟩, fun stack' m' s' hs' => ?_⟩
    rw [htext] at hs'
    have hshort : (Plcs.trim str).length < maxStrLen :=
      (Plcs.trim_part str).length_le.trans_lt hlen
    obtain ⟨r', hr', htext', -, -⟩ :=
      trim_total hs' (Plcs.trim_ne_nil hne) hshort (Nat.lt_succ_self _)
    exact ⟨_, r', hr', by rw [htext', htext, trim_of_unpadded htrim.unpadded]⟩

/-- The text ` a ` at address 8, and the array at address 4. -/
theorem properTrim_padded :
    ProperTrim (fun _ => 0) 4 (strcpy (fun _ => 0) 8 [0x20, 0x61, 0x20]) 8 [0x20, 0x61, 0x20] :=
  (properTrim_iff _ _ (by decide) (isString_strcpy _ 8 (by decide)) (by decide)).mpr
    ⟨0x61, by decide, by decide⟩

/-- Of two blanks one stays; on an empty string the byte in front of the array is looked at. -/
theorem not_properTrim_blank :
    ¬ ProperTrim (fun _ => 0) 4 (strcpy (fun _ => 0) 8 [0x20, 0x20]) 8 [0x20, 0x20] ∧
      ¬ ProperTrim (fun _ => 0) 4 (strcpy (fun _ => 0) 8 []) 8 [] := by
  refine ⟨fun h => ?_, fun h => ?_⟩
  · have hsome := exists_of_properTrim (by decide) (isString_strcpy _ 8 (by decide)) (by decide) h
    revert hsome
    decide
  · have hsome := exists_of_properTrim (by decide) (isString_strcpy _ 8 (by decide)) (by decide) h
    revert hsome
    decide

end IdcuIot.StringTrim
