import Mathlib.Data.List.TakeWhile
import Mathlib.Tactic

/-! # Lines of a text file

`fgets` in a loop gives the lines of a text, a long line in pieces; `strtok` with a set of
delimiters gives the words of a line.  A configuration file is read as the first two words of each
line (`entry`).  A text is read line by line (`lines_append`): what a writer puts down as lines is
read as one entry for each of them. -/

namespace Lines

variable {α : Type*}

/-! ### Lines -/

section
variable [DecidableEq α]

/-- The results of `fgets` with room for `n` characters, when `acc` has been read of a line. -/
def linesFrom (lf : α) (n : ℕ) : List α → List α → List (List α)
  | acc, [] => if acc = [] then [] else [acc]
  | acc, c :: s =>
      if c = lf ∨ acc.length + 1 = n then (acc ++ [c]) :: linesFrom lf n [] s
      else linesFrom lf n (acc ++ [c]) s

/-- The results of `fgets` with room for `n` characters, up to the end of the text. -/
def lines (lf : α) (n : ℕ) (s : List α) : List (List α) := linesFrom lf n [] s

variable {lf : α} {n : ℕ} {s acc : List α}

theorem linesFrom_append (lf : α) (n : ℕ) (acc s t : List α) :
    linesFrom lf n acc (s ++ lf :: t) = linesFrom lf n acc (s ++ [lf]) ++ lines lf n t := by
  induction s generalizing acc with
  | nil =>
      rw [List.nil_append, List.nil_append, linesFrom, linesFrom, if_pos (Or.inl rfl),
        if_pos (Or.inl rfl), linesFrom, if_pos rfl]
      rfl
  | cons c s ih =>
      rw [List.cons_append, List.cons_append, linesFrom, linesFrom]
      split_ifs
      · rw [ih [], List.cons_append]
      · exact ih (acc ++ [c])

/-- **Line by line**: what stands behind the end of a line is read on its own. -/
theorem lines_append (lf : α) (n : ℕ) (s t : List α) :
    lines lf n (s ++ lf :: t) = lines lf n (s ++ [lf]) ++ lines lf n t :=
  linesFrom_append lf n [] s t

theorem linesFrom_line (hs : lf ∉ s) (hn : acc.length + s.length < n) :
    linesFrom lf n acc (s ++ [lf]) = [acc ++ (s ++ [lf])] := by
  induction s generalizing acc with
  | nil => rw [List.nil_append, linesFrom, if_pos (Or.inl rfl), linesFrom, if_pos rfl]
  | cons c s ih =>
      rw [List.length_cons] at hn
      have hc : ¬ (c = lf ∨ acc.length + 1 = n) := by
        rintro (rfl | hroom)
        · exact hs List.mem_cons_self
        · omega
      have hlater : (acc ++ [c]).length + s.length < n := by
        rw [List.length_append, List.length_singleton]
        omega
      rw [List.cons_append, linesFrom, if_neg hc, ih (fun h => hs (List.mem_cons_of_mem c h)) hlater,
        List.append_assoc, List.singleton_append]

theorem lines_line (hs : lf ∉ s) (hn : s.length < n) : lines lf n (s ++ [lf]) = [s ++ [lf]] :=
  linesFrom_line hs (by simpa using hn)

end

/-! ### Lines that are written -/

section
variable [DecidableEq α] {lf : α} {s : List α} {rows : List (List α)}

theorem splitOn_rows (lf : α) (rows : List (List α)) (rest : List α) :
    (rows.flatMap (· ++ [lf]) ++ rest).splitOn lf =
      rows.flatMap (List.splitOn lf) ++ rest.splitOn lf := by
  induction rows with
  | nil => rfl
  | cons r rows ih =>
      rw [List.flatMap_cons, List.flatMap_cons, List.append_assoc, List.append_assoc,
        List.singleton_append, List.splitOn_append_cons_self, ih, List.append_assoc]

theorem length_splitOn_of_mem (h : lf ∈ s) : 1 < (s.splitOn lf).length := by
  obtain ⟨u, v, rfl⟩ := List.append_of_mem h
  have hu := List.length_pos_of_ne_nil (List.splitOn_ne_nil lf u)
  have hv := List.length_pos_of_ne_nil (List.splitOn_ne_nil lf v)
  rw [List.splitOn_append_cons_self, List.length_append]
  omega

theorem length_le_splitOn_rows (lf : α) (rows : List (List α)) :
    rows.length ≤ (rows.flatMap (List.splitOn lf)).length := by
  induction rows with
  | nil => exact le_rfl
  | cons r rows ih =>
      have hr := List.length_pos_of_ne_nil (List.splitOn_ne_nil lf r)
      rw [List.flatMap_cons, List.length_append, List.length_cons]
      omega

/-- **As many lines as rows**: no row has an end in it, and the lines are the rows. -/
theorem length_splitOn_rows_iff : (rows.flatMap (List.splitOn lf)).length = rows.length ↔
    ∀ r ∈ rows, lf ∉ r := by
  induction rows with
  | nil => simp
  | cons r rows ih =>
      have hr := List.length_pos_of_ne_nil (List.splitOn_ne_nil lf r)
      have hrows := length_le_splitOn_rows lf rows
      rw [List.flatMap_cons, List.length_append, List.length_cons, List.forall_mem_cons, ← ih]
      constructor
      · intro h
        refine ⟨fun hmem => ?_, by omega⟩
        have hmore := length_splitOn_of_mem hmem
        omega
      · rintro ⟨hmem, h⟩
        rw [List.splitOn_eq_singleton hmem, List.length_singleton]
        omega

theorem splitOn_rows_of_notMem (h : ∀ r ∈ rows, lf ∉ r) :
    rows.flatMap (List.splitOn lf) = rows := by
  induction rows with
  | nil => rfl
  | cons r rows ih =>
      rw [List.forall_mem_cons] at h
      rw [List.flatMap_cons, List.splitOn_eq_singleton h.1, ih h.2, List.singleton_append]

end

/-! ### Words -/

/-- The first word of `s` and what stands behind the delimiter that ends it. -/
def word (p : α → Bool) (s : List α) : Option (List α × List α) :=
  if s.dropWhile p = [] then none
  else some ((s.dropWhile p).takeWhile (fun c => !p c),
    ((s.dropWhile p).dropWhile (fun c => !p c)).tail)

section
variable {p : α → Bool} {c d : α} {s t r : List α}

theorem word_cons (hc : p c = true) (s : List α) : word p (c :: s) = word p s := by
  simp only [word, List.dropWhile_cons_of_pos hc]

theorem dropWhile_append_of_none (ht : ∀ c ∈ t, p c = false) (hne : t ≠ []) (s : List α) :
    (t ++ s).dropWhile p = t ++ s := by
  cases t with
  | nil => exact absurd rfl hne
  | cons c t =>
      rw [List.cons_append, List.dropWhile_cons_of_neg]
      rw [ht c List.mem_cons_self]
      exact Bool.false_ne_true

theorem word_token (ht : ∀ c ∈ t, p c = false) (hne : t ≠ []) (hd : p d = true) (r : List α) :
    word p (t ++ d :: r) = some (t, r) := by
  have hall : ∀ c ∈ t, (!p c) = true := fun c hc => by rw [ht c hc]; rfl
  rw [word, dropWhile_append_of_none ht hne, if_neg (by simp [hne]),
    List.takeWhile_append_of_pos hall, List.dropWhile_append_of_pos hall,
    List.takeWhile_cons_of_neg (by simp [hd]), List.dropWhile_cons_of_neg (by simp [hd]),
    List.append_nil, List.tail_cons]

/-- A word is not empty and has no delimiters, and its characters are those of the text. -/
theorem of_word (h : word p s = some (t, r)) : t ≠ [] ∧ (∀ c ∈ t, p c = false) ∧ t <:+: s := by
  unfold word at h
  split_ifs at h with hs
  obtain ⟨rfl, -⟩ := Prod.mk.inj (Option.some.inj h)
  refine ⟨?_, fun c hc => by simpa using List.mem_takeWhile_imp hc, ?_⟩
  · cases hd : s.dropWhile p with
    | nil => exact absurd hd hs
    | cons c u =>
        have hc : p c = false := by
          have hhead := List.head?_dropWhile_not p s
          rw [hd] at hhead
          simpa using hhead
        rw [List.takeWhile_cons_of_pos (by rw [hc]; rfl)]
        exact List.cons_ne_nil _ _
  · exact (List.takeWhile_prefix _).isInfix.trans (List.dropWhile_suffix p).isInfix

theorem word_append_delim (hd : p d = true) (s : List α) :
    (word p (s ++ [d])).map Prod.fst = (word p s).map Prod.fst := by
  induction s with
  | nil => rw [List.nil_append, word_cons hd]
  | cons c s ih =>
      cases hc : p c with
      | true => rw [List.cons_append, word_cons hc, word_cons hc, ih]
      | false =>
          have hneg : ¬ p c = true := by rw [hc]; exact Bool.false_ne_true
          simp only [word, List.cons_append, List.dropWhile_cons_of_neg hneg]
          rw [if_neg (List.cons_ne_nil _ _), if_neg (List.cons_ne_nil _ _), Option.map_some,
            Option.map_some, ← List.cons_append, List.takeWhile_append]
          split_ifs with hlen
          · rw [List.takeWhile_cons_of_neg (by simp [hd]), List.append_nil]
            exact congrArg some (List.Sublist.eq_of_length (List.takeWhile_sublist _) hlen).symm
          · rfl

theorem word_append_delim_rest (hd : p d = true) {r' : List α} {t' : List α}
    (h : word p (s ++ [d]) = some (t', r')) (h0 : word p s = some (t, r)) :
    (word p r').map Prod.fst = (word p r).map Prod.fst := by
  unfold word at h h0
  have hne : s.dropWhile p ≠ [] := by
    intro hnil
    rw [if_pos hnil] at h0
    cases h0
  have hfront : (s ++ [d]).dropWhile p = s.dropWhile p ++ [d] := by
    rw [List.dropWhile_append, if_neg (by rwa [List.isEmpty_iff])]
  rw [if_neg hne] at h0
  rw [hfront, if_neg (by simp)] at h
  cases h0
  cases h
  rw [List.dropWhile_append]
  split_ifs with hend
  · rw [List.isEmpty_iff] at hend
    rw [hend, List.dropWhile_cons_of_neg (by simp [hd])]
    rfl
  · rw [List.isEmpty_iff] at hend
    rw [List.tail_append_of_ne_nil hend]
    exact word_append_delim hd _

end

/-! ### Entries -/

variable [DecidableEq α]

/-- The first word of a line that is not a comment, and its second word. -/
def entry (p : α → Bool) (comment : α) (line : List α) : Option (List α × Option (List α)) :=
  match word p line with
  | none => none
  | some (key, rest) =>
      if key.head? = some comment then none else some (key, (word p rest).map Prod.fst)

section
variable {p : α → Bool} {comment d e : α} {key v : List α}

theorem entry_line (hkey : ∀ c ∈ key, p c = false) (hne : key ≠ [])
    (hhead : key.head? ≠ some comment) (hd : p d = true) (he : p e = true) (v : List α) :
    entry p comment (key ++ d :: (v ++ [e])) = some (key, (word p v).map Prod.fst) := by
  rw [entry, word_token hkey hne hd]
  dsimp only
  rw [if_neg hhead, word_append_delim he]

theorem entry_append_delim (hd : p d = true) (s : List α) :
    entry p comment (s ++ [d]) = entry p comment s := by
  have hfirst := word_append_delim hd (s := s)
  unfold entry
  cases h0 : word p s with
  | none =>
      rw [h0, Option.map_none, Option.map_eq_none_iff] at hfirst
      rw [hfirst]
  | some first =>
      cases h : word p (s ++ [d]) with
      | none => simp [h0, h] at hfirst
      | some first' =>
          have hkey : first'.1 = first.1 := by simpa [h0, h] using hfirst
          have hrest := word_append_delim_rest hd h h0
          simp only [hkey, hrest]

theorem of_entry {line : List α} (h : entry p comment line = some (key, some v)) :
    v ≠ [] ∧ (∀ c ∈ v, p c = false) ∧ v <:+: line := by
  unfold entry at h
  split at h
  · cases h
  · rename_i k rest hword
    split_ifs at h
    obtain ⟨-, hv⟩ := Prod.mk.inj (Option.some.inj h)
    obtain ⟨⟨w, r⟩, hw, rfl⟩ := Option.map_eq_some_iff.mp hv
    obtain ⟨hne, hall, hpart⟩ := of_word hw
    refine ⟨hne, hall, hpart.trans ?_⟩
    unfold word at hword
    split_ifs at hword
    obtain ⟨-, rfl⟩ := Prod.mk.inj (Option.some.inj hword)
    exact (List.tail_suffix _).isInfix.trans
      ((List.dropWhile_suffix _).isInfix.trans (List.dropWhile_suffix p).isInfix)

end
end Lines
