import IdcuIot.Lib.Decimal
import IdcuIot.Lib.Lines

/-! # SetupManager: configuration files

The configuration files of the device consist of lines with a key and a value.
`ReadNetworkConfig` and `ReadSecurityConfig` read them with the same loop: `fgets` gives a line,
`strtok` its first two words, and a chain of `strcmp` says what becomes of them.  `entries` is what
the loop finds in a text, and `readConfig` carries the variable through the entries. -/

namespace IdcuIot.SetupManager

open Lines

/-- The bytes of a C string. -/
def cbytes (s : String) : List UInt8 := s.toList.map (fun c => UInt8.ofNat c.toNat)

/-- `atoi` of a string, in a byte. -/
def number (t : List UInt8) : UInt8 :=
  UInt8.ofInt (Decimal.atoi (t.map (fun b => Char.ofNat b.toNat)))

/-- The delimiters `"\t =\n\r"`. -/
def isDelim (b : UInt8) : Bool := b ∈ [0x09, 0x20, 0x3D, 0x0A, 0x0D]

/-- Key and value of a line up to its first zero; a line that begins with `#` is skipped. -/
def lineEntry (line : List UInt8) : Option (List UInt8 × Option (List UInt8)) :=
  entry isDelim 0x23 (line.takeWhile (· ≠ 0))

/-- The entries of a file; `fgets( line, 1024, config_fp )` has room for 1023 bytes. -/
def entries (text : List UInt8) : List (List UInt8 × Option (List UInt8)) :=
  (lines 0x0A 1023 text).filterMap lineEntry

/-- The loop of a reader, which does `step` with the key and the value of each entry. -/
def readConfig {σ : Type} (step : σ → List UInt8 → Option (List UInt8) → Option σ)
    (text : List UInt8) (s : σ) : Option σ :=
  (entries text).foldlM (fun s e => step s e.1 e.2) s

/-- `fprintf( config_fp, "key %s\n", v )`. -/
def configLine (key v : List UInt8) : List UInt8 := key ++ 0x20 :: (v ++ [0x0A])

/-- A byte that a word of a file can have. -/
def WordByte (b : UInt8) : Prop := b ≠ 0 ∧ isDelim b = false

instance : DecidablePred WordByte := fun _ => instDecidableAnd

/-- A word that leaves room in its line. -/
def IsWord (w : List UInt8) : Prop := (∀ b ∈ w, WordByte b) ∧ w ≠ [] ∧ w.length ≤ 100

instance : DecidablePred IsWord := fun w =>
  @instDecidableAnd _ _ (List.decidableBAll WordByte w) instDecidableAnd

/-- A word that begins no comment. -/
def IsKey (key : List UInt8) : Prop := IsWord key ∧ key.head? ≠ some 0x23

instance : DecidablePred IsKey := fun _ => instDecidableAnd

section
variable {s key v w : List UInt8}

theorem entries_append (s t : List UInt8) :
    entries (s ++ 0x0A :: t) = entries (s ++ [0x0A]) ++ entries t := by
  rw [entries, lines_append, List.filterMap_append]
  rfl

theorem lineEntry_append (line : List UInt8) : lineEntry (line ++ [0x0A]) = lineEntry line := by
  have hlf : isDelim 0x0A = true := by decide
  unfold lineEntry
  rw [List.takeWhile_append]
  split_ifs with hwhole
  · rw [List.Sublist.eq_of_length (List.takeWhile_sublist _) hwhole,
      List.takeWhile_cons_of_pos (by decide), List.takeWhile_nil, entry_append_delim hlf]
  · rfl

theorem entries_append_lf (hs : 0x0A ∉ s) : entries (s ++ [0x0A]) = entries s := by
  have hempty : lineEntry [0x0A] = none := by decide
  have hfrom : ∀ acc, (linesFrom 0x0A 1023 acc (s ++ [0x0A])).filterMap lineEntry =
      (linesFrom 0x0A 1023 acc s).filterMap lineEntry := by
    induction s with
    | nil =>
        intro acc
        by_cases hacc : acc = []
        · subst hacc
          simp [linesFrom, hempty]
        · simp [linesFrom, hacc, lineEntry_append, List.filterMap_cons]
    | cons c s ih =>
        rw [List.mem_cons, not_or] at hs
        intro acc
        rw [List.cons_append, linesFrom, linesFrom]
        split_ifs
        · simp only [List.filterMap_cons, ih hs.2]
        · exact ih hs.2 _
  exact hfrom []

/-- **Line by line**: the entries of a file are those of its lines. -/
theorem entries_splitOn (text : List UInt8) :
    entries text = (text.splitOn 0x0A).flatMap entries := by
  induction hn : text.length using Nat.strong_induction_on generalizing text with
  | _ n ih =>
      by_cases hlf : (0x0A : UInt8) ∈ text
      · obtain ⟨u, v, rfl, hu⟩ := List.eq_append_cons_of_mem hlf
        rw [List.length_append, List.length_cons] at hn
        rw [entries_append, entries_append_lf hu, List.splitOn_append_cons_self,
          List.splitOn_eq_singleton hu, List.singleton_append, List.flatMap_cons,
          ih v.length (by omega) v rfl]
      · rw [List.splitOn_eq_singleton hlf, List.flatMap_singleton]

/-- **One line**: a key and a text without line feed are read as one entry. -/
theorem entries_configLine (hkey : IsKey key) (hv : ∀ b ∈ v, b ≠ 0 ∧ b ≠ 0x0A)
    (hlen : v.length ≤ 900) :
    entries (configLine key v) = [(key, (word isDelim v).map Prod.fst)] := by
  obtain ⟨⟨hkey, hne, hkeylen⟩, hhead⟩ := hkey
  have hlf : (0x0A : UInt8) ∉ key ++ 0x20 :: v := by
    intro h
    rcases List.mem_append.mp h with h | h
    · exact absurd (hkey _ h).2 (by decide)
    · rcases List.mem_cons.mp h with h | h
      · exact absurd h (by decide)
      · exact (hv _ h).2 rfl
  have hzero : ∀ b ∈ key ++ 0x20 :: (v ++ [0x0A]), decide (b ≠ 0) = true := by
    intro b hb
    simp only [List.mem_append, List.mem_cons, List.not_mem_nil, or_false] at hb
    rcases hb with hb | rfl | hb | rfl
    · exact decide_eq_true (hkey b hb).1
    · decide
    · exact decide_eq_true (hv b hb).1
    · decide
  have hroom : (key ++ 0x20 :: v).length < 1023 := by
    rw [List.length_append, List.length_cons]
    omega
  have hsplit : configLine key v = (key ++ 0x20 :: v) ++ [0x0A] := by
    rw [configLine, List.append_assoc, List.cons_append]
  rw [entries, hsplit, lines_line hlf hroom, ← hsplit, List.filterMap_cons, lineEntry, configLine,
    List.takeWhile_eq_self_iff.mpr hzero,
    entry_line (fun b hb => (hkey b hb).2) hne hhead (by decide) (by decide)]
  rfl

theorem word_value (hv : ∀ b ∈ v, WordByte b) (hne : v ≠ []) :
    (word isDelim v).map Prod.fst = some v := by
  have hspace : isDelim 0x20 = true := by decide
  rw [← word_append_delim hspace, word_token (fun b hb => (hv b hb).2) hne hspace]
  rfl

theorem of_mem_entries (h : (key, some w) ∈ entries s) : w ≠ [] ∧ ∀ b ∈ w, WordByte b := by
  obtain ⟨line, -, hline⟩ := List.mem_filterMap.mp h
  obtain ⟨hne, hdelim, hpart⟩ := of_entry hline
  refine ⟨hne, fun b hb => ⟨?_, hdelim b hb⟩⟩
  have hzero := List.mem_takeWhile_imp (hpart.subset hb)
  simpa using hzero

end

section
variable {σ : Type} {step : σ → List UInt8 → Option (List UInt8) → Option σ} {s s' : σ}
  {text key v : List UInt8}

/-- What stands behind a line is read on its own, whatever the line is. -/
theorem readConfig_line (key v rest : List UInt8) (s : σ) :
    readConfig step (configLine key v ++ rest) s =
      (readConfig step (configLine key v) s).bind (readConfig step rest) := by
  have hsplit : configLine key v ++ rest = (key ++ 0x20 :: v) ++ 0x0A :: rest := by
    simp only [configLine, List.append_assoc, List.cons_append, List.nil_append]
  have hline : (key ++ 0x20 :: v) ++ [0x0A] = configLine key v := by
    simp only [configLine, List.append_assoc, List.cons_append]
  rw [hsplit, readConfig, entries_append, hline, List.foldlM_append]
  rfl

/-- A line of a key and a text without line feed is one step of the reader. -/
theorem readConfig_configLine (hkey : IsKey key) (hv : ∀ b ∈ v, b ≠ 0 ∧ b ≠ 0x0A)
    (hlen : v.length ≤ 900) (s : σ) :
    readConfig step (configLine key v) s = step s key ((word isDelim v).map Prod.fst) := by
  rw [readConfig, entries_configLine hkey hv hlen, List.foldlM_cons]
  simp only [List.foldlM_nil, Option.pure_def, Option.bind_eq_bind, Option.bind_fun_some]

theorem readConfig_word (hkey : IsKey key) (hv : IsWord v) (s : σ) :
    readConfig step (configLine key v) s = step s key (some v) := by
  obtain ⟨hv, hne, hlen⟩ := hv
  have hlf : ∀ b ∈ v, b ≠ 0 ∧ b ≠ 0x0A := fun b hb =>
    ⟨(hv b hb).1, fun h => absurd (h ▸ (hv b hb).2) (by decide)⟩
  rw [readConfig_configLine hkey hlf (hlen.trans (by decide)), word_value hv hne]

/-- **Reader invariant**: what every entry preserves, the reader preserves. -/
theorem readConfig_invariant {I : σ → Prop}
    (hstep : ∀ s s' key value, (∀ w ∈ value, w ≠ [] ∧ ∀ b ∈ w, WordByte b) → I s →
      step s key value = some s' → I s')
    (hs : I s) (h : readConfig step text s = some s') : I s' := by
  have hwords : ∀ e ∈ entries text, ∀ w ∈ e.2, w ≠ [] ∧ ∀ b ∈ w, WordByte b := by
    rintro ⟨key, value⟩ he w hw
    obtain rfl : value = some w := hw
    exact of_mem_entries he
  unfold readConfig at h
  generalize entries text = es at h hwords
  induction es generalizing s with
  | nil => exact Option.some.inj h ▸ hs
  | cons e es ih =>
      rw [List.foldlM_cons] at h
      obtain ⟨s₁, h₁, h⟩ := Option.bind_eq_some_iff.mp h
      exact ih (hstep s s₁ e.1 e.2 (hwords e List.mem_cons_self) hs h₁) h
        (fun e' he' => hwords e' (List.mem_cons_of_mem e he'))

/-- **Two readers**: what is alike before every entry and after it, is alike at the end. -/
theorem readConfig_related {R : σ → σ → Prop} {t : σ}
    (hstep : ∀ s t s' key value, R s t → step s key value = some s' →
      ∃ t', step t key value = some t' ∧ R s' t')
    (hR : R s t) (h : readConfig step text s = some s') :
    ∃ t', readConfig step text t = some t' ∧ R s' t' := by
  unfold readConfig at h ⊢
  generalize entries text = es at h ⊢
  induction es generalizing s t with
  | nil => exact ⟨t, rfl, Option.some.inj h ▸ hR⟩
  | cons e es ih =>
      rw [List.foldlM_cons] at h
      obtain ⟨s₁, h₁, h⟩ := Option.bind_eq_some_iff.mp h
      obtain ⟨t₁, ht₁, hR₁⟩ := hstep s t s₁ e.1 e.2 hR h₁
      obtain ⟨t', ht', hR'⟩ := ih hR₁ h
      exact ⟨t', by rw [List.foldlM_cons, ht₁]; exact ht', hR'⟩

end
end IdcuIot.SetupManager
