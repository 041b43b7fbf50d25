import IdcuIot.Lib.Footprint
import IdcuIot.SetupManager.NetworkConfig

/-! # `configRW.c`: the environment

`ReadEnvConfig` reads `env.reg` into a `READENV`, line by line.  It does not look whether there is
a value behind a key, and prints the texts of the manufacturer and of the product into 20 bytes
each, whatever their length: `touchesNamedField_iff` says for which files every line sets the field
that it names, and no other. -/

namespace IdcuIot

open Memory Mem Lines
open SetupManager (Inet cbytes entries lineEntry readConfig isDelim)

/-- The fields of `READENV`. -/
inductive EnvField where
  | middlewareIp
  | middlewarePort
  | manufacturer
  | producno
  | registration
  | gatenode
  | pan
  | sensornode
  | timeout
deriving DecidableEq, Repr

namespace EnvField

/-- The key of a field in the file. -/
def key : EnvField → List UInt8
  | .middlewareIp => cbytes "middleware_ip"
  | .middlewarePort => cbytes "middleware_port"
  | .manufacturer => cbytes "manufacturer"
  | .producno => cbytes "producno"
  | .registration => cbytes "registration"
  | .gatenode => cbytes "gatenode"
  | .pan => cbytes "pan"
  | .sensornode => cbytes "sensornode"
  | .timeout => cbytes "timeout"

/-- Where the field lies in the structure. -/
def offset : EnvField → ℕ
  | .middlewareIp => 0
  | .middlewarePort => 4
  | .manufacturer => 6
  | .producno => 26
  | .registration => 46
  | .gatenode => 48
  | .pan => 50
  | .sensornode => 52
  | .timeout => 56

/-- How many bytes it has. -/
def size : EnvField → ℕ
  | .middlewareIp => 4
  | .middlewarePort => 2
  | .manufacturer => 20
  | .producno => 20
  | .registration => 1
  | .gatenode => 2
  | .pan => 2
  | .sensornode => 2
  | .timeout => 4

/-- The chain of `strcmp`. -/
def ofKey (key : List UInt8) : Option EnvField :=
  [middlewareIp, middlewarePort, manufacturer, producno, registration, gatenode, pan, sensornode,
    timeout].find? (fun f => f.key == key)

/-- A number in `n` bytes, the low one first. -/
def numberBytes (n : ℕ) (z : ℤ) : List UInt8 :=
  (List.range n).map (fun k => UInt8.ofInt (z / 256 ^ k))

/-- What is stored for a value: an address, a text with its zero, or a number. -/
def stored (I : Inet) (f : EnvField) (value : List UInt8) : List UInt8 :=
  match f with
  | .middlewareIp => numberBytes 4 (I.addr value).toNat
  | .manufacturer | .producno => value ++ [0]
  | f => numberBytes f.size (Decimal.atoi (value.map (fun b => Char.ofNat b.toNat)))

/-- The byte lies in the field. -/
def Has (f : EnvField) (x : ℕ) : Prop := f.offset ≤ x ∧ x < f.offset + f.size

end EnvField

/-- What `ReadEnvConfig` does with an entry; a known key without a value makes it use `NULL`. -/
def readEnvStep (I : Inet) (env : Mem) (key : List UInt8) (value : Option (List UInt8)) :
    Option Mem :=
  match EnvField.ofKey key with
  | none => some env
  | some f => value.map (fun v => env.store f.offset (f.stored I v))

/-- `ReadEnvConfig`. -/
def readEnvConfig (I : Inet) (text : List UInt8) (env : Mem) : Option Mem :=
  readConfig (readEnvStep I) text env

/-! ### What the reader should do -/

/-- The lines of a file. -/
def textLines (text : List UInt8) : List (List UInt8) := text.splitOn 0x0A

/-- The key of a line that is no comment. -/
def lineKey (line : List UInt8) : Option (List UInt8) := (lineEntry line).map Prod.fst

/-- The byte lies in the field that a line names. -/
def Names (line : List UInt8) (x : ℕ) : Prop :=
  ∃ key f, lineKey line = some key ∧ EnvField.ofKey key = some f ∧ f.Has x

/-- The lines of the one file are those of the other in another order, but for lines with the same
key. -/
def SameOrder (text text' : List UInt8) : Prop :=
  ∀ key, (textLines text').filter (fun l => lineKey l = key) =
    (textLines text).filter (fun l => lineKey l = key)

/-- `ReadEnvConfig` never uses `NULL`, each line changes the field that it names and nothing else,
and lines with different keys can change places. -/
structure TouchesNamedField (I : Inet) (text : List UInt8) : Prop where
  defined : ∀ env, readEnvConfig I text env ≠ none
  own : ∀ line ∈ textLines text, ∀ env env', readEnvConfig I line env = some env' →
    ∀ x, ¬ Names line x → env' x = env x
  order : ∀ text', SameOrder text text' → ∀ env,
    readEnvConfig I text' env = readEnvConfig I text env

/-- Each setting that is found in a line, which is one unless `fgets` reads the line in pieces, has
the key of the line and a value, and the value of a text leaves room for its zero. -/
def WellKeyed (text : List UInt8) : Prop :=
  ∀ line ∈ textLines text, ∀ e ∈ entries line, ∀ f, EnvField.ofKey e.1 = some f →
    lineKey line = some e.1 ∧
      ∃ v, e.2 = some v ∧ (f = .manufacturer ∨ f = .producno → v.length < f.size)

/-! ### Fields -/

namespace EnvField

variable {f f' : EnvField} {I : Inet} {key v : List UInt8} {x : ℕ}

theorem key_of_ofKey (h : ofKey key = some f) : f.key = key := by
  simpa using List.find?_some h

theorem eq_of_has (h : f.Has x) (h' : f'.Has x) : f = f' := by
  unfold Has at h h'
  cases f <;> cases f' <;> first | rfl | (simp only [offset, size] at h h'; omega)

theorem length_stored (I : Inet) (f : EnvField) (v : List UInt8) : (f.stored I v).length =
    if f = .manufacturer ∨ f = .producno then v.length + 1 else f.size := by
  cases f <;> simp [stored, numberBytes, size]

theorem has_offset (f : EnvField) : f.Has f.offset := by
  cases f <;> simp [Has, size]

theorem length_stored_pos (I : Inet) (f : EnvField) (v : List UInt8) :
    0 < (f.stored I v).length := by
  rw [length_stored]
  split_ifs
  · omega
  · cases f <;> decide

theorem length_stored_le_iff (I : Inet) (f : EnvField) (v : List UInt8) :
    (f.stored I v).length ≤ f.size ↔ (f = .manufacturer ∨ f = .producno → v.length < f.size) := by
  rw [length_stored]
  split_ifs with h
  · exact ⟨fun hlt _ => hlt, fun hlt => hlt h⟩
  · exact ⟨fun _ htext => absurd htext h, fun _ => le_rfl⟩

end EnvField

/-! ### The reader as a run of stores -/

/-- The stores for a list of entries. -/
def envStores (I : Inet) (es : List (List UInt8 × Option (List UInt8))) : List (ℕ × List UInt8) :=
  es.filterMap (fun e => (EnvField.ofKey e.1).bind (fun f =>
    e.2.map (fun v => (f.offset, f.stored I v))))

/-- The stores for a line. -/
def lineStores (I : Inet) (line : List UInt8) : List (ℕ × List UInt8) := envStores I (entries line)

/-- The known keys of the entries have values. -/
def AllGiven (es : List (List UInt8 × Option (List UInt8))) : Prop :=
  ∀ e ∈ es, ∀ f, EnvField.ofKey e.1 = some f → ∃ v, e.2 = some v

section
variable {I : Inet} {es : List (List UInt8 × Option (List UInt8))} {text text' line : List UInt8}
  {env env' : Mem} {w : ℕ × List UInt8} {x : ℕ}

theorem mem_envStores : w ∈ envStores I es ↔ ∃ e ∈ es, ∃ f v, EnvField.ofKey e.1 = some f ∧
    e.2 = some v ∧ w = (f.offset, f.stored I v) := by
  simp only [envStores, List.mem_filterMap, Option.bind_eq_some_iff, Option.map_eq_some_iff]
  constructor
  · rintro ⟨e, he, f, hf, v, hv, rfl⟩
    exact ⟨e, he, f, v, hf, hv, rfl⟩
  · rintro ⟨e, he, f, v, hf, hv, rfl⟩
    exact ⟨e, he, f, hf, v, hv, rfl⟩

theorem readEnvStep_eq (env : Mem) {key : List UInt8} {value : Option (List UInt8)}
    (h : ∀ f, EnvField.ofKey key = some f → ∃ v, value = some v) :
    readEnvStep I env key value = some (storeAll env (envStores I [(key, value)])) := by
  unfold readEnvStep
  cases hf : EnvField.ofKey key with
  | none => simp [envStores, hf]
  | some f =>
      obtain ⟨v, rfl⟩ := h f hf
      simp [envStores, hf]

theorem foldlM_readEnvStep (h : AllGiven es) (env : Mem) :
    es.foldlM (fun env e => readEnvStep I env e.1 e.2) env = some (storeAll env (envStores I es)) := by
  induction es generalizing env with
  | nil => rfl
  | cons e es ih =>
      have hone := readEnvStep_eq (I := I) env (h e List.mem_cons_self)
      have hsplit : envStores I (e :: es) = envStores I [e] ++ envStores I es :=
        List.filterMap_append (l := [e])
      rw [List.foldlM_cons, hone, hsplit, storeAll_append]
      exact ih (fun e' he' => h e' (List.mem_cons_of_mem e he')) _

theorem allGiven_of_foldlM
    (h : es.foldlM (fun env e => readEnvStep I env e.1 e.2) env ≠ none) : AllGiven es := by
  induction es generalizing env with
  | nil => exact fun e he => by cases he
  | cons e es ih =>
      rw [List.foldlM_cons] at h
      cases hstep : readEnvStep I env e.1 e.2 with
      | none => simp [hstep] at h
      | some env' =>
          rw [hstep] at h
          refine List.forall_mem_cons.mpr ⟨fun f hf => ?_, ih h⟩
          unfold readEnvStep at hstep
          rw [hf] at hstep
          obtain ⟨v, hv, -⟩ := Option.map_eq_some_iff.mp hstep
          exact ⟨v, hv⟩

theorem readEnvConfig_eq (h : AllGiven (entries text)) (env : Mem) :
    readEnvConfig I text env = some (storeAll env (envStores I (entries text))) :=
  foldlM_readEnvStep h env

/-- **Line by line**: the stores of a file are those of its lines. -/
theorem envStores_entries (I : Inet) (text : List UInt8) :
    envStores I (entries text) = (textLines text).flatMap (lineStores I) := by
  rw [SetupManager.entries_splitOn, envStores, List.filterMap_flatMap]
  rfl

theorem mem_entries_of_line (hline : line ∈ textLines text) {e : List UInt8 × Option (List UInt8)}
    (he : e ∈ entries line) : e ∈ entries text := by
  rw [SetupManager.entries_splitOn]
  exact List.mem_flatMap.mpr ⟨line, hline, he⟩

/-! ### Lines that keep to their field -/

theorem WellKeyed.allGiven (h : WellKeyed text) : AllGiven (entries text) := by
  intro e he f hf
  rw [SetupManager.entries_splitOn] at he
  obtain ⟨line, hline, he⟩ := List.mem_flatMap.mp he
  obtain ⟨-, v, hv, -⟩ := h line hline e he f hf
  exact ⟨v, hv⟩

theorem WellKeyed.names (h : WellKeyed text) (hline : line ∈ textLines text)
    (hw : w ∈ lineStores I line) (hx : Covers w x) : Names line x := by
  obtain ⟨e, he, f, v, hf, hv, rfl⟩ := mem_envStores.mp hw
  obtain ⟨hkey, v', hv', hfits⟩ := h line hline e he f hf
  rw [hv] at hv'
  cases hv'
  have hsize := (EnvField.length_stored_le_iff I f v).mpr hfits
  exact ⟨e.1, f, hkey, hf, hx.1, hx.2.trans_le (Nat.add_le_add_left hsize _)⟩

theorem Names.lineKey_eq {line' : List UInt8} (h : Names line x) (h' : Names line' x) :
    lineKey line' = lineKey line := by
  obtain ⟨key, f, hkey, hf, hx⟩ := h
  obtain ⟨key', f', hkey', hf', hx'⟩ := h'
  obtain rfl := EnvField.eq_of_has hx hx'
  rw [hkey, hkey', ← EnvField.key_of_ofKey hf, ← EnvField.key_of_ofKey hf']

theorem SameOrder.mem_iff (h : SameOrder text text') :
    line ∈ textLines text' ↔ line ∈ textLines text := by
  have hfilter := h (lineKey line)
  have hmem : ∀ ls : List (List UInt8),
      line ∈ ls ↔ line ∈ ls.filter (fun l => lineKey l = lineKey line) := fun ls => by simp
  rw [hmem, hfilter, ← hmem]

/-- Two lines with different keys change places when no line between them has one of the two. -/
theorem sameOrder_exchange {l l' : List UInt8} {before between behind : List (List UInt8)}
    (h : textLines text = before ++ l :: (between ++ l' :: behind))
    (h' : textLines text' = before ++ l' :: (between ++ l :: behind))
    (hne : lineKey l ≠ lineKey l')
    (hbetween : ∀ b ∈ between, lineKey b ≠ lineKey l ∧ lineKey b ≠ lineKey l') :
    SameOrder text text' := by
  intro key
  have hnone : key = lineKey l ∨ key = lineKey l' →
      between.filter (fun b => lineKey b = key) = [] := by
    intro hkey
    rw [List.filter_eq_nil_iff]
    intro b hb
    rcases hkey with rfl | rfl
    · simpa using (hbetween b hb).1
    · simpa using (hbetween b hb).2
  rw [h, h']
  simp only [List.filter_append, List.filter_cons]
  by_cases hl : lineKey l = key
  · have hl' : lineKey l' ≠ key := fun heq => hne (hl.trans heq.symm)
    simp [hl, hl', hnone (Or.inl hl.symm)]
  · by_cases hl' : lineKey l' = key
    · simp [hl, hl', hnone (Or.inr hl'.symm)]
    · simp [hl, hl']

/-- **Order does not matter** for lines that keep to their fields. -/
theorem WellKeyed.storeAll_eq (h : WellKeyed text) (horder : SameOrder text text') (env : Mem) :
    storeAll env (envStores I (entries text')) = storeAll env (envStores I (entries text)) := by
  funext x
  -- all lines that cover the byte have one key
  obtain ⟨key, hkey⟩ : ∃ key, ∀ line ∈ textLines text, lineKey line ≠ key →
      ∀ w ∈ lineStores I line, ¬ Covers w x := by
    by_cases hsome : ∃ line ∈ textLines text, ∃ w ∈ lineStores I line, Covers w x
    · obtain ⟨line, hline, w, hw, hx⟩ := hsome
      refine ⟨lineKey line, fun line' hline' hne w' hw' hx' => hne ?_⟩
      exact (h.names hline hw hx).lineKey_eq (h.names hline' hw' hx')
    · exact ⟨none, fun line hline _ w hw hx => hsome ⟨line, hline, w, hw, hx⟩⟩
  have hcount : ∀ ls : List (List UInt8), (∀ line ∈ ls, line ∈ textLines text) →
      storeAll env (ls.flatMap (lineStores I)) x =
        storeAll env ((ls.filter (fun l => lineKey l = key)).flatMap (lineStores I)) x :=
    fun ls hls => storeAll_flatMap_filter
      (fun line hline hne => hkey line (hls line hline) (by simpa using hne))
  rw [envStores_entries, envStores_entries, hcount _ (fun _ => horder.mem_iff.mp),
    hcount _ (fun _ => id), horder key]

theorem WellKeyed.of_sameOrder (h : WellKeyed text) (horder : SameOrder text text') :
    WellKeyed text' := fun line hline => h line (horder.mem_iff.mp hline)

/-- A line that changes its field alone names the fields of all its entries, and has room for
them. -/
theorem TouchesNamedField.wellKeyed (h : TouchesNamedField I text) : WellKeyed text := by
  intro line hline e he f hf
  have hgiven : AllGiven (entries text) := allGiven_of_foldlM (h.defined (fun _ => 0))
  have hline' : AllGiven (entries line) := fun e he => hgiven e (mem_entries_of_line hline he)
  obtain ⟨v, hv⟩ := hline' e he f hf
  have hw : (f.offset, f.stored I v) ∈ lineStores I line :=
    mem_envStores.mpr ⟨e, he, f, v, hf, hv, rfl⟩
  have hnamed : ∀ x, Covers (f.offset, f.stored I v) x → ∃ key, lineKey line = some key ∧
      ∃ f', EnvField.ofKey key = some f' ∧ f'.Has x := by
    intro x hx
    by_contra hother
    obtain ⟨env, henv⟩ := exists_storeAll_ne hw hx
    refine henv (h.own line hline env _ (readEnvConfig_eq hline' env) x ?_)
    rintro ⟨key, f', hkey, hf', hhas⟩
    exact hother ⟨key, hkey, f', hf', hhas⟩
  have hpos := EnvField.length_stored_pos I f v
  -- the first byte tells the key, and the last one that there is room
  obtain ⟨key, hkey, f', hf', hfirst⟩ := hnamed f.offset ⟨le_rfl, Nat.lt_add_of_pos_right hpos⟩
  obtain rfl := EnvField.eq_of_has hfirst f.has_offset
  have hsame : key = e.1 := by rw [← EnvField.key_of_ofKey hf', EnvField.key_of_ofKey hf]
  obtain ⟨key', hkey', f'', hf'', hlast⟩ :=
    hnamed (f'.offset + (f'.stored I v).length - 1) ⟨by dsimp only; omega, by dsimp only; omega⟩
  rw [hkey] at hkey'
  cases hkey'
  rw [hf'] at hf''
  cases hf''
  refine ⟨by rw [hkey, hsame], v, hv, (EnvField.length_stored_le_iff I f' v).mp ?_⟩
  have hend := hlast.2
  omega

end

/-- **The environment**: every line sets the field that it names, and no other, exactly when each
setting in it has the key of the line and a value that fits. -/
theorem touchesNamedField_iff (I : Inet) (text : List UInt8) :
    TouchesNamedField I text ↔ WellKeyed text := by
  constructor
  · exact TouchesNamedField.wellKeyed
  · intro h
    refine ⟨fun env => ?_, fun line hline env env' henv x hx => ?_, fun text' horder env => ?_⟩
    · rw [readEnvConfig_eq h.allGiven]
      exact Option.some_ne_none _
    · have hline' : AllGiven (entries line) :=
        fun e he => h.allGiven e (mem_entries_of_line hline he)
      rw [readEnvConfig_eq hline'] at henv
      cases henv
      exact storeAll_of_not_covers (fun w hw hcovers => hx (h.names hline hw hcovers))
    · rw [readEnvConfig_eq h.allGiven, readEnvConfig_eq (h.of_sameOrder horder).allGiven,
        h.storeAll_eq horder]

/-- A name of twenty letters. -/
def twentyLetters : List UInt8 := cbytes "abcdefghijklmnopqrst"

/-- An `inet_addr` that gives the same address for every text. -/
def oneAddress : Inet := ⟨fun _ => cbytes "0.0.0.0", fun _ => 0⟩

/-- The zero behind a name of twenty letters lies in the field of the product; a key without a value
makes the reader use `NULL`. -/
theorem touchesNamedField_wrong :
    ¬ TouchesNamedField oneAddress (cbytes "manufacturer " ++ twentyLetters) ∧
      ¬ TouchesNamedField oneAddress (cbytes "pan\n") := by
  refine ⟨fun h => ?_, fun h => ?_⟩
  · have hline := h.wellKeyed (cbytes "manufacturer " ++ twentyLetters) (by decide)
    obtain ⟨-, v, hv, hfits⟩ :=
      hline (cbytes "manufacturer", some twentyLetters) (by decide) .manufacturer (by decide)
    cases hv
    exact absurd (hfits (Or.inl rfl)) (by decide)
  · exact h.defined (fun _ => 0) rfl

end IdcuIot
