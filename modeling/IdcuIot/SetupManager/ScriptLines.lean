import IdcuIot.SetupManager.SecurityScript

/-! # SetupManager: the lines of the script

`WriteSecurityScript` prints the SSID and the key between quotes as they came in, with all their
control characters and quotes.  `scriptIsBlock_iff` says for which structures the file is one
network block with the lines of its mode, and no others. -/

namespace IdcuIot.SetupManager

open Memory CString Tokens Lines

/-! ### What the script should be -/

/-- The key of a line of the script. -/
def lineKey (line : List UInt8) : List UInt8 := line.takeWhile (· ≠ 0x3D)

/-- The keys of the mode that `key_mgmt` and `group` select. -/
def modeKeys (keyMgmt group : UInt8) : List (List UInt8) :=
  cbytes "ssid" :: ((if keyMgmt ≤ 2 then [cbytes "key_mgmt"] else []) ++ cbytes "auth_alg" ::
    (if keyMgmt = 1 then
      if group = 3 ∨ group = 4 then [cbytes "group", cbytes "wep_key0"] else []
    else if keyMgmt = 2 then [cbytes "psk"] else []))

/-- Read line by line, the text is one block with the keys, each once, and the quotes in each of
its lines are balanced. -/
def IsBlock (keys : List (List UInt8)) (text : List UInt8) : Prop :=
  ∃ body, text.splitOn 0x0A = cbytes "network=\x7b" :: (body ++ [cbytes "\x7d"]) ∧
    (body.map lineKey).Perm keys ∧ ∀ line ∈ body, Even (line.count 0x22)

/-- `SETLANINFO`: the script that is written after the configuration is a block of the mode. -/
def ScriptIsBlock (limit : ℕ) (sec : Mem) : Prop :=
  ∃ config script, writeSecurityConfigFile limit sec = some config ∧
    writeSecurityScript limit config.sec = some script ∧
    IsBlock (modeKeys (config.sec keyMgmtAt) (config.sec groupAt)) script.text

/-- The value ends no line, and its quotes are balanced. -/
def LineSafe (v : List UInt8) : Prop := 0x0A ∉ v ∧ Even (v.count 0x22)

instance : DecidablePred LineSafe := fun _ => instDecidableAnd

/-- The first word of a field. -/
def fieldWord (limit : ℕ) (m : Mem) (a : ℕ) : List UInt8 := first 0x20 (cstr m a limit)

/-- The structure with a zero behind the first word of the SSID. -/
def closeSsid (limit : ℕ) (sec : Mem) : Mem := sec.store (firstEnd 0x20 (cstr sec 0 limit)) [0]

/-! ### Lines of a block -/

/-- A key that is printed as it is. -/
def PlainKey (key : List UInt8) : Prop := ∀ b ∈ key, b ≠ 0x0A ∧ b ≠ 0x22 ∧ b ≠ 0x3D

instance : DecidablePred PlainKey := fun key => List.decidableBAll _ key

section
variable {settings : List Setting} {s : Setting}

theorem lineKey_script (h : PlainKey s.key) : lineKey s.script = s.key := by
  rw [lineKey, Setting.script, takeWhile_ne_append (fun hmem => (h _ hmem).2.2 rfl)]
  simp

theorem splitOn_scriptText (settings : List Setting) : (scriptText settings).splitOn 0x0A =
    cbytes "network=\x7b" :: ((settings.map Setting.script).flatMap (List.splitOn 0x0A) ++
      [cbytes "\x7d"]) := by
  have hopen : cbytes "network=\x7b\n" = cbytes "network=\x7b" ++ [0x0A] := by decide
  have hfirst : (cbytes "network=\x7b").splitOn 0x0A = [cbytes "network=\x7b"] := by decide
  have hlast : (cbytes "\x7d").splitOn 0x0A = [cbytes "\x7d"] := by decide
  have hrows := splitOn_rows 0x0A (settings.map Setting.script) (cbytes "\x7d")
  rw [List.flatMap_map] at hrows
  rw [scriptText, hopen, List.append_assoc, List.singleton_append, List.splitOn_append_cons_self,
    hrows, hfirst, hlast, List.singleton_append]

/-- **A block**: the lines are the settings when no setting has an end of line in it. -/
theorem isBlock_scriptText_iff (hkeys : ∀ s ∈ settings, PlainKey s.key) :
    IsBlock (settings.map Setting.key) (scriptText settings) ↔
      ∀ s ∈ settings, LineSafe s.script := by
  rw [IsBlock, splitOn_scriptText]
  have hmap : (settings.map Setting.script).map lineKey = settings.map Setting.key := by
    rw [List.map_map]
    exact List.map_congr_left (fun s hs => lineKey_script (hkeys s hs))
  constructor
  · rintro ⟨body, hbody, hperm, heven⟩
    obtain rfl := List.append_cancel_right (List.cons.inj hbody).2
    have hlength := hperm.length_eq
    rw [List.length_map, List.length_map, ← List.length_map (f := Setting.script),
      length_splitOn_rows_iff] at hlength
    rw [splitOn_rows_of_notMem hlength] at heven
    exact fun s hs => ⟨hlength _ (List.mem_map_of_mem hs), heven _ (List.mem_map_of_mem hs)⟩
  · intro h
    have hrows : ∀ r ∈ settings.map Setting.script, (0x0A : UInt8) ∉ r := by
      simpa using fun s hs => (h s hs).1
    rw [splitOn_rows_of_notMem hrows]
    refine ⟨_, rfl, by rw [hmap], ?_⟩
    simpa using fun s hs => (h s hs).2

theorem lineSafe_script_iff {key v : List UInt8} (hkey : PlainKey key) :
    LineSafe (Setting.script ⟨key, v, true⟩) ↔ LineSafe v := by
  have hlf : (0x0A : UInt8) ∉ key := fun h => (hkey _ h).1 rfl
  have hquote : key.count 0x22 = 0 := List.count_eq_zero.mpr (fun h => (hkey _ h).2.1 rfl)
  simp [LineSafe, Setting.script, hlf, hquote, Nat.even_add_one]

theorem lineSafe_printed_iff (t : List UInt8) :
    LineSafe (printed (if t = [] then none else some t)) ↔ LineSafe t := by
  split_ifs with h
  · subst h
    decide
  · rfl

end

/-! ### The settings of a structure -/

section
variable {m m' sec : Mem} {a limit : ℕ} {r : StrTok} {keys settings : List Setting}

/-- What `strtok` makes of a field: its first word, and a zero behind it. -/
theorem tokenBefore_word (h : tokenBefore limit m a = some r) :
    r.token = (if fieldWord limit m a = [] then none else some (fieldWord limit m a)) ∧
      r.mem = m.store (a + firstEnd 0x20 (cstr m a limit)) [0] := by
  unfold tokenBefore at h
  split_ifs at h with hend
  obtain rfl := Option.some.inj h
  obtain ⟨n, t, -, ht, hlen, htoken, hstring, hsame | ⟨-, hstore⟩⟩ := strtok_leaves hend
  · refine ⟨by rw [htoken, fieldWord, ← ht], ?_⟩
    have hstop := hstring.stop
    rw [hsame, List.length_append, List.length_replicate, hlen] at hstop
    rw [hsame, Mem.store_of_slice (by simp [Mem.slice, hstop])]
  · exact ⟨by rw [htoken, fieldWord, ← ht], by rw [hstore, hlen]⟩

/-- The key and its group are safe when the word of the key is. -/
theorem keySettings_safe_iff (h : keySettings limit m = some (keys, m')) :
    (∀ s ∈ keys, LineSafe s.script) ↔ ∀ a ∈ keyAt m, LineSafe (fieldWord limit m a) := by
  rw [keySettings_eq] at h
  cases hkey : keyAt m with
  | none =>
      rw [hkey] at h
      cases h
      simp
  | some a =>
      rw [hkey] at h
      obtain ⟨r, hr, hpair⟩ := Option.map_eq_some_iff.mp h
      cases hpair
      have hgroup : ∀ s ∈ groupSettings m, LineSafe s.script := by
        unfold groupSettings
        split_ifs <;> simp <;> decide
      have hname : PlainKey (keyName m) := by
        unfold keyName
        split_ifs <;> decide
      rw [List.forall_mem_append, List.forall_mem_singleton, lineSafe_script_iff hname,
        (tokenBefore_word hr).1, lineSafe_printed_iff, and_iff_right hgroup]
      simp

/-- The settings are safe when the words of the SSID and of the key are. -/
theorem settings_safe_iff (h : securitySettings limit sec = some (settings, m)) :
    (∀ s ∈ settings, LineSafe s.script) ↔ LineSafe (fieldWord limit sec 0) ∧
      ∀ a ∈ keyAt (closeSsid limit sec), LineSafe (fieldWord limit (closeSsid limit sec) a) := by
  obtain ⟨r, keys, hr, hkeys, rfl⟩ := securitySettings_eq_some.mp h
  obtain ⟨htoken, hmem⟩ := tokenBefore_word hr
  have hclosed : r.mem = closeSsid limit sec := by rw [hmem, Nat.zero_add, closeSsid]
  have hmgmt : ∀ s ∈ keyMgmtSettings (r.mem keyMgmtAt), LineSafe s.script := by
    unfold keyMgmtSettings
    split_ifs <;> simp <;> decide
  have hauth : LineSafe (Setting.script ⟨cbytes "auth_alg", cbytes "OPEN", false⟩) := by decide
  rw [List.forall_mem_cons, List.forall_mem_append, List.forall_mem_cons,
    lineSafe_script_iff (by decide), htoken, lineSafe_printed_iff, keySettings_safe_iff hkeys,
    and_iff_right hmgmt, and_iff_right hauth, hclosed]

theorem key_keySettings (h : keySettings limit m = some (keys, m')) :
    keys.map Setting.key = if m keyMgmtAt = 1 then
      if m groupAt = 3 ∨ m groupAt = 4 then [cbytes "group", cbytes "wep_key0"] else []
    else if m keyMgmtAt = 2 then [cbytes "psk"] else [] := by
  unfold keySettings stringSetting at h
  by_cases hwep : m keyMgmtAt = 1
  · rw [if_pos hwep] at h ⊢
    by_cases h3 : m groupAt = 3
    · rw [if_pos h3, Option.map_map] at h
      obtain ⟨r, -, hpair⟩ := Option.map_eq_some_iff.mp h
      cases hpair
      rw [if_pos (Or.inl h3)]
      rfl
    · rw [if_neg h3] at h
      by_cases h4 : m groupAt = 4
      · rw [if_pos h4, Option.map_map] at h
        obtain ⟨r, -, hpair⟩ := Option.map_eq_some_iff.mp h
        cases hpair
        rw [if_pos (Or.inr h4)]
        rfl
      · rw [if_neg h4] at h
        cases h
        rw [if_neg (not_or.mpr ⟨h3, h4⟩)]
        rfl
  · rw [if_neg hwep] at h ⊢
    by_cases hpsk : m keyMgmtAt = 2
    · rw [if_pos hpsk, Option.map_map] at h
      obtain ⟨r, -, hpair⟩ := Option.map_eq_some_iff.mp h
      cases hpair
      rw [if_pos hpsk]
      rfl
    · rw [if_neg hpsk] at h
      cases h
      rw [if_neg hpsk]
      rfl

theorem key_keyMgmtSettings (keyMgmt : UInt8) : (keyMgmtSettings keyMgmt).map Setting.key =
    if keyMgmt ≤ 2 then [cbytes "key_mgmt"] else [] := by
  unfold keyMgmtSettings
  by_cases h : keyMgmt = 0 ∨ keyMgmt = 1 ∨ keyMgmt = 2
  · rcases h with rfl | rfl | rfl <;> rfl
  · simp only [not_or] at h
    have hlarge : ¬ keyMgmt ≤ 2 := by
      obtain ⟨h0, h1, h2⟩ := h
      rw [← UInt8.toNat_inj] at h0 h1 h2
      rw [UInt8.le_iff_toNat_le]
      simp only [UInt8.reduceToNat] at *
      omega
    rw [if_neg h.1, if_neg h.2.1, if_neg h.2.2, if_neg hlarge]
    rfl

theorem key_settings (h : securitySettings limit sec = some (settings, m)) :
    settings.map Setting.key = modeKeys (m keyMgmtAt) (m groupAt) := by
  obtain ⟨r, keys, hr, hkeys, rfl⟩ := securitySettings_eq_some.mp h
  obtain ⟨n, t, hd, -, -, hssid, -⟩ := tokenBefore_leaves hr
  obtain ⟨-, hflags, -⟩ := keySettings_leaves hd hssid hkeys
  rw [List.map_cons, List.map_append, List.map_cons, key_keyMgmtSettings, key_keySettings hkeys,
    hflags keyMgmtAt (by decide), hflags groupAt (by decide), modeKeys]

theorem plainKey_modeKeys (keyMgmt group : UInt8) :
    ∀ key ∈ modeKeys keyMgmt group, PlainKey key := by
  unfold modeKeys
  split_ifs <;> simp <;> decide

theorem scriptIsBlock_iff_words (h : securitySettings limit sec = some (settings, m)) :
    ScriptIsBlock limit sec ↔ LineSafe (fieldWord limit sec 0) ∧
      ∀ a ∈ keyAt (closeSsid limit sec), LineSafe (fieldWord limit (closeSsid limit sec) a) := by
  have hconfig : writeSecurityConfigFile limit sec = some ⟨configText settings, m⟩ := by
    simp only [writeSecurityConfigFile, h, Option.map_some]
  have hscript : writeSecurityScript limit m = some ⟨scriptText settings, m⟩ := by
    simp only [writeSecurityScript, securitySettings_again h, Option.map_some]
  have hblock : ScriptIsBlock limit sec ↔
      IsBlock (modeKeys (m keyMgmtAt) (m groupAt)) (scriptText settings) := by
    simp [ScriptIsBlock, hconfig, hscript]
  have hplain : ∀ s ∈ settings, PlainKey s.key := by
    intro s hs
    have hmem := List.mem_map_of_mem (f := Setting.key) hs
    rw [key_settings h] at hmem
    exact plainKey_modeKeys _ _ _ hmem
  rw [hblock, ← key_settings h, isBlock_scriptText_iff hplain, settings_safe_iff h]

/-- **The script is one block** of the mode exactly when the first words of the SSID and of the key
end no line and have balanced quotes. -/
theorem scriptIsBlock_iff (sec : Mem) {z : ℕ} (hend : securityEnd ≤ z) (hz : sec z = 0) :
    ScriptIsBlock (z + 1) sec ↔ LineSafe (fieldWord (z + 1) sec 0) ∧
      ∀ a ∈ keyAt (closeSsid (z + 1) sec),
        LineSafe (fieldWord (z + 1) (closeSsid (z + 1) sec) a) := by
  obtain ⟨settings, m, h⟩ := exists_securitySettings hz hend
  exact scriptIsBlock_iff_words h

end

theorem scriptIsBlock_someNetwork :
    ScriptIsBlock 141 someNetwork ↔ LineSafe (fieldWord 141 someNetwork 0) ∧
      ∀ a ∈ keyAt (closeSsid 141 someNetwork),
        LineSafe (fieldWord 141 (closeSsid 141 someNetwork) a) :=
  scriptIsBlock_iff someNetwork (z := 140) (by decide) (by decide)

/-- An open network whose name goes on in the next line: `a"`, `disabled="1`. -/
def twoLines : Mem := strcpy (fun _ => 0) 0 (cbytes "a\"\ndisabled=\"1")

/-- The name adds a line with a key of its own. -/
theorem not_scriptIsBlock_twoLines : ¬ ScriptIsBlock 141 twoLines := by
  have hz : twoLines 140 = 0 := by decide
  obtain ⟨settings, m, h⟩ := exists_securitySettings hz le_rfl
  rw [scriptIsBlock_iff_words h]
  rintro ⟨⟨hlf, -⟩, -⟩
  have hname : cstr twoLines 0 141 = cbytes "a\"\ndisabled=\"1" :=
    (isString_strcpy _ 0 (by decide)).cstr_eq (by decide)
  rw [fieldWord, hname] at hlf
  revert hlf
  decide

end IdcuIot.SetupManager
