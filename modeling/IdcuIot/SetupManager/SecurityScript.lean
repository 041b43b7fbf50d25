import IdcuIot.SetupManager.SecurityConfig

/-! # SetupManager: the script of the wireless network

`SETLANINFO` writes the security settings twice: `WriteSecurityConfig` for the display, and
`WriteSecurityScript` for `wpa_supplicant`.  Both print the same values in the same order, and both
call `strtok`, which stores zeros into the structure that the second one reads.
`script_agrees_config` is that the second file has the settings of the first one all the same. -/

namespace IdcuIot.SetupManager

open Memory CString Tokens

/-! ### Two writers -/

/-- A line of the files: the string values are printed between quotes in the script. -/
structure Setting where
  key : List UInt8
  value : List UInt8
  isString : Bool
deriving DecidableEq

/-- `"key %s\n"`. -/
def Setting.configLine (s : Setting) : List UInt8 := SetupManager.configLine s.key s.value

/-- `"key=%s"`, or `"key=\"%s\""`. -/
def Setting.script (s : Setting) : List UInt8 :=
  s.key ++ 0x3D :: (if s.isString then 0x22 :: (s.value ++ [0x22]) else s.value)

/-- The text of `security.config`. -/
def configText (settings : List Setting) : List UInt8 := settings.flatMap Setting.configLine

/-- The text of `wpa_supplicant.conf`. -/
def scriptText (settings : List Setting) : List UInt8 :=
  cbytes "network=\x7b\n" ++ (settings.flatMap (fun s => s.script ++ [0x0A]) ++ cbytes "\x7d")

/-- `strtok( field, " " )` for a field at `a` in a memory that ends before `limit`. -/
def tokenBefore (limit : ℕ) (m : Mem) (a : ℕ) : Option StrTok :=
  if a + firstEnd 0x20 (cstr m a limit) < limit then some (strtok 0x20 limit m a) else none

/-- The token of a field at `a`, printed under a key, and the structure as `strtok` leaves it. -/
def stringSetting (limit : ℕ) (key : List UInt8) (m : Mem) (a : ℕ) : Option (Setting × Mem) :=
  (tokenBefore limit m a).map (fun r => (⟨key, printed r.token, true⟩, r.mem))

/-- The `switch( security->key_mgmt )`. -/
def keyMgmtSettings (keyMgmt : UInt8) : List Setting :=
  if keyMgmt = 0 then [⟨cbytes "key_mgmt", cbytes "NONE", false⟩]
  else if keyMgmt = 1 then [⟨cbytes "key_mgmt", cbytes "NONE", false⟩]
  else if keyMgmt = 2 then [⟨cbytes "key_mgmt", cbytes "WPA-PSK", false⟩]
  else []

/-- The settings of the group and the key. -/
def keySettings (limit : ℕ) (m : Mem) : Option (List Setting × Mem) :=
  if m keyMgmtAt = 1 then
    if m groupAt = 3 then (stringSetting limit (cbytes "wep_key0") m (wep104At 0)).map (fun k =>
      ([⟨cbytes "group", cbytes "WEP104", false⟩, k.1], k.2))
    else if m groupAt = 4 then (stringSetting limit (cbytes "wep_key0") m (wep40At 0)).map (fun k =>
      ([⟨cbytes "group", cbytes "WEP40", false⟩, k.1], k.2))
    else some ([], m)
  else if m keyMgmtAt = 2 then (stringSetting limit (cbytes "psk") m pskAt).map (fun k => ([k.1], k.2))
  else some ([], m)

/-- What both writers print, and the structure as they leave it. -/
def securitySettings (limit : ℕ) (sec : Mem) : Option (List Setting × Mem) := do
  let ssid ← stringSetting limit (cbytes "ssid") sec 0
  let keys ← keySettings limit ssid.2
  return (ssid.1 :: (keyMgmtSettings (ssid.2 keyMgmtAt) ++
    (⟨cbytes "auth_alg", cbytes "OPEN", false⟩ :: keys.1)), keys.2)

/-- A file, and the structure after it has been written. -/
structure Written where
  text : List UInt8
  sec : Mem

/-- `WriteSecurityConfig`, with the structure that it leaves. -/
def writeSecurityConfigFile (limit : ℕ) (sec : Mem) : Option Written :=
  (securitySettings limit sec).map (fun s => ⟨configText s.1, s.2⟩)

/-- `WriteSecurityScript`. -/
def writeSecurityScript (limit : ℕ) (sec : Mem) : Option Written :=
  (securitySettings limit sec).map (fun s => ⟨scriptText s.1, s.2⟩)

/-! ### The body of the second writer -/

/-- `fprintf( config_fp, s )`. -/
def Written.fprintf (w : Written) (s : List UInt8) : Written := { w with text := w.text ++ s }

/-- `token = strtok( field, " " )` for the field at `a`, and an `fprintf` with `%s` for the token. -/
def Written.fprintfToken (limit : ℕ) (w : Written) (a : ℕ) (format : List UInt8 → List UInt8) :
    Option Written :=
  (tokenBefore limit w.sec a).map (fun r => ⟨w.text ++ format (printed r.token), r.mem⟩)

/-- The `switch( security->key_mgmt )` of `WriteSecurityScript`. -/
def Written.fprintfKeyMgmt (w : Written) : Written :=
  if w.sec keyMgmtAt = 0 then w.fprintf (cbytes "key_mgmt=NONE\n")
  else if w.sec keyMgmtAt = 1 then w.fprintf (cbytes "key_mgmt=NONE\n")
  else if w.sec keyMgmtAt = 2 then w.fprintf (cbytes "key_mgmt=WPA-PSK\n")
  else w

/-- The group and the key in `WriteSecurityScript`. -/
def Written.fprintfKeys (limit : ℕ) (w : Written) : Option Written :=
  if w.sec keyMgmtAt = 1 then
    if w.sec groupAt = 3 then
      (w.fprintf (cbytes "group=WEP104\n")).fprintfToken limit (wep104At 0)
        (fun t => cbytes "wep_key0=\"" ++ t ++ cbytes "\"\n")
    else if w.sec groupAt = 4 then
      (w.fprintf (cbytes "group=WEP40\n")).fprintfToken limit (wep40At 0)
        (fun t => cbytes "wep_key0=\"" ++ t ++ cbytes "\"\n")
    else some w
  else if w.sec keyMgmtAt = 2 then
    w.fprintfToken limit pskAt (fun t => cbytes "psk=\"" ++ t ++ cbytes "\"\n")
  else some w

/-- `WriteSecurityScript`, one `fprintf` after the other. -/
def writeSecurityScriptBody (limit : ℕ) (sec : Mem) : Option Written := do
  let opened := Written.fprintf ⟨[], sec⟩ (cbytes "network=\x7b\n")
  let ssid ← opened.fprintfToken limit 0 (fun t => cbytes "ssid=\"" ++ t ++ cbytes "\"\n")
  let keys ← (ssid.fprintfKeyMgmt.fprintf (cbytes "auth_alg=OPEN\n")).fprintfKeys limit
  return keys.fprintf (cbytes "\x7d")

/-- The lines of the script for some settings. -/
def scriptLines (settings : List Setting) : List UInt8 :=
  settings.flatMap (fun s => s.script ++ [0x0A])

theorem scriptLines_append (l l' : List Setting) :
    scriptLines (l ++ l') = scriptLines l ++ scriptLines l' := List.flatMap_append

theorem fprintfToken_eq (limit : ℕ) (w : Written) (a : ℕ) {key format : List UInt8}
    (hformat : format = key ++ [0x3D, 0x22]) :
    w.fprintfToken limit a (fun t => format ++ t ++ cbytes "\"\n") =
      (stringSetting limit key w.sec a).map (fun s => ⟨w.text ++ scriptLines [s.1], s.2⟩) := by
  subst hformat
  have hquote : cbytes "\"\n" = [0x22, 0x0A] := by decide
  simp [Written.fprintfToken, stringSetting, Option.map_map, Function.comp_def, scriptLines,
    Setting.script, hquote]

theorem fprintfKeyMgmt_eq (w : Written) :
    w.fprintfKeyMgmt = w.fprintf (scriptLines (keyMgmtSettings (w.sec keyMgmtAt))) := by
  have hnone : cbytes "key_mgmt=NONE\n" =
      scriptLines [⟨cbytes "key_mgmt", cbytes "NONE", false⟩] := by decide
  have hpsk : cbytes "key_mgmt=WPA-PSK\n" =
      scriptLines [⟨cbytes "key_mgmt", cbytes "WPA-PSK", false⟩] := by decide
  unfold Written.fprintfKeyMgmt keyMgmtSettings
  rw [hnone, hpsk]
  split_ifs
  · rfl
  · rfl
  · rfl
  · simp [Written.fprintf, scriptLines]

theorem fprintfKeys_eq (limit : ℕ) (w : Written) : w.fprintfKeys limit =
    (keySettings limit w.sec).map (fun s => ⟨w.text ++ scriptLines s.1, s.2⟩) := by
  have h104 : cbytes "group=WEP104\n" =
      scriptLines [⟨cbytes "group", cbytes "WEP104", false⟩] := by decide
  have h40 : cbytes "group=WEP40\n" =
      scriptLines [⟨cbytes "group", cbytes "WEP40", false⟩] := by decide
  have hsame : some w = some (⟨w.text ++ scriptLines [], w.sec⟩ : Written) := by
    rw [scriptLines, List.flatMap_nil, List.append_nil]
  have hgroup : ∀ (v : Setting) (a : ℕ),
      (w.fprintf (scriptLines [v])).fprintfToken limit a
          (fun t => cbytes "wep_key0=\"" ++ t ++ cbytes "\"\n") =
        ((stringSetting limit (cbytes "wep_key0") w.sec a).map (fun k =>
          (([v, k.1], k.2) : List Setting × Mem))).map
            (fun s => ⟨w.text ++ scriptLines s.1, s.2⟩) := by
    intro v a
    rw [fprintfToken_eq _ _ _ (show _ = cbytes "wep_key0" ++ _ by decide), Option.map_map]
    simp only [Written.fprintf, List.append_assoc, ← scriptLines_append]
    rfl
  have hpsk := fprintfToken_eq limit w pskAt
    (show cbytes "psk=\"" = cbytes "psk" ++ _ by decide)
  unfold Written.fprintfKeys keySettings
  rw [h104, h40]
  split_ifs
  · exact hgroup _ _
  · exact hgroup _ _
  · exact hsame
  · rw [hpsk, Option.map_map]
    rfl
  · exact hsame

/-- What the `fprintf`s of the body give is the text of the settings. -/
theorem writeSecurityScriptBody_eq (limit : ℕ) (sec : Mem) :
    writeSecurityScriptBody limit sec = writeSecurityScript limit sec := by
  have hssid := fprintfToken_eq limit (Written.fprintf ⟨[], sec⟩ (cbytes "network=\x7b\n")) 0
    (show cbytes "ssid=\"" = cbytes "ssid" ++ _ by decide)
  have hauth : cbytes "auth_alg=OPEN\n" =
      scriptLines [⟨cbytes "auth_alg", cbytes "OPEN", false⟩] := by decide
  unfold writeSecurityScriptBody writeSecurityScript securitySettings
  dsimp only
  rw [hssid]
  simp only [hauth, fprintfKeyMgmt_eq, fprintfKeys_eq, Written.fprintf]
  cases stringSetting limit (cbytes "ssid") sec 0 with
  | none => rfl
  | some ssid =>
      simp only [Option.map_some, Option.bind_eq_bind, Option.bind_some]
      cases keySettings limit ssid.2 with
      | none => rfl
      | some keys => simp [scriptText, scriptLines]

theorem map_stringSetting (key : List UInt8) (m : Mem) (a : ℕ) (f : List UInt8 → List UInt8) :
    (stringSetting deviceEnd key m a).map (fun s => f s.1.configLine) =
      (fieldPrinted m a).map (fun t => f (configLine key t)) := by
  simp only [stringSetting, fieldPrinted, fieldToken, tokenBefore, Option.map_map]
  rfl

theorem map_keySettings (m : Mem) :
    (keySettings deviceEnd m).map (fun s => configText s.1) = keyLines m := by
  have hgroup : ∀ (v : List UInt8) (a : ℕ),
      ((stringSetting deviceEnd (cbytes "wep_key0") m a).map (fun k =>
        (([⟨cbytes "group", v, false⟩, k.1], k.2) : List Setting × Mem))).map
          (fun s => configText s.1) =
      (fieldPrinted m a).map (fun t =>
        configLine (cbytes "group") v ++ configLine (cbytes "wep_key0") t) := by
    intro v a
    rw [← map_stringSetting _ _ _ (configLine (cbytes "group") v ++ ·), Option.map_map]
    congr 1
    funext k
    simp [configText, Setting.configLine]
  have hpsk : ((stringSetting deviceEnd (cbytes "psk") m pskAt).map (fun k =>
      (([k.1], k.2) : List Setting × Mem))).map (fun s => configText s.1) =
      (fieldPrinted m pskAt).map (configLine (cbytes "psk")) := by
    have hline := map_stringSetting (cbytes "psk") m pskAt id
    simp only [id_eq] at hline
    rw [← hline, Option.map_map]
    congr 1
    funext k
    simp [configText]
  unfold keySettings keyLines
  split_ifs
  · exact hgroup _ _
  · exact hgroup _ _
  · rfl
  · exact hpsk
  · rfl

theorem configText_keyMgmt (keyMgmt : UInt8) :
    configText (keyMgmtSettings keyMgmt) = keyMgmtLine keyMgmt := by
  unfold keyMgmtSettings keyMgmtLine
  split_ifs <;> simp [configText, Setting.configLine]

/-- The text of the first writer, as it is modelled for a `DEVINFO`. -/
theorem text_writeSecurityConfigFile (sec : Mem) :
    (writeSecurityConfigFile deviceEnd sec).map Written.text = writeSecurityConfig sec := by
  unfold writeSecurityConfigFile securitySettings writeSecurityConfig stringSetting
  change _ = (tokenBefore deviceEnd sec 0).bind _
  cases tokenBefore deviceEnd sec 0 with
  | none => rfl
  | some r =>
      have hkeys := map_keySettings r.mem
      simp only [Option.map_some, Option.bind_eq_bind, Option.bind_some, ← hkeys]
      cases keySettings deviceEnd r.mem with
      | none => rfl
      | some keys =>
          have hmgmt := configText_keyMgmt (r.mem keyMgmtAt)
          unfold configText at hmgmt
          simp [configText, hmgmt, Setting.configLine]

/-! ### The key -/

/-- The group that is printed with a WEP key. -/
def groupSettings (m : Mem) : List Setting :=
  if m keyMgmtAt = 1 then
    [⟨cbytes "group", if m groupAt = 3 then cbytes "WEP104" else cbytes "WEP40", false⟩]
  else []

/-- The name of the key. -/
def keyName (m : Mem) : List UInt8 :=
  if m keyMgmtAt = 1 then cbytes "wep_key0" else cbytes "psk"

theorem keySettings_eq (limit : ℕ) (m : Mem) :
    keySettings limit m = match keyAt m with
      | none => some ([], m)
      | some a => (tokenBefore limit m a).map (fun r =>
          (groupSettings m ++ [⟨keyName m, printed r.token, true⟩], r.mem)) := by
  unfold keySettings keyAt groupSettings keyName stringSetting
  split_ifs <;> simp [Option.map_map, Function.comp_def]

/-- A key is printed for the modes `1` and `2`, and lies behind the flags. -/
theorem of_keyAt {m : Mem} {a : ℕ} (h : keyAt m = some a) :
    m keyMgmtAt ≠ 0x20 ∧ keyFlagAt < a ∧ a < securityEnd := by
  unfold keyAt at h
  split_ifs at h with h1 h3 h4 h2
  all_goals
    cases h
    refine ⟨fun hspace => ?_, by decide, by decide⟩
    simp [hspace] at *

/-! ### What `strtok` leaves -/

section
variable {m m' sec : Mem} {a n limit : ℕ} {t : List UInt8} {r : StrTok}

/-- The token of a field: blanks and the token stay in the structure, and at most the blank behind
it has become a zero. -/
theorem tokenBefore_leaves (h : tokenBefore limit m a = some r) :
    ∃ n t, (0x20 : UInt8) ∉ t ∧ a + (n + t.length) < limit ∧
      r.token = (if t = [] then none else some t) ∧
      IsString r.mem a (List.replicate n 0x20 ++ t) ∧
      (r.mem = m ∨ m (a + (n + t.length)) = 0x20 ∧
        r.mem = m.store (a + (n + t.length)) [0]) := by
  unfold tokenBefore at h
  split_ifs at h with hend
  obtain rfl := Option.some.inj h
  obtain ⟨n, t, hd, -, hlen, htoken, hstring, hmem⟩ := strtok_leaves hend
  exact ⟨n, t, hd, by omega, htoken, hstring, hmem⟩

theorem tokenBefore_again (hd : (0x20 : UInt8) ∉ t)
    (h : IsString m a (List.replicate n 0x20 ++ t)) (hlimit : a + (n + t.length) < limit) :
    tokenBefore limit m a = some ⟨if t = [] then none else some t, a + (n + t.length), m⟩ := by
  have hcall := strtok_isString hd h hlimit
  have hcstr : cstr m a limit = List.replicate n 0x20 ++ t := h.cstr_eq (by
    rw [List.length_append, List.length_replicate]
    exact hlimit)
  have hend : firstEnd 0x20 (cstr m a limit) = n + t.length := by
    rw [hcstr]
    by_cases ht : t = []
    · subst ht
      rw [List.append_nil, firstEnd_blank]
      rfl
    · exact firstEnd_last n ht hd
  unfold tokenBefore
  rw [if_pos (by rwa [hend]), hcall]

/-- A zero that the key's `strtok` has stored does not lie in the string of the SSID. -/
theorem isString_store_behind_flags (h : IsString m 0 (List.replicate n 0x20 ++ t))
    (hd : (0x20 : UInt8) ∉ t) (hmode : m keyMgmtAt ≠ 0x20) {x : ℕ} (hx : keyFlagAt < x)
    (hspace : m x = 0x20) : IsString (m.store x [0]) 0 (List.replicate n 0x20 ++ t) := by
  have hlen : (List.replicate n (0x20 : UInt8) ++ t).length = n + t.length := by simp
  have hread : ∀ k (hk : k < (List.replicate n (0x20 : UInt8) ++ t).length),
      m k = (List.replicate n (0x20 : UInt8) ++ t)[k] := by
    intro k hk
    have hbyte := Mem.eq_getElem_of_slice h.bytes hk
    rwa [Nat.zero_add] at hbyte
  have hflag : keyMgmtAt < keyFlagAt := by decide
  -- the blanks in front of the SSID end before `key_mgmt`
  have hblanks : n ≤ keyMgmtAt := by
    by_contra hlong
    apply hmode
    rw [hread keyMgmtAt (by omega),
      List.getElem_append_left (by simpa using Nat.lt_of_not_le hlong)]
    exact List.getElem_replicate _
  have hbehind : n + t.length < x := by
    by_contra hle
    rcases Nat.lt_or_eq_of_le (Nat.not_lt.mp hle) with hlt | rfl
    · rw [hread x (hlen.symm ▸ hlt),
        List.getElem_append_right (by simp only [List.length_replicate]; omega)] at hspace
      exact hd (hspace ▸ List.getElem_mem _)
    · have hstop := h.stop
      rw [Nat.zero_add, hlen, hspace] at hstop
      cases hstop
  exact h.store (Or.inl (by omega))

theorem key_congr (h : ∀ x ≤ keyFlagAt, m' x = m x) :
    keyAt m' = keyAt m ∧ groupSettings m' = groupSettings m ∧ keyName m' = keyName m := by
  have hmgmt := h keyMgmtAt (by decide)
  have hgroup := h groupAt (by decide)
  simp only [keyAt, groupSettings, keyName, hmgmt, hgroup, and_self]

theorem securitySettings_eq_some {settings : List Setting} :
    securitySettings limit sec = some (settings, m) ↔ ∃ r keys, tokenBefore limit sec 0 = some r ∧
      keySettings limit r.mem = some (keys, m) ∧
      settings = ⟨cbytes "ssid", printed r.token, true⟩ ::
        (keyMgmtSettings (r.mem keyMgmtAt) ++ (⟨cbytes "auth_alg", cbytes "OPEN", false⟩ :: keys)) := by
  unfold securitySettings stringSetting
  constructor
  · intro h
    obtain ⟨_, hssid, h⟩ := Option.bind_eq_some_iff.mp h
    obtain ⟨r, hr, rfl⟩ := Option.map_eq_some_iff.mp hssid
    obtain ⟨keys, hkeys, h⟩ := Option.bind_eq_some_iff.mp h
    cases h
    exact ⟨r, keys.1, hr, hkeys, rfl⟩
  · rintro ⟨r, keys, hr, hkeys, rfl⟩
    simp [hr, hkeys]

/-- The key's `strtok` leaves the SSID's string and the flags alone, and finds the same key again. -/
theorem keySettings_leaves {keys : List Setting} (hd : (0x20 : UInt8) ∉ t)
    (hssid : IsString m 0 (List.replicate n 0x20 ++ t)) (h : keySettings limit m = some (keys, m')) :
    IsString m' 0 (List.replicate n 0x20 ++ t) ∧ (∀ x ≤ keyFlagAt, m' x = m x) ∧
      keySettings limit m' = some (keys, m') := by
  have hkeys := h
  rw [keySettings_eq] at hkeys
  cases hkey : keyAt m with
  | none =>
      rw [hkey] at hkeys
      cases hkeys
      exact ⟨hssid, fun _ _ => rfl, h⟩
  | some a =>
      rw [hkey] at hkeys
      obtain ⟨r, hr, hpair⟩ := Option.map_eq_some_iff.mp hkeys
      cases hpair
      obtain ⟨hmode, hbehind, -⟩ := of_keyAt hkey
      obtain ⟨n₂, t₂, hd₂, hlimit₂, htoken₂, hkeyString, hmem⟩ := tokenBefore_leaves hr
      have hssid' : IsString r.mem 0 (List.replicate n 0x20 ++ t) := by
        rcases hmem with hsame | ⟨hspace, hstore⟩
        · rwa [hsame]
        · rw [hstore]
          exact isString_store_behind_flags hssid hd hmode (by omega) hspace
      have hflags : ∀ x ≤ keyFlagAt, r.mem x = m x := by
        intro x hx
        rcases hmem with hsame | ⟨-, hstore⟩
        · rw [hsame]
        · rw [hstore]
          exact Mem.store_of_lt _ _ (by omega)
      obtain ⟨hkeyAt, hgroup, hname⟩ := key_congr hflags
      refine ⟨hssid', hflags, ?_⟩
      rw [keySettings_eq, hkeyAt, hkey, hgroup, hname]
      simp only [tokenBefore_again hd₂ hkeyString hlimit₂, Option.map_some, htoken₂]

/-- **The second writer**: on the structure that the first one leaves, the settings are the same, and
it stays as it is. -/
theorem securitySettings_again {settings : List Setting}
    (h : securitySettings limit sec = some (settings, m)) :
    securitySettings limit m = some (settings, m) := by
  obtain ⟨r, keys, hr, hkeys, rfl⟩ := securitySettings_eq_some.mp h
  obtain ⟨n, t, hd, hlimit, htoken, hssid, -⟩ := tokenBefore_leaves hr
  obtain ⟨hssid', hflags, hkeys'⟩ := keySettings_leaves hd hssid hkeys
  refine securitySettings_eq_some.mpr ⟨_, keys, tokenBefore_again hd hssid' hlimit, hkeys', ?_⟩
  simp only [htoken, hflags keyMgmtAt (by decide)]

theorem exists_tokenBefore {z : ℕ} (hz : m z = 0) (ha : a ≤ z) :
    ∃ r, tokenBefore (z + 1) m a = some r ∧ r.mem z = 0 := by
  obtain ⟨k, rfl⟩ := Nat.exists_eq_add_of_le ha
  have hend := firstEnd_le 0x20 (cstr m a (a + k + 1))
  have hshort : (cstr m a (a + k + 1)).length ≤ k := by
    rw [cstr_of_zero hz (Nat.lt_succ_self _)]
    exact (length_cstr_le m a (a + k)).trans (by omega)
  have hcall : tokenBefore (a + k + 1) m a = some (strtok 0x20 (a + k + 1) m a) :=
    if_pos (by omega)
  refine ⟨_, hcall, ?_⟩
  obtain ⟨n, t, -, -, -, -, hsame | ⟨hspace, hstore⟩⟩ := tokenBefore_leaves hcall
  · rw [hsame, hz]
  · have hne : a + k ≠ a + (n + t.length) := fun h => by rw [← h, hz] at hspace; cases hspace
    rw [hstore]
    rcases Nat.lt_or_gt_of_ne hne with hlt | hgt
    · rw [Mem.store_of_lt m _ hlt, hz]
    · rw [Mem.store_of_le m hgt, hz]

theorem exists_securitySettings {z : ℕ} (hz : sec z = 0) (hend : securityEnd ≤ z) :
    ∃ settings m, securitySettings (z + 1) sec = some (settings, m) := by
  obtain ⟨r, hr, hrz⟩ := exists_tokenBefore hz (Nat.zero_le z)
  cases hkey : keyAt r.mem with
  | none =>
      exact ⟨_, r.mem, securitySettings_eq_some.mpr
        ⟨r, [], hr, by rw [keySettings_eq, hkey], rfl⟩⟩
  | some a =>
      obtain ⟨-, -, ha⟩ := of_keyAt hkey
      obtain ⟨r₂, hr₂, -⟩ := exists_tokenBefore hrz (ha.le.trans hend)
      have hkeys : keySettings (z + 1) r.mem =
          some (groupSettings r.mem ++ [⟨keyName r.mem, printed r₂.token, true⟩], r₂.mem) := by
        rw [keySettings_eq, hkey]
        simp only [hr₂, Option.map_some]
      exact ⟨_, r₂.mem, securitySettings_eq_some.mpr ⟨r, _, hr, hkeys, rfl⟩⟩

/-- **The two files agree**: for every structure that has a zero somewhere behind it, the script has
the settings that the configuration shows. -/
theorem script_agrees_config (sec : Mem) {z : ℕ} (hend : securityEnd ≤ z) (hz : sec z = 0) :
    ∃ settings m, writeSecurityConfigFile (z + 1) sec = some ⟨configText settings, m⟩ ∧
      writeSecurityScript (z + 1) m = some ⟨scriptText settings, m⟩ := by
  obtain ⟨settings, m, h⟩ := exists_securitySettings hz hend
  refine ⟨settings, m, ?_, ?_⟩
  · simp only [writeSecurityConfigFile, h, Option.map_some]
  · simp only [writeSecurityScript, securitySettings_again h, Option.map_some]

end

/-- A structure without zeros, but for one behind it: the network `home` with the passphrase
`open sesame`. -/
def someNetwork : Mem :=
  Mem.store (fun _ => 0) 0 (cbytes "home " ++ List.replicate 27 0x41 ++ [2] ++
    List.replicate 75 0x41 ++ cbytes "open sesame" ++ List.replicate 21 0x41)

theorem script_agrees_config_some :
    ∃ settings m, writeSecurityConfigFile 141 someNetwork = some ⟨configText settings, m⟩ ∧
      writeSecurityScript 141 m = some ⟨scriptText settings, m⟩ :=
  script_agrees_config someNetwork (z := 140) (by decide) (by decide)

end IdcuIot.SetupManager
