import Mathlib.Data.List.DropRight
import IdcuIot.Lib.CString
import IdcuIot.SetupManager.ConfigFile

/-! # SetupManager: security settings

A `security_var` is 140 bytes of a `DEVINFO`, and `strtok` and `strcpy` go from one of its fields
into the next.  `WriteSecurityConfig` and `ReadSecurityConfig` do not agree on the codes of
`key_mgmt`, the reader has no case for `psk`, and it sets `auth_alg` whatever it was:
`security_survives_iff` says what is the same after a write and a read. -/

namespace IdcuIot.SetupManager

open Memory CString Tokens Lines

/-! ### The structure

`ssid` lies at 0, `wep40` at 36 and `wep104` at 56. -/

abbrev keyMgmtAt : ℕ := 32
abbrev authAlgAt : ℕ := 33
abbrev groupAt : ℕ := 34
abbrev keyFlagAt : ℕ := 35
abbrev pskAt : ℕ := 108

/-- `wep40[k]`. -/
abbrev wep40At (k : ℕ) : ℕ := 36 + 5 * k

/-- `wep104[k]`. -/
abbrev wep104At (k : ℕ) : ℕ := 56 + 13 * k

/-- The end of the structure. -/
abbrev securityEnd : ℕ := 140

/-- The end of the `DEVINFO`, which has two more bytes. -/
abbrev deviceEnd : ℕ := 142

/-! ### Writer -/

/-- `strtok( field, " " )` for a field at `a`; not defined where it runs out of the `DEVINFO`. -/
def fieldToken (m : Mem) (a : ℕ) : Option StrTok :=
  if a + firstEnd 0x20 (cstr m a deviceEnd) < deviceEnd then some (strtok 0x20 deviceEnd m a)
  else none

/-- What `%s` prints, also for no string. -/
def printed : Option (List UInt8) → List UInt8
  | some t => t
  | none => cbytes "(null)"

/-- The text that is written for a field at `a`. -/
def fieldPrinted (m : Mem) (a : ℕ) : Option (List UInt8) :=
  (fieldToken m a).map (fun r => printed r.token)

/-- The `switch( security->key_mgmt )`. -/
def keyMgmtLine (keyMgmt : UInt8) : List UInt8 :=
  if keyMgmt = 0 then configLine (cbytes "key_mgmt") (cbytes "NONE")
  else if keyMgmt = 1 then configLine (cbytes "key_mgmt") (cbytes "NONE")
  else if keyMgmt = 2 then configLine (cbytes "key_mgmt") (cbytes "WPA-PSK")
  else []

/-- Where the key lies that is written. -/
def keyAt (m : Mem) : Option ℕ :=
  if m keyMgmtAt = 1 then
    if m groupAt = 3 then some (wep104At 0)
    else if m groupAt = 4 then some (wep40At 0)
    else none
  else if m keyMgmtAt = 2 then some pskAt
  else none

/-- The lines for the group and the key. -/
def keyLines (m : Mem) : Option (List UInt8) :=
  if m keyMgmtAt = 1 then
    if m groupAt = 3 then (fieldPrinted m (wep104At 0)).map (fun t =>
      configLine (cbytes "group") (cbytes "WEP104") ++ configLine (cbytes "wep_key0") t)
    else if m groupAt = 4 then (fieldPrinted m (wep40At 0)).map (fun t =>
      configLine (cbytes "group") (cbytes "WEP40") ++ configLine (cbytes "wep_key0") t)
    else some []
  else if m keyMgmtAt = 2 then (fieldPrinted m pskAt).map (configLine (cbytes "psk"))
  else some []

/-- `WriteSecurityConfig`; the first `strtok` writes into the structure that is read on. -/
def writeSecurityConfig (sec : Mem) : Option (List UInt8) := do
  let r ← fieldToken sec 0
  let keys ← keyLines r.mem
  return configLine (cbytes "ssid") (printed r.token) ++ (keyMgmtLine (r.mem keyMgmtAt) ++
    (configLine (cbytes "auth_alg") (cbytes "OPEN") ++ keys))

/-! ### Reader -/

/-- `check_group`. -/
def checkGroup (value : List UInt8) : UInt8 :=
  if value = cbytes "CCMP" then 1
  else if value = cbytes "TKIP" then 2
  else if value = cbytes "WEP104" then 3
  else if value = cbytes "WEP40" then 4
  else 0

/-- `check_auth_alg`. -/
def checkAuthAlg (value : List UInt8) : UInt8 :=
  if value = cbytes "OPEN" then 0
  else if value = cbytes "SHARED" then 1
  else if value = cbytes "LEAP" then 2
  else 0

/-- `check_key_mgmt`. -/
def checkKeyMgmt (value : List UInt8) : UInt8 :=
  if value = cbytes "WPA-PSK" then 1
  else if value = cbytes "WPA-EAP" then 2
  else if value = cbytes "IEEE8021X" then 3
  else if value = cbytes "NONE" then 0
  else 0

/-- `strcpy` to offset `a`; not defined where it runs out of the `DEVINFO`. -/
def strcpyAt (m : Mem) (a : ℕ) (s : List UInt8) : Option Mem :=
  if a + s.length < deviceEnd then some (strcpy m a s) else none

/-- The last branch of `ReadSecurityConfig`: a value goes where `group` and `key_flag` say. -/
def keyStep (m : Mem) : Option (List UInt8) → Option Mem
  | none => some m
  | some v =>
      if m groupAt = 3 then strcpyAt m (wep104At (m keyFlagAt).toNat) v
      else if m groupAt = 4 then strcpyAt m (wep40At (m keyFlagAt).toNat) v
      else some m

/-- What `ReadSecurityConfig` does with an entry; a key that it does not know is taken for a WEP
key. -/
def securityStep (m : Mem) (key : List UInt8) (value : Option (List UInt8)) : Option Mem :=
  if key = cbytes "ssid" then value.bind (strcpyAt m 0)
  else if key = cbytes "key_mgmt" then value.map (fun v => m.store keyMgmtAt [checkKeyMgmt v])
  else if key = cbytes "auth_alg" then value.map (fun v => m.store authAlgAt [checkAuthAlg v])
  else if key = cbytes "wep_tx_keyidx" then value.map (fun v => m.store keyFlagAt [number v])
  else if key = cbytes "group" then value.map (fun v => m.store groupAt [checkGroup v])
  else keyStep m value

/-- `ReadSecurityConfig`. -/
def readSecurityConfig (text : List UInt8) (m : Mem) : Option Mem := readConfig securityStep text m

/-! ### What has to be the same -/

/-- The text of a field of `n` bytes, without the spaces or zeros behind it. -/
def fieldText (m : Mem) (a n : ℕ) : List UInt8 := (cstr m a (a + n)).rdropWhile (· = 0x20)

/-- The SSID. -/
def ssidText (m : Mem) : List UInt8 := fieldText m 0 32

/-- The WEP key that `group` and `key_flag` select. -/
def selectedKey (m : Mem) : List UInt8 :=
  if m groupAt = 3 then fieldText m (wep104At (m keyFlagAt).toNat) 13
  else fieldText m (wep40At (m keyFlagAt).toNat) 5

/-- The offsets that the settings of a mode take in a structure: `ssid`, `key_mgmt`, and the group
and the selected WEP key, or the passphrase. -/
def Carried (keyMgmt : UInt8) (m : Mem) (x : ℕ) : Prop :=
  x ≤ keyMgmtAt ∨
    keyMgmt = 1 ∧ (x = groupAt ∨
      m groupAt = 3 ∧ wep104At (m keyFlagAt).toNat ≤ x ∧ x < wep104At (m keyFlagAt).toNat + 13 ∨
      m groupAt = 4 ∧ wep40At (m keyFlagAt).toNat ≤ x ∧ x < wep40At (m keyFlagAt).toNat + 5) ∨
    keyMgmt = 2 ∧ pskAt ≤ x

/-- `out` has the settings of `sec`, and is else as `prev`. -/
structure SameSettings (sec prev out : Mem) : Prop where
  keyMgmt : out keyMgmtAt = sec keyMgmtAt
  ssid : ssidText out = ssidText sec
  group : sec keyMgmtAt = 1 → out groupAt = sec groupAt
  wepKey : sec keyMgmtAt = 1 → selectedKey out = selectedKey sec
  psk : sec keyMgmtAt = 2 → fieldText out pskAt 32 = fieldText sec pskAt 32
  others : ∀ x < securityEnd, ¬ Carried (sec keyMgmtAt) out x → out x = prev x

/-- The settings survive when they are written, and read into a structure. -/
def Survives (prev sec : Mem) : Prop :=
  ∃ text out, writeSecurityConfig sec = some text ∧ readSecurityConfig text prev = some out ∧
    SameSettings sec prev out

/-- There is no encryption, the SSID is one word, and `auth_alg` was `OPEN` before. -/
def Kept (prev sec : Mem) : Prop :=
  sec keyMgmtAt = 0 ∧ ssidText sec ≠ [] ∧ (∀ b ∈ ssidText sec, WordByte b) ∧ prev authAlgAt = 0

/-- The key that is written ends no line. -/
def OneLine (sec : Mem) : Prop :=
  ∀ r a t, fieldToken sec 0 = some r → keyAt r.mem = some a → fieldPrinted r.mem a = some t →
    0x0A ∉ t

/-! ### Steps of the reader -/

section
variable {m m' : Mem} {key v w : List UInt8} {value : Option (List UInt8)}

theorem securityStep_ssid (m : Mem) (value : Option (List UInt8)) :
    securityStep m (cbytes "ssid") value = value.bind (strcpyAt m 0) := if_pos rfl

theorem securityStep_keyMgmt (m : Mem) (v : List UInt8) :
    securityStep m (cbytes "key_mgmt") (some v) = some (m.store keyMgmtAt [checkKeyMgmt v]) := by
  rw [securityStep, if_neg (by decide), if_pos rfl, Option.map_some]

theorem securityStep_authAlg (m : Mem) (v : List UInt8) :
    securityStep m (cbytes "auth_alg") (some v) = some (m.store authAlgAt [checkAuthAlg v]) := by
  rw [securityStep, if_neg (by decide), if_neg (by decide), if_pos rfl, Option.map_some]

theorem securityStep_group (m : Mem) (v : List UInt8) :
    securityStep m (cbytes "group") (some v) = some (m.store groupAt [checkGroup v]) := by
  rw [securityStep, if_neg (by decide), if_neg (by decide), if_neg (by decide),
    if_neg (by decide), if_pos rfl, Option.map_some]

theorem securityStep_key (hkey : key ∉ [cbytes "ssid", cbytes "key_mgmt", cbytes "auth_alg",
    cbytes "wep_tx_keyidx", cbytes "group"]) (m : Mem) (value : Option (List UInt8)) :
    securityStep m key value = keyStep m value := by
  simp only [List.mem_cons, List.not_mem_nil, or_false, not_or] at hkey
  obtain ⟨h1, h2, h3, h4, h5⟩ := hkey
  rw [securityStep, if_neg h1, if_neg h2, if_neg h3, if_neg h4, if_neg h5]

theorem strcpyAt_eq_some {a : ℕ} (h : strcpyAt m a v = some m') : m' = strcpy m a v := by
  unfold strcpyAt at h
  split_ifs at h
  exact (Option.some.inj h).symm

theorem keyStep_lt (h : keyStep m value = some m') {x : ℕ} (hx : x ≤ keyFlagAt) : m' x = m x := by
  have h104 : ∀ k, keyFlagAt < wep104At k := fun k => Nat.lt_add_right _ (by decide)
  have h40 : ∀ k, keyFlagAt < wep40At k := fun k => Nat.lt_add_right _ (by decide)
  cases value with
  | none => rw [Option.some.inj h]
  | some v =>
      unfold keyStep at h
      dsimp only at h
      split_ifs at h
      · rw [strcpyAt_eq_some h, strcpy, Mem.store_of_lt m _ (hx.trans_lt (h104 _))]
      · rw [strcpyAt_eq_some h, strcpy, Mem.store_of_lt m _ (hx.trans_lt (h40 _))]
      · rw [Option.some.inj h]

/-- **What a step does to the SSID**: it copies a value there, or leaves it alone. -/
theorem securityStep_cases (h : securityStep m key value = some m') :
    (∃ v, value = some v ∧ m' = strcpy m 0 v) ∨ ∀ x < keyMgmtAt, m' x = m x := by
  have hstore : ∀ {a : ℕ} {f : List UInt8 → UInt8}, keyMgmtAt ≤ a →
      value.map (fun v => m.store a [f v]) = some m' → ∀ x < keyMgmtAt, m' x = m x := by
    intro a f ha hmap x hx
    obtain ⟨v, -, rfl⟩ := Option.map_eq_some_iff.mp hmap
    exact Mem.store_of_lt m _ (hx.trans_le ha)
  unfold securityStep at h
  split_ifs at h
  · obtain ⟨v, rfl, hcopy⟩ := Option.bind_eq_some_iff.mp h
    exact Or.inl ⟨v, rfl, strcpyAt_eq_some hcopy⟩
  · exact Or.inr (hstore (by decide) h)
  · exact Or.inr (hstore (by decide) h)
  · exact Or.inr (hstore (by decide) h)
  · exact Or.inr (hstore (by decide) h)
  · exact Or.inr (fun x hx => keyStep_lt h (hx.le.trans (by decide)))

end

/-! ### The SSID is one word -/

section
variable {m m' : Mem} {v text : List UInt8}

/-- The SSID is one word. -/
def OneWord (m : Mem) : Prop := ssidText m ≠ [] ∧ ∀ b ∈ ssidText m, WordByte b

theorem ssidText_congr (h : ∀ x < keyMgmtAt, m' x = m x) : ssidText m' = ssidText m := by
  unfold ssidText fieldText
  rw [cstr_congr (fun x _ hx => h x hx)]

/-- A word that has been copied to the SSID, as far as there is room. -/
theorem ssidText_strcpy (m : Mem) (hv : ∀ b ∈ v, WordByte b) :
    ssidText (strcpy m 0 v) = v.take keyMgmtAt := by
  have hzero : (0 : UInt8) ∉ v := fun h => (hv 0 h).1 rfl
  unfold ssidText fieldText
  rw [cstr_strcpy m 0 32 hzero, List.rdropWhile_eq_self_iff]
  intro hne hspace
  have hlast := hv _ (List.mem_of_mem_take (List.getLast_mem hne))
  rw [decide_eq_true_eq] at hspace
  exact absurd (hspace ▸ hlast) (by decide)

theorem oneWord_strcpy (m : Mem) (hv : ∀ b ∈ v, WordByte b) (hne : v ≠ []) :
    OneWord (strcpy m 0 v) := by
  rw [OneWord, ssidText_strcpy m hv]
  refine ⟨?_, fun b hb => hv b (List.mem_of_mem_take hb)⟩
  rw [Ne, List.take_eq_nil_iff]
  exact not_or.mpr ⟨by decide, hne⟩

theorem OneWord.read (hm : OneWord m) (h : readSecurityConfig text m = some m') : OneWord m' := by
  refine readConfig_invariant (I := OneWord) (fun s s' key value hvalue hs hstep => ?_) hm h
  rcases securityStep_cases hstep with ⟨v, rfl, rfl⟩ | hbelow
  · obtain ⟨hne, hv⟩ := hvalue v rfl
    exact oneWord_strcpy s hv hne
  · rwa [OneWord, ssidText_congr hbelow]

end

/-! ### Lines of the writer -/

section
variable {m out sec : Mem} {r : StrTok} {text keys t : List UInt8} {a : ℕ}

/-- What is printed for a field fits in a line and has no zeros. -/
theorem printed_spec (h : fieldToken m a = some r) :
    (∀ b ∈ printed r.token, b ≠ 0) ∧ (printed r.token).length ≤ deviceEnd := by
  unfold fieldToken at h
  split_ifs at h
  obtain rfl := Option.some.inj h
  cases htoken : (strtok 0x20 deviceEnd m a).token with
  | none =>
      have hnull : IsWord (cbytes "(null)") := by decide
      exact ⟨fun b hb => (hnull.1 b hb).1, hnull.2.2.trans (by decide)⟩
  | some t =>
      obtain ⟨-, hbytes, hlen⟩ := of_strtok htoken
      exact ⟨fun b hb => (hbytes b hb).1, hlen.trans (Nat.sub_le _ _)⟩

theorem fieldPrinted_spec (h : fieldPrinted m a = some t) :
    (∀ b ∈ t, b ≠ 0) ∧ t.length ≤ 900 := by
  obtain ⟨r, hr, rfl⟩ := Option.map_eq_some_iff.mp h
  obtain ⟨hzero, hlen⟩ := printed_spec hr
  exact ⟨hzero, hlen.trans (by decide)⟩

theorem fieldToken_mem (h : fieldToken m a = some r) {x : ℕ} (hx : m x ≠ 0x20) :
    r.mem x = m x := by
  unfold fieldToken at h
  split_ifs at h
  obtain rfl := Option.some.inj h
  exact strtok_mem_of_ne hx

/-- The code of `key_mgmt` that is read for one that is written. -/
def readBack (keyMgmt : UInt8) : UInt8 := if keyMgmt = 2 then 1 else 0

/-- `key_mgmt` and `auth_alg` as they are read. -/
def openWith (keyMgmt : UInt8) (m : Mem) : Mem :=
  (m.store keyMgmtAt [readBack keyMgmt]).store authAlgAt [0]

theorem read_keyMgmtLine {keyMgmt : UInt8} (hmode : keyMgmt ∈ [0, 1, 2]) (m : Mem) :
    readConfig securityStep (keyMgmtLine keyMgmt) m =
      some (m.store keyMgmtAt [readBack keyMgmt]) := by
  have hnone : readConfig securityStep (configLine (cbytes "key_mgmt") (cbytes "NONE")) m =
      some (m.store keyMgmtAt [0]) := by
    rw [readConfig_word (by decide) (by decide), securityStep_keyMgmt]
    rfl
  have hpsk : readConfig securityStep (configLine (cbytes "key_mgmt") (cbytes "WPA-PSK")) m =
      some (m.store keyMgmtAt [1]) := by
    rw [readConfig_word (by decide) (by decide), securityStep_keyMgmt]
    rfl
  simp only [List.mem_cons, List.not_mem_nil, or_false] at hmode
  rcases hmode with rfl | rfl | rfl
  · exact hnone
  · exact hnone
  · exact hpsk

end

/-! ### Read after write -/

section
variable {m prev out sec : Mem} {r : StrTok} {text keys t : List UInt8} {a : ℕ}

/-- The lines that are written, and the same lines as they are read: one for the SSID, which may
become more, then `key_mgmt` and `auth_alg`, then those for the key. -/
theorem read_written (hmode : sec keyMgmtAt ∈ [0, 1, 2]) (h : writeSecurityConfig sec = some text) :
    ∃ r keys, fieldToken sec 0 = some r ∧ keyLines r.mem = some keys ∧
      r.mem keyMgmtAt = sec keyMgmtAt ∧
      ∀ prev, readSecurityConfig text prev =
        (readSecurityConfig (configLine (cbytes "ssid") (printed r.token)) prev).bind
          (fun m => readSecurityConfig keys (openWith (sec keyMgmtAt) m)) := by
  obtain ⟨r, hr, h⟩ := Option.bind_eq_some_iff.mp h
  obtain ⟨keys, hkeys, h⟩ := Option.bind_eq_some_iff.mp h
  obtain rfl := Option.some.inj h
  have hmem : r.mem keyMgmtAt = sec keyMgmtAt := by
    refine fieldToken_mem hr (fun hspace => ?_)
    rw [hspace] at hmode
    exact absurd hmode (by decide)
  refine ⟨r, keys, hr, hkeys, hmem, fun prev => ?_⟩
  have hline : ∃ v, keyMgmtLine (sec keyMgmtAt) = configLine (cbytes "key_mgmt") v := by
    simp only [List.mem_cons, List.not_mem_nil, or_false] at hmode
    rcases hmode with h | h | h
    · exact ⟨_, by rw [h]; rfl⟩
    · exact ⟨_, by rw [h]; rfl⟩
    · exact ⟨_, by rw [h]; rfl⟩
  obtain ⟨v, hv⟩ := hline
  have hmgmt := read_keyMgmtLine hmode
  rw [hv] at hmgmt
  rw [readSecurityConfig, readConfig_line, hmem, hv]
  refine Option.bind_congr (fun m _ => ?_)
  rw [readConfig_line, hmgmt, Option.bind_some, readConfig_line,
    readConfig_word (by decide) (by decide), securityStep_authAlg,
    Option.bind_some]
  rfl

theorem read_key {key : List UInt8} (hkey : IsKey key) (hother : key ∉ [cbytes "ssid",
      cbytes "key_mgmt", cbytes "auth_alg", cbytes "wep_tx_keyidx", cbytes "group"])
    (ht : fieldPrinted m a = some t) (hlf : 0x0A ∉ t)
    (h : readSecurityConfig (configLine key t) prev = some out) : out keyMgmtAt = prev keyMgmtAt := by
  obtain ⟨hzero, hlen⟩ := fieldPrinted_spec ht
  rw [readSecurityConfig, readConfig_configLine hkey
    (fun b hb => ⟨hzero b hb, fun h => hlf (h ▸ hb)⟩) hlen, securityStep_key hother] at h
  exact keyStep_lt h (by decide)

theorem read_keyLines (hkeys : keyLines m = some keys)
    (hlf : ∀ a t, keyAt m = some a → fieldPrinted m a = some t → 0x0A ∉ t)
    (h : readSecurityConfig keys prev = some out) : out keyMgmtAt = prev keyMgmtAt := by
  have hgroup : ∀ {g t : List UInt8} {a : ℕ}, IsWord g → fieldPrinted m a = some t → 0x0A ∉ t →
      readSecurityConfig
        (configLine (cbytes "group") g ++ configLine (cbytes "wep_key0") t) prev = some out →
      out keyMgmtAt = prev keyMgmtAt := by
    intro g t a hg ht hlf h
    rw [readSecurityConfig, readConfig_line, readConfig_word (by decide) hg, securityStep_group,
      Option.bind_some] at h
    rw [read_key (by decide) (by decide) ht hlf h, Mem.store_of_lt prev _ (by decide)]
  unfold keyLines at hkeys
  unfold keyAt at hlf
  split_ifs at hkeys hlf with h1 h3 h4 h2
  · obtain ⟨t, ht, rfl⟩ := Option.map_eq_some_iff.mp hkeys
    exact hgroup (by decide) ht (hlf _ t rfl ht) h
  · obtain ⟨t, ht, rfl⟩ := Option.map_eq_some_iff.mp hkeys
    exact hgroup (by decide) ht (hlf _ t rfl ht) h
  · rw [← Option.some.inj hkeys] at h
    rw [← Option.some.inj h]
  · obtain ⟨t, ht, rfl⟩ := Option.map_eq_some_iff.mp hkeys
    exact read_key (by decide) (by decide) ht (hlf _ t rfl ht) h
  · rw [← Option.some.inj hkeys] at h
    rw [← Option.some.inj h]

/-- The line of the SSID, even when it becomes more lines, leaves one word there. -/
theorem read_ssidLine (hr : fieldToken m a = some r)
    (h : readSecurityConfig (configLine (cbytes "ssid") (printed r.token)) prev = some out) :
    OneWord out := by
  obtain ⟨hzero, hlen⟩ := printed_spec hr
  generalize printed r.token = t at h hzero hlen
  have hfirst : ∀ {v : List UInt8} {m' : Mem}, (∀ b ∈ v, b ≠ 0 ∧ b ≠ 0x0A) → v.length ≤ 900 →
      readConfig securityStep (configLine (cbytes "ssid") v) prev = some m' → OneWord m' := by
    intro v m' hv hlen h
    rw [readConfig_configLine (by decide) hv hlen, securityStep_ssid] at h
    obtain ⟨w, hw, hcopy⟩ := Option.bind_eq_some_iff.mp h
    obtain ⟨⟨w', rest⟩, hword, rfl⟩ := Option.map_eq_some_iff.mp hw
    obtain ⟨hne, hdelim, hpart⟩ := of_word hword
    rw [strcpyAt_eq_some hcopy]
    exact oneWord_strcpy prev (fun b hb => ⟨(hv b (hpart.subset hb)).1, hdelim b hb⟩) hne
  by_cases hlf : (0x0A : UInt8) ∈ t
  · obtain ⟨v, t', rfl, hv⟩ := List.eq_append_cons_of_mem hlf
    have hsplit : configLine (cbytes "ssid") (v ++ 0x0A :: t') =
        configLine (cbytes "ssid") v ++ (t' ++ [0x0A]) := by
      simp only [configLine, List.append_assoc, List.cons_append, List.nil_append]
    rw [hsplit, readSecurityConfig, readConfig_line] at h
    obtain ⟨m', hm', h⟩ := Option.bind_eq_some_iff.mp h
    rw [List.length_append] at hlen
    exact (hfirst (fun b hb => ⟨hzero b (List.mem_append_left _ hb), fun h => hv (h ▸ hb)⟩)
      ((Nat.le_add_right _ _).trans (hlen.trans (by decide))) hm').read h
  · exact hfirst (fun b hb => ⟨hzero b hb, fun h => hlf (h ▸ hb)⟩) (hlen.trans (by decide)) h

end

/-! ### Two previous states -/

/-- The structures are the same but for `auth_alg`. -/
def AgreeOffAuth (m m' : Mem) : Prop := ∀ x, x ≠ authAlgAt → m x = m' x

section
variable {m m' s : Mem} {key v text : List UInt8} {value : Option (List UInt8)} {a : ℕ}

theorem AgreeOffAuth.store (h : AgreeOffAuth m m') (a : ℕ) (l : List UInt8) :
    AgreeOffAuth (m.store a l) (m'.store a l) := by
  intro x hx
  unfold Mem.store
  rw [h x hx]

theorem AgreeOffAuth.strcpyAt (h : AgreeOffAuth m m') (hs : strcpyAt m a v = some s) :
    ∃ s', strcpyAt m' a v = some s' ∧ AgreeOffAuth s s' := by
  unfold SetupManager.strcpyAt at hs ⊢
  split_ifs at hs ⊢
  exact ⟨_, rfl, Option.some.inj hs ▸ h.store a (v ++ [0])⟩

theorem AgreeOffAuth.keyStep (h : AgreeOffAuth m m') (hs : keyStep m value = some s) :
    ∃ s', keyStep m' value = some s' ∧ AgreeOffAuth s s' := by
  have hgroup := h groupAt (by decide)
  have hflag := h keyFlagAt (by decide)
  cases value with
  | none => exact ⟨m', rfl, Option.some.inj hs ▸ h⟩
  | some v =>
      unfold SetupManager.keyStep at hs ⊢
      dsimp only at hs ⊢
      rw [hgroup, hflag] at hs
      split_ifs at hs ⊢
      · exact h.strcpyAt hs
      · exact h.strcpyAt hs
      · exact ⟨m', rfl, Option.some.inj hs ▸ h⟩

theorem AgreeOffAuth.step (h : AgreeOffAuth m m') (hs : securityStep m key value = some s) :
    ∃ s', securityStep m' key value = some s' ∧ AgreeOffAuth s s' := by
  have hmap : ∀ {a : ℕ} {f : List UInt8 → UInt8}, value.map (fun v => m.store a [f v]) = some s →
      ∃ s', value.map (fun v => m'.store a [f v]) = some s' ∧ AgreeOffAuth s s' := by
    intro a f hs
    obtain ⟨v, rfl, rfl⟩ := Option.map_eq_some_iff.mp hs
    exact ⟨_, rfl, h.store a [f v]⟩
  unfold securityStep at hs ⊢
  split_ifs at hs ⊢
  · obtain ⟨v, rfl, hs⟩ := Option.bind_eq_some_iff.mp hs
    exact h.strcpyAt hs
  · exact hmap hs
  · exact hmap hs
  · exact hmap hs
  · exact hmap hs
  · exact h.keyStep hs

theorem AgreeOffAuth.read (h : AgreeOffAuth m m') (hs : readSecurityConfig text m = some s) :
    ∃ s', readSecurityConfig text m' = some s' ∧ AgreeOffAuth s s' := by
  refine readConfig_related (R := AgreeOffAuth) (fun s t s' key value hR hstep => ?_) h hs
  exact hR.step hstep

theorem AgreeOffAuth.openWith (h : AgreeOffAuth m m') (keyMgmt : UInt8) :
    openWith keyMgmt m = openWith keyMgmt m' := by
  funext x
  rcases eq_or_ne x authAlgAt with rfl | hx
  · rfl
  · exact (h.store keyMgmtAt _).store authAlgAt [0] x hx

end

/-! ### Settings that survive -/

section
variable {prev prev' sec : Mem}

theorem openWith_keyMgmt (keyMgmt : UInt8) (m : Mem) :
    openWith keyMgmt m keyMgmtAt = readBack keyMgmt := by
  rw [openWith, Mem.store_of_lt _ _ (by decide)]
  exact Mem.store_add m keyMgmtAt (l := [readBack keyMgmt]) (k := 0) Nat.zero_lt_one

theorem openWith_of_lt (keyMgmt : UInt8) (m : Mem) {x : ℕ} (hx : x < keyMgmtAt) :
    openWith keyMgmt m x = m x := by
  rw [openWith, Mem.store_of_lt _ _ (hx.trans (by decide)), Mem.store_of_lt _ _ hx]

theorem openWith_of_gt (keyMgmt : UInt8) (m : Mem) {x : ℕ} (hx : authAlgAt < x) :
    openWith keyMgmt m x = m x := by
  have hnext : keyMgmtAt + 1 ≤ x := hx.le
  rw [openWith, Mem.store_of_le _ hx, Mem.store_of_le _ hnext]

/-- What is read over two structures that differ in `auth_alg` alone is the same. -/
theorem authAlg_eq_of_survives (hmode : sec keyMgmtAt ∈ [0, 1, 2]) (hagree : AgreeOffAuth prev prev')
    (h : Survives prev sec) (h' : Survives prev' sec) : prev authAlgAt = prev' authAlgAt := by
  obtain ⟨text, out, hw, hread, hsame⟩ := h
  obtain ⟨text', out', hw', hread', hsame'⟩ := h'
  obtain rfl : text = text' := Option.some.inj (hw.symm.trans hw')
  obtain ⟨r, keys, -, -, -, hbind⟩ := read_written hmode hw
  rw [hbind] at hread hread'
  obtain ⟨m, hm, hread⟩ := Option.bind_eq_some_iff.mp hread
  obtain ⟨m', hm', hread'⟩ := Option.bind_eq_some_iff.mp hread'
  obtain ⟨m₁, hm₁, hrel⟩ := hagree.read hm
  obtain rfl : m₁ = m' := Option.some.inj (hm₁.symm.trans hm')
  rw [hrel.openWith, hread'] at hread
  obtain rfl := Option.some.inj hread
  have hother : ∀ o, ¬ Carried (sec keyMgmtAt) o authAlgAt := by
    rintro o (h | ⟨-, h | ⟨-, h, -⟩ | ⟨-, h, -⟩⟩ | ⟨-, h⟩)
    · exact absurd h (by decide)
    · exact absurd h (by decide)
    · exact absurd ((Nat.le_add_right _ _).trans h) (by decide)
    · exact absurd ((Nat.le_add_right _ _).trans h) (by decide)
    · exact absurd h (by decide)
  exact (hsame.others _ (by decide) (hother _)).symm.trans (hsame'.others _ (by decide) (hother _))

theorem oneWord_of_survives (hmode : sec keyMgmtAt ∈ [0, 1, 2]) (h : Survives prev sec) :
    OneWord sec := by
  obtain ⟨text, out, hw, hread, hsame⟩ := h
  obtain ⟨r, keys, hr, -, -, hbind⟩ := read_written hmode hw
  rw [hbind] at hread
  obtain ⟨m, hm, hread⟩ := Option.bind_eq_some_iff.mp hread
  have hopen : OneWord (openWith (sec keyMgmtAt) m) := by
    have hline := read_ssidLine hr hm
    rwa [OneWord, ssidText_congr (fun x hx => openWith_of_lt _ m hx)]
  have hout := hopen.read hread
  rwa [OneWord, hsame.ssid] at hout

/-- Settings with a key on one line survive only when there is no key. -/
theorem keyMgmt_eq_zero_of_survives (hmode : sec keyMgmtAt ∈ [0, 1, 2]) (hline : OneLine sec)
    (h : Survives prev sec) : sec keyMgmtAt = 0 := by
  obtain ⟨text, out, hw, hread, hsame⟩ := h
  obtain ⟨r, keys, hr, hkeys, -, hbind⟩ := read_written hmode hw
  rw [hbind] at hread
  obtain ⟨m, hm, hread⟩ := Option.bind_eq_some_iff.mp hread
  have hout := read_keyLines hkeys (fun a t ha ht => hline r a t hr ha ht) hread
  have hback : readBack (sec keyMgmtAt) = sec keyMgmtAt :=
    (openWith_keyMgmt _ m).symm.trans (hout.symm.trans hsame.keyMgmt)
  simp only [List.mem_cons, List.not_mem_nil, or_false] at hmode
  rcases hmode with h | h | h
  · exact h
  · rw [h] at hback
    exact absurd hback (by decide)
  · rw [h] at hback
    exact absurd hback (by decide)

/-- Settings without a key survive only over a structure whose `auth_alg` is `OPEN`. -/
theorem authAlg_eq_zero_of_survives (h0 : sec keyMgmtAt = 0) (h : Survives prev sec) :
    prev authAlgAt = 0 := by
  obtain ⟨text, out, hw, hread, hsame⟩ := h
  obtain ⟨r, keys, hr, hkeys, hmem, hbind⟩ := read_written (by rw [h0]; decide) hw
  rw [hbind] at hread
  obtain ⟨m, hm, hread⟩ := Option.bind_eq_some_iff.mp hread
  have hnone : keys = [] := by
    rw [keyLines, hmem, h0, if_neg (by decide), if_neg (by decide)] at hkeys
    exact (Option.some.inj hkeys).symm
  rw [hnone] at hread
  obtain rfl : openWith (sec keyMgmtAt) m = out := Option.some.inj hread
  have hother : ¬ Carried (sec keyMgmtAt) (openWith (sec keyMgmtAt) m) authAlgAt := by
    rw [h0]
    rintro (h | ⟨h, -⟩ | ⟨h, -⟩)
    · exact absurd h (by decide)
    · exact absurd h (by decide)
    · exact absurd h (by decide)
  rw [← hsame.others authAlgAt (by decide) hother]
  rfl

/-- An SSID of one word is the token that is written, also when it fills the field. -/
theorem fieldToken_oneWord (h0 : sec keyMgmtAt = 0) (h : OneWord sec) :
    ∃ r, fieldToken sec 0 = some r ∧ r.token = some (ssidText sec) := by
  have hread : cstr sec 0 deviceEnd = cstr sec 0 32 :=
    cstr_of_zero (k := 32) (by simpa using h0) (by decide)
  obtain ⟨n, hn⟩ := exists_replicate_rdropWhile 0x20 (cstr sec 0 32)
  have hspace : (0x20 : UInt8) ∉ ssidText sec := fun hb => absurd (h.2 _ hb) (by decide)
  have hfirst : first 0x20 (cstr sec 0 deviceEnd) = ssidText sec := by
    rw [hread, hn]
    exact first_append_replicate h.1 hspace n
  have hend : 0 + firstEnd 0x20 (cstr sec 0 deviceEnd) < deviceEnd := by
    have hle := firstEnd_le 0x20 (cstr sec 0 32)
    have hlen := length_cstr_le sec 0 32
    rw [hread, Nat.zero_add]
    exact (hle.trans hlen).trans_lt (by decide)
  refine ⟨strtok 0x20 deviceEnd sec 0, if_pos hend, ?_⟩
  rw [strtok_of_first (by rw [hfirst]; exact h.1), hfirst]

theorem length_ssidText_le (m : Mem) : (ssidText m).length ≤ 32 :=
  (List.rdropWhile_prefix _ _).length_le.trans (length_cstr_le m 0 32)

theorem read_of_oneWord (h0 : sec keyMgmtAt = 0) (h : OneWord sec) :
    ∃ text, writeSecurityConfig sec = some text ∧ ∀ prev, readSecurityConfig text prev =
      some (openWith (sec keyMgmtAt) (strcpy prev 0 (ssidText sec))) := by
  obtain ⟨r, hr, htoken⟩ := fieldToken_oneWord h0 h
  have hlen := length_ssidText_le sec
  have hmem : r.mem keyMgmtAt = 0 := (fieldToken_mem hr (by rw [h0]; decide)).trans h0
  have hkeys : keyLines r.mem = some [] := by
    rw [keyLines, hmem, if_neg (by decide), if_neg (by decide)]
  have hw : ∃ text, writeSecurityConfig sec = some text := by
    simp only [writeSecurityConfig, hr, hkeys, Option.bind_eq_bind, Option.bind_some]
    exact ⟨_, rfl⟩
  obtain ⟨text, hw⟩ := hw
  obtain ⟨r', keys, hr', hkeys', -, hbind⟩ := read_written (by rw [h0]; decide) hw
  obtain rfl : r = r' := Option.some.inj (hr.symm.trans hr')
  obtain rfl : [] = keys := Option.some.inj (hkeys.symm.trans hkeys')
  refine ⟨text, hw, fun prev => ?_⟩
  have hcopy : strcpyAt prev 0 (ssidText sec) = some (strcpy prev 0 (ssidText sec)) :=
    if_pos (by rw [Nat.zero_add]; exact hlen.trans_lt (by decide))
  have hline : readSecurityConfig (configLine (cbytes "ssid") (printed r.token)) prev =
      some (strcpy prev 0 (ssidText sec)) := by
    rw [htoken, readSecurityConfig, printed,
      readConfig_word (by decide) ⟨h.2, h.1, hlen.trans (by decide)⟩, securityStep_ssid,
      Option.bind_some, hcopy]
  rw [hbind, hline]
  rfl

theorem survives_of_kept (h : Kept prev sec) : Survives prev sec := by
  obtain ⟨h0, hne, hword, hauth⟩ := h
  obtain ⟨text, hw, hread⟩ := read_of_oneWord h0 ⟨hne, hword⟩
  have hlen := length_ssidText_le sec
  refine ⟨text, _, hw, hread prev, ?_, ?_, ?_, ?_, ?_, ?_⟩
  · rw [openWith_keyMgmt, h0]
    rfl
  · rw [ssidText_congr (fun x hx => openWith_of_lt _ _ hx), ssidText_strcpy prev hword]
    exact List.take_of_length_le hlen
  · exact fun h1 => absurd (h0.symm.trans h1) (by decide)
  · exact fun h1 => absurd (h0.symm.trans h1) (by decide)
  · exact fun h2 => absurd (h0.symm.trans h2) (by decide)
  · intro x _ hx
    have hgt : keyMgmtAt < x := Nat.lt_of_not_le (fun hle => hx (Or.inl hle))
    rcases Nat.eq_or_lt_of_le (show authAlgAt ≤ x from hgt) with rfl | hbehind
    · exact hauth.symm
    · rw [openWith_of_gt _ _ hbehind, strcpy, Mem.store_of_le]
      rw [List.length_append, List.length_singleton, Nat.zero_add]
      exact (Nat.succ_le_succ hlen).trans hgt

theorem exists_not_survives (hmode : sec keyMgmtAt ∈ [0, 1, 2]) : ¬ ∀ prev, Survives prev sec := by
  intro h
  let prev : Mem := fun _ => 0
  have hagree : AgreeOffAuth prev (prev.store authAlgAt [1]) := fun x hx => by
    rcases Nat.lt_or_gt_of_ne hx with hlt | hgt
    · exact (Mem.store_of_lt prev _ hlt).symm
    · exact (Mem.store_of_le prev hgt).symm
  exact absurd (authAlg_eq_of_survives hmode hagree (h _) (h _)) (by decide)

end

/-- **Write and read**: with a key on one line, the settings survive exactly when there is no
encryption, the SSID is one word, and `auth_alg` was `OPEN`; none survive over every structure. -/
theorem security_survives_iff (sec : Mem) (hmode : sec keyMgmtAt ∈ [0, 1, 2]) :
    (∀ prev, Kept prev sec → Survives prev sec) ∧
      (OneLine sec → ∀ prev, Survives prev sec ↔ Kept prev sec) ∧
        ¬ ∀ prev, Survives prev sec := by
  refine ⟨fun prev => survives_of_kept, fun hline prev => ⟨fun h => ?_, survives_of_kept⟩,
    exists_not_survives hmode⟩
  have h0 := keyMgmt_eq_zero_of_survives hmode hline h
  obtain ⟨hne, hword⟩ := oneWord_of_survives hmode h
  exact ⟨h0, hne, hword, authAlg_eq_zero_of_survives h0 h⟩

/-- A structure of zeros with an SSID, a mode and a passphrase. -/
def securityOf (ssid : List UInt8) (keyMgmt : UInt8) (psk : List UInt8) : Mem :=
  ((Mem.store (fun _ => 0) 0 ssid).store keyMgmtAt [keyMgmt]).store pskAt psk

theorem security_survives_open :
    securityOf (cbytes "home") 0 [] keyMgmtAt ∈ [0, 1, 2] ∧
      (∀ prev, Kept prev (securityOf (cbytes "home") 0 []) →
        Survives prev (securityOf (cbytes "home") 0 [])) ∧
      (OneLine (securityOf (cbytes "home") 0 []) → ∀ prev,
        Survives prev (securityOf (cbytes "home") 0 []) ↔
          Kept prev (securityOf (cbytes "home") 0 [])) ∧
      ¬ ∀ prev, Survives prev (securityOf (cbytes "home") 0 []) :=
  ⟨by decide, security_survives_iff _ (by decide)⟩

/-- A network with a passphrase is read back as another mode, and without the passphrase. -/
theorem security_survives_wrong :
    let sec := securityOf (cbytes "home") 2 (cbytes "secret")
    sec keyMgmtAt = 2 ∧ ¬ Survives (fun _ => 0) sec := by
  refine ⟨by decide, ?_⟩
  rintro ⟨text, out, hw, hread, hsame⟩
  have heval : (writeSecurityConfig (securityOf (cbytes "home") 2 (cbytes "secret"))).bind
      (fun t => (readSecurityConfig t (fun _ => 0)).map (fun m => m keyMgmtAt)) = some 1 := by
    decide +kernel
  rw [hw, Option.bind_some, hread, Option.map_some] at heval
  exact absurd ((Option.some.inj heval).symm.trans hsame.keyMgmt) (by decide)

end IdcuIot.SetupManager
