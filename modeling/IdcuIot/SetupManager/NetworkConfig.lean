import IdcuIot.Lib.Tokens
import IdcuIot.Lib.Words
import IdcuIot.SetupManager.ConfigFile
import IdcuIot.SetupManager.PackManager

/-! # SetupManager: network settings

`WriteNetworkConfig` writes the four words of a `lan_var` as dotted quads, behind a `htonl` each.
`ReadNetworkConfig` reads them with `inet_addr` and has no `ntohl`, so that every word comes back
with its bytes in the other order (`readNetworkConfig_write`): `lanInfo_survives_iff` says which
settings are the same after `SETLANINFO` and `GETLANINFO`. -/

namespace IdcuIot.SetupManager

open Lines Words

/-! ### Words and dotted quads -/

/-- `struct lan_var`, and `struct wlan_var` with the same four words. -/
structure LanVar where
  lanAddr : UInt32
  lanNetmask : UInt32
  lanGateway : UInt32
  lanDns : UInt32
deriving DecidableEq, Repr

/-- Word `k` of a structure, the low byte first. -/
def wordAt (l : List UInt8) (k : ℕ) : UInt32 :=
  ofBytes (l.getD (4 * k + 3) 0) (l.getD (4 * k + 2) 0) (l.getD (4 * k + 1) 0) (l.getD (4 * k) 0)

/-- The structure whose bytes are given. -/
def LanVar.ofList (l : List UInt8) : LanVar := ⟨wordAt l 0, wordAt l 1, wordAt l 2, wordAt l 3⟩

/-- The same function for each of the four words. -/
def LanVar.map (f : UInt32 → UInt32) (lan : LanVar) : LanVar :=
  ⟨f lan.lanAddr, f lan.lanNetmask, f lan.lanGateway, f lan.lanDns⟩

/-- A condition on each of the four words. -/
def LanVar.Forall (p : UInt32 → Prop) (lan : LanVar) : Prop :=
  p lan.lanAddr ∧ p lan.lanNetmask ∧ p lan.lanGateway ∧ p lan.lanDns

/-- `htonl` where the low byte of a word comes first. -/
def htonl (x : UInt32) : UInt32 := ofBytes (byteAt x 0) (byteAt x 1) (byteAt x 2) (byteAt x 3)

/-- The bytes of a word are the same from both ends. -/
def Palindrome (x : UInt32) : Prop := byteAt x 0 = byteAt x 3 ∧ byteAt x 1 = byteAt x 2

instance : DecidablePred Palindrome := fun _ => instDecidableAnd

/-- `inet_ntoa` and `inet_addr`. -/
structure Inet where
  ntoa : UInt32 → List UInt8
  addr : List UInt8 → UInt32

/-- `inet_ntoa` gives a dotted quad, and `inet_addr` reads it. -/
structure Inet.Inverse (I : Inet) : Prop where
  addr_ntoa : ∀ x, I.addr (I.ntoa x) = x
  ntoa_ne_nil : ∀ x, I.ntoa x ≠ []
  length_ntoa : ∀ x, (I.ntoa x).length ≤ 15
  mem_ntoa : ∀ x, ∀ b ∈ I.ntoa x, b = 0x2E ∨ 0x30 ≤ b ∧ b ≤ 0x39

theorem htonl_eq_iff (x : UInt32) : htonl x = x ↔ Palindrome x := by
  constructor
  · intro h
    obtain ⟨h3, h2, -, -⟩ := ofBytes_inj (h.trans (ofBytes_byteAt x).symm)
    exact ⟨h3, h2⟩
  · rintro ⟨h3, h2⟩
    rw [htonl, h3, h2]
    nth_rewrite 2 [← h2]
    nth_rewrite 2 [← h3]
    exact ofBytes_byteAt x

theorem LanVar.map_eq_iff (f : UInt32 → UInt32) (lan : LanVar) :
    lan.map f = lan ↔ lan.Forall (fun x => f x = x) := by
  cases lan
  simp only [map, Forall, LanVar.mk.injEq]

theorem LanVar.map_htonl_eq_iff (lan : LanVar) : lan.map htonl = lan ↔ lan.Forall Palindrome := by
  rw [map_eq_iff]
  simp only [Forall, htonl_eq_iff]

/-! ### Writer and reader -/

section
variable (I : Inet)

/-- A file of four dotted quads. -/
def networkText (x : LanVar) : List UInt8 :=
  configLine (cbytes "address") (I.ntoa x.lanAddr) ++
    (configLine (cbytes "netmask") (I.ntoa x.lanNetmask) ++
      (configLine (cbytes "gateway") (I.ntoa x.lanGateway) ++
        configLine (cbytes "dns") (I.ntoa x.lanDns)))

/-- `WriteNetworkConfig`. -/
def writeNetworkConfig (lan : LanVar) : List UInt8 := networkText I (lan.map htonl)

/-- What `ReadNetworkConfig` does with an entry; `inet_addr` is not defined for no value. -/
def networkStep (lan : LanVar) (key : List UInt8) (value : Option (List UInt8)) : Option LanVar :=
  if key = cbytes "address" then value.map (fun t => { lan with lanAddr := I.addr t })
  else if key = cbytes "netmask" then value.map (fun t => { lan with lanNetmask := I.addr t })
  else if key = cbytes "gateway" then value.map (fun t => { lan with lanGateway := I.addr t })
  else if key = cbytes "dns" then value.map (fun t => { lan with lanDns := I.addr t })
  else some lan

/-- `ReadNetworkConfig`. -/
def readNetworkConfig (text : List UInt8) (lan : LanVar) : Option LanVar :=
  readConfig (networkStep I) text lan

end

section
variable {I : Inet}

theorem Inet.Inverse.wordByte (hI : I.Inverse) (x : UInt32) : ∀ b ∈ I.ntoa x, WordByte b := by
  intro b hb
  rcases hI.mem_ntoa x b hb with rfl | ⟨hlow, hhigh⟩
  · decide
  · refine ⟨fun h => absurd (h ▸ hlow) (by decide), decide_eq_false (fun h => ?_)⟩
    simp only [List.mem_cons, List.not_mem_nil, or_false] at h
    rcases h with rfl | rfl | rfl | rfl | rfl
    · exact absurd hlow (by decide)
    · exact absurd hlow (by decide)
    · exact absurd hhigh (by decide)
    · exact absurd hlow (by decide)
    · exact absurd hlow (by decide)

theorem readConfig_ntoa (hI : I.Inverse) {key : List UInt8} (hkey : IsKey key) (x : UInt32)
    (lan : LanVar) :
    readConfig (networkStep I) (configLine key (I.ntoa x)) lan =
      networkStep I lan key (some (I.ntoa x)) :=
  readConfig_word hkey ⟨hI.wordByte x, hI.ntoa_ne_nil x, (hI.length_ntoa x).trans (by decide)⟩ lan

theorem readNetworkConfig_text (hI : I.Inverse) (x prev : LanVar) :
    readNetworkConfig I (networkText I x) prev = some x := by
  have haddress : ∀ lan, networkStep I lan (cbytes "address") (some (I.ntoa x.lanAddr)) =
      some { lan with lanAddr := x.lanAddr } := fun lan => by
    rw [networkStep, if_pos rfl, Option.map_some, hI.addr_ntoa]
  have hnetmask : ∀ lan, networkStep I lan (cbytes "netmask") (some (I.ntoa x.lanNetmask)) =
      some { lan with lanNetmask := x.lanNetmask } := fun lan => by
    rw [networkStep, if_neg (by decide), if_pos rfl, Option.map_some, hI.addr_ntoa]
  have hgateway : ∀ lan, networkStep I lan (cbytes "gateway") (some (I.ntoa x.lanGateway)) =
      some { lan with lanGateway := x.lanGateway } := fun lan => by
    rw [networkStep, if_neg (by decide), if_neg (by decide), if_pos rfl, Option.map_some,
      hI.addr_ntoa]
  have hdns : ∀ lan, networkStep I lan (cbytes "dns") (some (I.ntoa x.lanDns)) =
      some { lan with lanDns := x.lanDns } := fun lan => by
    rw [networkStep, if_neg (by decide), if_neg (by decide), if_neg (by decide), if_pos rfl,
      Option.map_some, hI.addr_ntoa]
  rw [readNetworkConfig, networkText, readConfig_line, readConfig_ntoa hI (by decide), haddress,
    Option.bind_some, readConfig_line, readConfig_ntoa hI (by decide), hnetmask, Option.bind_some,
    readConfig_line, readConfig_ntoa hI (by decide), hgateway, Option.bind_some,
    readConfig_ntoa hI (by decide), hdns]

/-- **Read after write**: every word comes back with its bytes in the other order. -/
theorem readNetworkConfig_write (hI : I.Inverse) (lan prev : LanVar) :
    readNetworkConfig I (writeNetworkConfig I lan) prev = some (lan.map htonl) :=
  readNetworkConfig_text hI (lan.map htonl) prev

/-- Write after read: the file is as it was when its words are palindromes. -/
theorem writeNetworkConfig_read (hI : I.Inverse) (x prev : LanVar) :
    (readNetworkConfig I (networkText I x) prev).map (writeNetworkConfig I) =
      some (networkText I x) ↔ x.map htonl = x := by
  rw [readNetworkConfig_text hI, Option.map_some, Option.some.injEq, writeNetworkConfig]
  refine ⟨fun h => ?_, fun h => congrArg (networkText I) h⟩
  have hread := readNetworkConfig_text hI (x.map htonl) prev
  rw [h, readNetworkConfig_text hI] at hread
  exact (Option.some.inj hread).symm

end

/-! ### Set and get -/

/-- The settings of one of the networks. -/
def DevInfo.network (d : DevInfo) : Network → LanVar
  | .eth0 => LanVar.ofList d.lan
  | .wlan0 => LanVar.ofList d.wlan

/-- Whether one of the networks is enabled. -/
def DevInfo.enable (d : DevInfo) : Network → UInt8
  | .eth0 => d.lanEnable
  | .wlan0 => d.wlanEnable

/-- The texts of `eth0.config` and `wlan0.config` after an effect. -/
def effectFiles (I : Inet) (files : Network → List UInt8) : Effect → Network → List UInt8
  | .writeNetworkConfig name lan =>
      Function.update files name (writeNetworkConfig I (LanVar.ofList lan))
  | _ => files

/-- The texts after `SETLANINFO`. -/
def filesAfter (I : Inet) (sys : System) (saveDev : DevInfo) (files : Network → List UInt8) :
    Network → List UInt8 :=
  (setLanInfo sys saveDev).foldl (effectFiles I) files

theorem filesAfter_of_enable (I : Inet) (sys : System) {saveDev : DevInfo}
    (files : Network → List UInt8) {net : Network} (henable : saveDev.enable net ≠ 0) :
    filesAfter I sys saveDev files net = writeNetworkConfig I (saveDev.network net) := by
  unfold filesAfter setLanInfo
  cases net with
  | eth0 =>
      have hlan : saveDev.lanEnable ≠ 0 := henable
      by_cases hwlan : saveDev.wlanEnable ≠ 0
      · simp [hlan, hwlan, effectFiles, DevInfo.network]
      · simp [hlan, hwlan, effectFiles, DevInfo.network]
  | wlan0 =>
      have hwlan : saveDev.wlanEnable ≠ 0 := henable
      by_cases hlan : saveDev.lanEnable ≠ 0
      · simp [hlan, hwlan, effectFiles, DevInfo.network]
      · simp [hlan, hwlan, effectFiles, DevInfo.network]

/-! ### Dotted quads -/

/-- The digits of a byte. -/
def digits (b : UInt8) : List UInt8 :=
  (Decimal.print b.toNat).map (fun c => UInt8.ofNat c.toNat)

/-- Dotted quads, the byte at the lowest address first. -/
def dottedQuad : Inet where
  ntoa x := digits (byteAt x 0) ++ 0x2E :: (digits (byteAt x 1) ++ 0x2E ::
    (digits (byteAt x 2) ++ 0x2E :: digits (byteAt x 3)))
  addr t :=
    match Tokens.tokens 0x2E t with
    | [b0, b1, b2, b3] => ofBytes (number b3) (number b2) (number b1) (number b0)
    | _ => 0xFFFFFFFF

theorem number_digits (b : UInt8) : number (digits b) = b := by
  have hb := b.toNat_lt
  rw [number, digits, Decimal.chars_bytes_print, Decimal.atoi_print (by omega) (by omega),
    ofInt_natCast, UInt8.ofNat_toNat]

theorem digits_eq (b : UInt8) :
    digits b = (Nat.toDigits 10 b.toNat).map (fun c => UInt8.ofNat c.toNat) := by
  have hnonneg : ¬ (b.toNat : ℤ) < 0 := by omega
  rw [digits, Decimal.print, if_neg hnonneg, Int.natAbs_natCast]

theorem digits_ne_nil (b : UInt8) : digits b ≠ [] := by
  rw [digits_eq]
  simp [Nat.toDigits_ne_nil]

theorem length_digits (b : UInt8) : (digits b).length ≤ 3 := by
  have hb := b.toNat_lt
  rw [digits_eq, List.length_map]
  exact (Nat.length_toDigits_le_iff (by decide) (by decide)).mpr (by omega)

theorem mem_digits (b : UInt8) : ∀ d ∈ digits b, 0x30 ≤ d ∧ d ≤ 0x39 := by
  rw [digits_eq]
  intro d hd
  obtain ⟨c, hc, rfl⟩ := List.mem_map.mp hd
  exact Decimal.digit_bounds (Nat.isDigit_of_mem_toDigits (by decide) (by decide) hc)

theorem dot_notMem_digits (b : UInt8) : 0x2E ∉ digits b :=
  fun h => absurd (mem_digits b _ h).1 (by decide)

theorem dottedQuad_inverse : dottedQuad.Inverse where
  addr_ntoa x := by
    simp only [dottedQuad, Tokens.tokens_token (dot_notMem_digits _) (digits_ne_nil _),
      Tokens.tokens_of_notMem (dot_notMem_digits _) (digits_ne_nil _), number_digits,
      ofBytes_byteAt]
  ntoa_ne_nil x := by simp [dottedQuad]
  length_ntoa x := by
    have h0 := length_digits (byteAt x 0)
    have h1 := length_digits (byteAt x 1)
    have h2 := length_digits (byteAt x 2)
    have h3 := length_digits (byteAt x 3)
    simp only [dottedQuad, List.length_append, List.length_cons]
    omega
  mem_ntoa x := by
    intro b hb
    simp only [dottedQuad, List.mem_append, List.mem_cons] at hb
    rcases hb with hb | hb | hb | hb | hb | hb | hb
    · exact Or.inr (mem_digits _ b hb)
    · exact Or.inl hb
    · exact Or.inr (mem_digits _ b hb)
    · exact Or.inl hb
    · exact Or.inr (mem_digits _ b hb)
    · exact Or.inl hb
    · exact Or.inr (mem_digits _ b hb)

/-! ### Settings that survive -/

/-- **Set and get**: the settings of an enabled network are read back exactly when all four words
are palindromes, and a file of dotted quads is written back as it was exactly then. -/
theorem lanInfo_survives_iff {I : Inet} (hI : I.Inverse) (sys : System) (saveDev : DevInfo)
    (files : Network → List UInt8) (net : Network) (henable : saveDev.enable net ≠ 0)
    (x prev : LanVar) :
    (readNetworkConfig I (filesAfter I sys saveDev files net) prev = some (saveDev.network net) ↔
      (saveDev.network net).Forall Palindrome) ∧
    ((readNetworkConfig I (networkText I x) prev).map (writeNetworkConfig I) =
      some (networkText I x) ↔ x.Forall Palindrome) := by
  rw [filesAfter_of_enable I sys files henable, readNetworkConfig_write hI, Option.some.injEq,
    writeNetworkConfig_read hI, LanVar.map_htonl_eq_iff, LanVar.map_htonl_eq_iff]
  exact ⟨Iff.rfl, Iff.rfl⟩

/-- A request for the wired network, and scripts that succeed. -/
def wiredOnly (lan : List UInt8) : DevInfo := ⟨lan, List.replicate 16 0, List.replicate 140 0, 1, 0⟩

/-- A system whose scripts succeed. -/
def quiet : System := ⟨fun _ => 0, fun _ => 0, wiredOnly (List.replicate 16 0)⟩

theorem lanInfo_survives_loopback :
    let saveDev := wiredOnly [127, 0, 0, 127, 255, 255, 255, 255, 0, 0, 0, 0, 8, 8, 8, 8]
    saveDev.enable .eth0 ≠ 0 ∧
    (readNetworkConfig dottedQuad (filesAfter dottedQuad quiet saveDev (fun _ => []) .eth0)
        ⟨0, 0, 0, 0⟩ = some (saveDev.network .eth0) ↔
      (saveDev.network .eth0).Forall Palindrome) ∧
    ((readNetworkConfig dottedQuad (networkText dottedQuad ⟨1, 0, 0, 0⟩) ⟨0, 0, 0, 0⟩).map
        (writeNetworkConfig dottedQuad) = some (networkText dottedQuad ⟨1, 0, 0, 0⟩) ↔
      LanVar.Forall Palindrome ⟨1, 0, 0, 0⟩) :=
  ⟨by decide, lanInfo_survives_iff dottedQuad_inverse quiet _ _ .eth0 (by decide) _ _⟩

/-- The address 192.168.0.1 is read back as 1.0.168.192. -/
theorem lanInfo_survives_wrong :
    let saveDev := wiredOnly [1, 0, 168, 192, 0, 255, 255, 255, 254, 0, 168, 192, 8, 8, 8, 8]
    let out : LanVar := ⟨0x0100A8C0, 0x00FFFFFF, 0xFE00A8C0, 0x08080808⟩
    saveDev.enable .eth0 ≠ 0 ∧ dottedQuad.Inverse ∧
    (saveDev.network .eth0).lanAddr = 0xC0A80001 ∧
    readNetworkConfig dottedQuad (filesAfter dottedQuad quiet saveDev (fun _ => []) .eth0)
      ⟨0, 0, 0, 0⟩ = some out ∧ out ≠ saveDev.network .eth0 := by
  refine ⟨by decide, dottedQuad_inverse, by decide, ?_, by decide⟩
  rw [filesAfter_of_enable _ _ _ (by decide), readNetworkConfig_write dottedQuad_inverse]
  decide

end IdcuIot.SetupManager
