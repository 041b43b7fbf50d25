import IdcuIot.Lib.Memory
import IdcuIot.Lib.Tokens

/-! # C strings in memory

`IsString m a s`: at address `a` lies the string `s`.  `strcpy` makes one, a store elsewhere
leaves it alone, and `strtok` cuts it: the laws of `strtok` follow the shape of the string
(`Tokens.Shape`).  `HasString` says less, that there is some string made of given bytes, and is
kept by every call of `strtok`. -/

namespace CString

open Memory Tokens

/-- The string at address `a` of an array that ends before `limit`. -/
def cstr (m : Mem) (a limit : ℕ) : List UInt8 := (m.slice a (limit - a)).takeWhile (· ≠ 0)

/-- At address `a` lies the string `s`. -/
structure IsString (m : Mem) (a : ℕ) (s : List UInt8) : Prop where
  bytes : m.slice a s.length = s
  stop : m (a + s.length) = 0
  nonzero : 0 ∉ s

/-- `strcpy( m + a, s )`. -/
def strcpy (m : Mem) (a : ℕ) (s : List UInt8) : Mem := m.store a (s ++ [0])

section
variable {m m' : Mem} {a b limit : ℕ} {s t l : List UInt8}

theorem IsString.slice_succ (h : IsString m a s) : m.slice a (s.length + 1) = s ++ [0] := by
  rw [Mem.slice_add, h.bytes]
  exact congrArg (s ++ ·) (by simp [Mem.slice, h.stop])

theorem isString_of_slice (h : m.slice a (s.length + 1) = s ++ [0]) (h0 : 0 ∉ s) :
    IsString m a s := by
  rw [Mem.slice_add] at h
  obtain ⟨h1, h2⟩ := List.append_inj h (m.length_slice a s.length)
  exact ⟨h1, by simpa [Mem.slice] using h2, h0⟩

theorem IsString.congr (h : IsString m a s) (heq : ∀ x, a ≤ x → x ≤ a + s.length → m' x = m x) :
    IsString m' a s := by
  refine ⟨?_, ?_, h.nonzero⟩
  · have hslice : m'.slice a s.length = m.slice a s.length :=
      Mem.slice_congr (fun k hk => heq _ (by omega) (by omega))
    rw [hslice, h.bytes]
  · rw [heq _ (by omega) le_rfl, h.stop]

theorem IsString.cstr_eq (h : IsString m a s) (hlimit : a + s.length < limit) :
    cstr m a limit = s := by
  obtain ⟨k, hk⟩ := Nat.exists_eq_add_of_lt hlimit
  rw [cstr, show limit - a = s.length + 1 + k by omega, Mem.slice_add, h.slice_succ,
    List.append_assoc, takeWhile_ne_append h.nonzero]
  simp

theorem IsString.drop (h : IsString m a (s ++ t)) : IsString m (a + s.length) t := by
  have hbytes := h.slice_succ
  rw [List.length_append, Nat.add_assoc, Mem.slice_add, List.append_assoc] at hbytes
  obtain ⟨-, h2⟩ := List.append_inj hbytes (m.length_slice a s.length)
  exact isString_of_slice h2 (fun h' => h.nonzero (List.mem_append_right s h'))

theorem IsString.cut {c : UInt8} (h : IsString m a (s ++ c :: t)) :
    IsString (m.store (a + s.length) [0]) a s := by
  have hbytes := h.bytes
  rw [List.length_append, Mem.slice_add] at hbytes
  obtain ⟨h1, -⟩ := List.append_inj hbytes (m.length_slice a s.length)
  refine ⟨?_, ?_, fun h' => h.nonzero (List.mem_append_left _ h')⟩
  · rw [Mem.slice_store_of_disjoint m (Or.inl le_rfl), h1]
  · exact Mem.store_add m (a + s.length) (k := 0) (by decide)

theorem IsString.drop_at (h : IsString m a s) {k : ℕ} (hk : k ≤ s.length) :
    IsString m (a + k) (s.drop k) := by
  have hsplit : IsString m a (s.take k ++ s.drop k) := by rwa [List.take_append_drop]
  have hdrop := hsplit.drop
  rwa [List.length_take, Nat.min_eq_left hk] at hdrop

theorem IsString.cut_at (h : IsString m a s) {k : ℕ} (hk : k < s.length) :
    IsString (m.store (a + k) [0]) a (s.take k) := by
  have hsplit : IsString m a (s.take k ++ s[k] :: s.drop (k + 1)) := by
    rwa [List.getElem_cons_drop, List.take_append_drop]
  have hcut := hsplit.cut
  rwa [List.length_take, Nat.min_eq_left hk.le] at hcut

theorem isString_strcpy (m : Mem) (a : ℕ) (h : 0 ∉ s) : IsString (strcpy m a s) a s := by
  refine isString_of_slice ?_ h
  have := m.slice_store a (s ++ [0])
  rwa [List.length_append] at this

theorem IsString.store (h : IsString m a s) (hd : a + s.length < b ∨ b + l.length ≤ a) :
    IsString (m.store b l) a s := by
  apply h.congr
  intro x h1 h2
  rcases hd with hd | hd
  · exact m.store_of_lt l (by omega)
  · exact m.store_of_le (by omega)

/-! ### Strings read from an array -/

theorem length_cstr_le (m : Mem) (a limit : ℕ) : (cstr m a limit).length ≤ limit - a := by
  have hfront := (List.takeWhile_prefix (l := m.slice a (limit - a)) (· ≠ 0)).length_le
  rwa [Mem.length_slice] at hfront

theorem ne_zero_of_mem_cstr {b : UInt8} (h : b ∈ cstr m a limit) : b ≠ 0 := by
  simpa using List.mem_takeWhile_imp h

theorem cstr_congr (h : ∀ x, a ≤ x → x < limit → m' x = m x) : cstr m' a limit = cstr m a limit := by
  have hslice : m'.slice a (limit - a) = m.slice a (limit - a) :=
    Mem.slice_congr (fun k hk => h _ (by omega) (by omega))
  rw [cstr, cstr, hslice]

theorem cstr_of_zero {k : ℕ} (h : m (a + k) = 0) (hk : a + k < limit) :
    cstr m a limit = cstr m a (a + k) := by
  obtain ⟨n, rfl⟩ := Nat.exists_eq_add_of_lt hk
  rw [cstr, cstr, show a + k + n + 1 - a = k + (1 + n) by omega, Nat.add_sub_cancel_left,
    Mem.slice_add, Mem.slice_add, List.takeWhile_append]
  split_ifs with hall
  · have hone : m.slice (a + k) 1 = [0] := congrArg (fun b => [b]) h
    rw [hone, List.singleton_append, List.takeWhile_cons_of_neg (by simp), List.append_nil]
    exact (List.Sublist.eq_of_length (List.takeWhile_sublist _) hall).symm
  · rfl

theorem cstr_slice (m : Mem) (a limit : ℕ) :
    m.slice a (cstr m a limit).length = cstr m a limit := by
  rw [← m.slice_take a (length_cstr_le m a limit)]
  exact (List.prefix_iff_eq_take.mp (List.takeWhile_prefix _)).symm

theorem zero_of_length_cstr (h : a + (cstr m a limit).length < limit) :
    m (a + (cstr m a limit).length) = 0 := by
  cases hd : (m.slice a (limit - a)).dropWhile (· ≠ 0) with
  | nil =>
      have hall := List.takeWhile_append_dropWhile (p := (· ≠ 0)) (l := m.slice a (limit - a))
      rw [hd, List.append_nil] at hall
      have hlen := congrArg List.length hall
      rw [Mem.length_slice] at hlen
      rw [cstr] at h
      omega
  | cons b rest =>
      have hzero : b = 0 := by
        have hhead := List.head?_dropWhile_not (· ≠ 0) (m.slice a (limit - a))
        rw [hd] at hhead
        simpa using hhead
      have hsplit : m.slice a (limit - a) = cstr m a limit ++ b :: rest := by
        rw [← hd]
        exact (List.takeWhile_append_dropWhile ..).symm
      have hbyte := Mem.eq_getElem_of_slice hsplit (k := (cstr m a limit).length) (by simp)
      simpa [hzero] using hbyte

theorem isString_cstr (h : a + (cstr m a limit).length < limit) :
    IsString m a (cstr m a limit) :=
  ⟨cstr_slice m a limit, zero_of_length_cstr h, fun h0 => ne_zero_of_mem_cstr h0 rfl⟩

theorem cstr_strcpy (m : Mem) (a n : ℕ) (h : 0 ∉ s) : cstr (strcpy m a s) a (a + n) = s.take n := by
  have hs := isString_strcpy m a h
  rcases Nat.lt_or_ge s.length n with hlt | hge
  · rw [hs.cstr_eq (by omega), List.take_of_length_le hlt.le]
  · have htake := Mem.slice_take (strcpy m a s) a hge
    rw [hs.bytes] at htake
    rw [cstr, Nat.add_sub_cancel_left, ← htake, List.takeWhile_eq_self_iff]
    intro b hb
    exact decide_eq_true (fun h0 => h (h0 ▸ List.mem_of_mem_take hb))

end

/-! ### `strtok` -/

/-- What `strtok` returns, where the next call goes on, and the memory. -/
structure StrTok where
  token : Option (List UInt8)
  next : ℕ
  mem : Mem

/-- `strtok` from address `a` in an array that ends before `limit`. -/
def strtok (delim : UInt8) (limit : ℕ) (m : Mem) (a : ℕ) : StrTok :=
  let s := cstr m a limit
  let e := firstEnd delim s
  if first delim s = [] then ⟨none, a + e, m⟩
  else if e < s.length then ⟨some (first delim s), a + e + 1, m.store (a + e) [0]⟩
  else ⟨some (first delim s), a + e, m⟩

section
variable {m : Mem} {a limit n : ℕ} {d : UInt8} {t r : List UInt8}

theorem strtok_blank (h : IsString m a (List.replicate n d)) (hlimit : a + n < limit) :
    strtok d limit m a = ⟨none, a + n, m⟩ := by
  have hs : cstr m a limit = List.replicate n d := h.cstr_eq (by simpa using hlimit)
  simp only [strtok, hs, first_blank, firstEnd_blank, if_true]

theorem strtok_last (hne : t ≠ []) (hd : d ∉ t) (h : IsString m a (List.replicate n d ++ t))
    (hlimit : a + (n + t.length) < limit) :
    strtok d limit m a = ⟨some t, a + (n + t.length), m⟩ := by
  have hs : cstr m a limit = List.replicate n d ++ t := h.cstr_eq (by simpa using hlimit)
  simp only [strtok, hs, first_last n hne hd, firstEnd_last n hne hd, if_neg hne,
    List.length_append, List.length_replicate, lt_irrefl, if_false]

theorem strtok_of_cstr (hne : t ≠ []) (hd : d ∉ t)
    (hs : cstr m a limit = List.replicate n d ++ (t ++ d :: r)) :
    strtok d limit m a = ⟨some t, a + (n + t.length) + 1, m.store (a + (n + t.length)) [0]⟩ := by
  have hlt : n + t.length < (List.replicate n d ++ (t ++ d :: r)).length := by
    simp only [List.length_append, List.length_replicate, List.length_cons]
    omega
  simp only [strtok, hs, first_token n hne hd, firstEnd_token n hne hd, if_neg hne, if_pos hlt]

theorem strtok_token (hne : t ≠ []) (hd : d ∉ t)
    (h : IsString m a (List.replicate n d ++ (t ++ d :: r)))
    (hlimit : a + (n + t.length + 1 + r.length) < limit) :
    strtok d limit m a =
      ⟨some t, a + (n + t.length) + 1, m.store (a + (n + t.length)) [0]⟩ :=
  strtok_of_cstr hne hd (h.cstr_eq (by
    simp only [List.length_append, List.length_replicate, List.length_cons]
    omega))

theorem strtok_isString (hd : d ∉ t) (h : IsString m a (List.replicate n d ++ t))
    (hlimit : a + (n + t.length) < limit) :
    strtok d limit m a = ⟨if t = [] then none else some t, a + (n + t.length), m⟩ := by
  split_ifs with ht
  · subst ht
    rw [List.append_nil] at h
    exact strtok_blank h hlimit
  · exact strtok_last ht hd h hlimit

/-- What stands in front of the cut, and the delimiter that was there. -/
theorem cut_of_cstr (hs : cstr m a limit = List.replicate n d ++ (t ++ d :: r)) :
    m (a + (n + t.length)) = d ∧
      IsString (m.store (a + (n + t.length)) [0]) a (List.replicate n d ++ t) := by
  have hlen : (List.replicate n d ++ t).length = n + t.length := by simp
  have hread := cstr_slice m a limit
  have hnonzero : (0 : UInt8) ∉ cstr m a limit := fun h => ne_zero_of_mem_cstr h rfl
  rw [← List.append_assoc] at hs
  rw [hs] at hread hnonzero
  rw [List.length_append, hlen, Mem.slice_add] at hread
  obtain ⟨hfront, hbehind⟩ := List.append_inj hread (by simp)
  refine ⟨Mem.eq_getElem_of_slice hbehind (k := 0) (by simp), ?_, ?_, ?_⟩
  · rw [hlen, Mem.slice_store_of_disjoint m (Or.inl le_rfl), hfront]
  · rw [hlen]
    exact Mem.store_add m _ (k := 0) (by decide)
  · exact fun h => hnonzero (List.mem_append_left _ h)

/-- What `strtok` leaves of a string that ends before `limit`: the delimiters in front and the
token, which ends where the string did or where a delimiter was. -/
theorem strtok_leaves (hend : a + firstEnd d (cstr m a limit) < limit) :
    ∃ n t, d ∉ t ∧ t = first d (cstr m a limit) ∧ n + t.length = firstEnd d (cstr m a limit) ∧
      (strtok d limit m a).token = (if t = [] then none else some t) ∧
      IsString (strtok d limit m a).mem a (List.replicate n d ++ t) ∧
      ((strtok d limit m a).mem = m ∨ m (a + (n + t.length)) = d ∧
        (strtok d limit m a).mem = m.store (a + (n + t.length)) [0]) := by
  have hstring := @isString_cstr m a limit
  generalize hs : cstr m a limit = s at hend hstring ⊢
  cases shape d s with
  | blank n =>
      rw [firstEnd_blank] at hend ⊢
      have hblank := hstring (by rwa [List.length_replicate])
      refine ⟨n, [], List.not_mem_nil, (first_blank d n).symm, rfl, ?_⟩
      rw [strtok_blank hblank hend, List.append_nil]
      exact ⟨rfl, hblank, Or.inl rfl⟩
  | @last n t hne hd =>
      rw [firstEnd_last n hne hd] at hend ⊢
      have hlast := hstring (by rwa [List.length_append, List.length_replicate])
      refine ⟨n, t, hd, (first_last n hne hd).symm, rfl, ?_⟩
      rw [strtok_last hne hd hlast hend, if_neg hne]
      exact ⟨rfl, hlast, Or.inl rfl⟩
  | @token n t r hne hd =>
      obtain ⟨hdelim, hcut⟩ := cut_of_cstr hs
      rw [firstEnd_token n hne hd]
      refine ⟨n, t, hd, (first_token n hne hd r).symm, rfl, ?_⟩
      rw [strtok_of_cstr hne hd hs, if_neg hne]
      exact ⟨rfl, hcut, Or.inr ⟨hdelim, rfl⟩⟩

theorem strtok_mem_of_ne {x : ℕ} (hx : m x ≠ d) : (strtok d limit m a).mem x = m x := by
  unfold strtok
  dsimp only
  split_ifs with hfirst hend
  · rfl
  · have hlimit := length_cstr_le m a limit
    have hbyte := getElem_firstEnd hend
    have hfront : cstr m a limit <+: m.slice a (limit - a) := List.takeWhile_prefix _
    have hread : m (a + firstEnd d (cstr m a limit)) = d :=
      ((hfront.getElem hend).trans (Mem.getElem_slice m a _ _ _)).symm.trans hbyte
    have hne : x ≠ a + firstEnd d (cstr m a limit) := fun h => hx (h ▸ hread)
    rcases Nat.lt_or_gt_of_ne hne with hlt | hgt
    · exact Mem.store_of_lt m _ hlt
    · exact Mem.store_of_le m hgt
  · rfl

theorem first_of_strtok (h : (strtok d limit m a).token = some t) :
    first d (cstr m a limit) ≠ [] ∧ first d (cstr m a limit) = t := by
  unfold strtok at h
  dsimp only at h
  split_ifs at h with h1 h2
  · exact ⟨h1, Option.some.inj h⟩
  · exact ⟨h1, Option.some.inj h⟩

theorem strtok_of_first (h : first d (cstr m a limit) ≠ []) :
    (strtok d limit m a).token = some (first d (cstr m a limit)) := by
  unfold strtok
  dsimp only
  rw [if_neg h]
  split_ifs
  · rfl
  · rfl

theorem of_strtok (h : (strtok d limit m a).token = some t) :
    t ≠ [] ∧ (∀ b ∈ t, b ≠ 0 ∧ b ≠ d) ∧ t.length ≤ limit - a := by
  obtain ⟨hne, rfl⟩ := first_of_strtok h
  have hend := firstEnd_le d (cstr m a limit)
  have hlimit := length_cstr_le m a limit
  rw [firstEnd] at hend
  refine ⟨hne, fun b hb => ?_, by omega⟩
  obtain ⟨hmem, hd⟩ := of_mem_first hb
  exact ⟨ne_zero_of_mem_cstr hmem, hd⟩

end

/-! ### Strings made of given bytes -/

/-- At address `a` lies a string of bytes that are all such that `A`. -/
def HasString (A : UInt8 → Prop) (m : Mem) (a : ℕ) : Prop := ∃ s, IsString m a s ∧ ∀ b ∈ s, A b

section
variable {A : UInt8 → Prop} {m : Mem} {a limit : ℕ} {d : UInt8} {s t : List UInt8}

theorem HasString.store_zero (h : HasString A m a) (x : ℕ) : HasString A (m.store x [0]) a := by
  obtain ⟨s, hs, hA⟩ := h
  rcases Nat.lt_or_ge x a with hlt | hle
  · exact ⟨s, hs.store (Or.inr hlt), hA⟩
  obtain ⟨k, rfl⟩ := Nat.exists_eq_add_of_le hle
  rcases Nat.lt_trichotomy k s.length with hk | rfl | hk
  · exact ⟨s.take k, hs.cut_at hk, fun b hb => hA b (List.mem_of_mem_take hb)⟩
  · rw [Mem.store_of_slice (by simp [Mem.slice, hs.stop])]
    exact ⟨s, hs, hA⟩
  · exact ⟨s, hs.store (Or.inl (by omega)), hA⟩

theorem cstr_initial (h : IsString m a s) (limit : ℕ) : cstr m a limit <+: s := by
  rcases Nat.lt_or_ge (a + s.length) limit with hlt | hge
  · rw [h.cstr_eq hlt]
  · have htake := m.slice_take a (show limit - a ≤ s.length by omega)
    rw [h.bytes] at htake
    rw [cstr, ← htake]
    exact (List.takeWhile_prefix _).trans (List.take_prefix _ _)

theorem HasString.strtok_mem (h : HasString A m a) (d : UInt8) (limit b : ℕ) :
    HasString A (strtok d limit m b).mem a := by
  unfold strtok
  dsimp only
  split_ifs
  · exact h
  · exact h.store_zero _
  · exact h

theorem HasString.strtok_next (h : HasString A m a) (d : UInt8) (limit : ℕ) :
    HasString A (strtok d limit m a).mem (strtok d limit m a).next := by
  obtain ⟨s, hs, hA⟩ := h
  have hlen := (cstr_initial hs limit).length_le
  have hdrop : ∀ k, k ≤ s.length → HasString A m (a + k) := fun k hk =>
    ⟨s.drop k, hs.drop_at hk, fun b hb => hA b (List.mem_of_mem_drop hb)⟩
  have hend := firstEnd_le d (cstr m a limit)
  unfold strtok
  dsimp only
  split_ifs
  · exact hdrop _ (by omega)
  · rw [Nat.add_assoc]
    exact (hdrop _ (by omega)).store_zero _
  · exact hdrop _ (by omega)

theorem HasString.of_token (h : HasString A m a) (ht : (strtok d limit m a).token = some t) :
    t ≠ [] ∧ ∀ b ∈ t, A b ∧ b ≠ 0 ∧ b ≠ d := by
  obtain ⟨s, hs, hA⟩ := h
  obtain ⟨hne, rfl⟩ := first_of_strtok ht
  refine ⟨hne, fun b hb => ?_⟩
  obtain ⟨hmem, hd⟩ := of_mem_first hb
  have hbs := (cstr_initial hs limit).subset hmem
  exact ⟨hA b hbs, fun h0 => hs.nonzero (h0 ▸ hbs), hd⟩

end
end CString
