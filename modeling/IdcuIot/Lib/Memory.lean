import Mathlib.Data.List.GetD
import Mathlib.Tactic

/-! # Byte memory

A C array together with whatever lies behind it is a total map from addresses to bytes:
reading past the last byte written gives a byte that earlier code left there, so nothing
may be assumed about it.

* `Mem.store m a l` writes the bytes `l` at address `a`; `Mem.slice m a n` reads the `n`
  bytes at `a`; `Mem.memcpy` is the two together.
* `slice_store`, `slice_store_of_disjoint` and `slice_add` are the laws the proofs use; a
  store changes nothing outside its own range (`store_of_lt`, `store_of_le`). -/

namespace Memory

/-- Contents of a byte array and of the memory behind it. -/
abbrev Mem := ℕ → UInt8

namespace Mem

/-- Write the bytes `l` at address `a`. -/
def store (m : Mem) (a : ℕ) (l : List UInt8) : Mem :=
  fun x => if a ≤ x then l.getD (x - a) (m x) else m x

/-- The `n` bytes at address `a`. -/
def slice (m : Mem) (a n : ℕ) : List UInt8 := (List.range n).map (fun k => m (a + k))

/-- `memcpy( dst + a, src + b, n )`. -/
def memcpy (dst : Mem) (a : ℕ) (src : Mem) (b n : ℕ) : Mem := dst.store a (src.slice b n)

/-- `memset( m + a, 0, n )`. -/
def clear (m : Mem) (a n : ℕ) : Mem := m.store a (List.replicate n 0)

/-! ### Reading one byte -/

theorem store_of_lt (m : Mem) {a x : ℕ} (l : List UInt8) (h : x < a) : m.store a l x = m x := by
  simp [store, Nat.not_le.mpr h]

theorem store_of_le (m : Mem) {a x : ℕ} {l : List UInt8} (h : a + l.length ≤ x) :
    m.store a l x = m x := by
  have h1 : a ≤ x := by omega
  have h2 : l.length ≤ x - a := by omega
  simp only [store, if_pos h1]
  exact List.getD_eq_default _ _ h2

theorem store_add (m : Mem) (a : ℕ) {l : List UInt8} {k : ℕ} (h : k < l.length) :
    m.store a l (a + k) = l[k] := by
  simp [store, h]

theorem store_zero (m : Mem) {l : List UInt8} {k : ℕ} (h : k < l.length) :
    m.store 0 l k = l[k] := by
  simp [store, h]

/-! ### Slices -/

@[simp] theorem length_slice (m : Mem) (a n : ℕ) : (m.slice a n).length = n := by simp [slice]

@[simp] theorem getElem_slice (m : Mem) (a n k : ℕ) (h : k < (m.slice a n).length) :
    (m.slice a n)[k] = m (a + k) := by simp [slice]

theorem slice_eq_iff (m : Mem) (a n : ℕ) (l : List UInt8) :
    m.slice a n = l ↔ l.length = n ∧ ∀ k, (h : k < l.length) → m (a + k) = l[k] := by
  constructor
  · rintro rfl
    exact ⟨m.length_slice a n, fun k h => (m.getElem_slice a n k h).symm⟩
  · rintro ⟨rfl, h⟩
    refine List.ext_getElem (m.length_slice a l.length) (fun k h1 h2 => ?_)
    rw [getElem_slice, h k h2]

theorem slice_add (m : Mem) (a n k : ℕ) : m.slice a (n + k) = m.slice a n ++ m.slice (a + n) k := by
  simp only [slice, List.range_add, List.map_append, List.map_map]
  congr 1
  simp [Function.comp_def, Nat.add_assoc]

@[simp] theorem slice_zero (m : Mem) (a : ℕ) : m.slice a 0 = [] := rfl

theorem slice_four (m : Mem) (a : ℕ) : m.slice a 4 = [m a, m (a + 1), m (a + 2), m (a + 3)] := rfl

theorem slice_congr {m m' : Mem} {a n : ℕ} (h : ∀ k, k < n → m (a + k) = m' (a + k)) :
    m.slice a n = m'.slice a n :=
  List.map_congr_left (fun k hk => h k (List.mem_range.mp hk))

theorem slice_take (m : Mem) (a : ℕ) {n k : ℕ} (h : k ≤ n) :
    (m.slice a n).take k = m.slice a k := by
  obtain ⟨d, rfl⟩ := Nat.exists_eq_add_of_le h
  rw [slice_add, List.take_left' (m.length_slice a k)]

theorem slice_drop (m : Mem) (a : ℕ) {n k : ℕ} (h : k ≤ n) :
    (m.slice a n).drop k = m.slice (a + k) (n - k) := by
  obtain ⟨d, rfl⟩ := Nat.exists_eq_add_of_le h
  rw [slice_add, List.drop_left' (m.length_slice a k), Nat.add_sub_cancel_left]

theorem slice_infix (m : Mem) {a b n k : ℕ} (h1 : a ≤ b) (h2 : b + k ≤ a + n) :
    m.slice b k <:+: m.slice a n := by
  obtain ⟨d, rfl⟩ := Nat.exists_eq_add_of_le h1
  obtain ⟨e, rfl⟩ := Nat.exists_eq_add_of_le (show d + k ≤ n by omega)
  rw [slice_add, slice_add]
  exact ⟨m.slice a d, m.slice (a + (d + k)) e, rfl⟩

theorem slice_store (m : Mem) (a : ℕ) (l : List UInt8) : (m.store a l).slice a l.length = l :=
  (slice_eq_iff _ _ _ _).mpr ⟨rfl, fun _ h => m.store_add a h⟩

theorem slice_store_of_disjoint (m : Mem) {a b n : ℕ} {l : List UInt8}
    (h : b + n ≤ a ∨ a + l.length ≤ b) : (m.store a l).slice b n = m.slice b n := by
  apply slice_congr
  intro k hk
  rcases h with h | h
  · exact m.store_of_lt l (by omega)
  · exact m.store_of_le (by omega)

theorem slice_memcpy (dst : Mem) (a : ℕ) (src : Mem) (b n : ℕ) :
    (dst.memcpy a src b n).slice a n = src.slice b n := by
  have h := dst.slice_store a (src.slice b n)
  rwa [length_slice] at h

theorem slice_store_append (m : Mem) (a n : ℕ) (l : List UInt8) :
    (m.store (a + n) l).slice a (n + l.length) = m.slice a n ++ l := by
  rw [slice_add, slice_store, slice_store_of_disjoint m (Or.inl le_rfl)]

@[simp] theorem store_nil (m : Mem) (a : ℕ) : m.store a [] = m := by
  funext x
  simp [store]

theorem store_append (m : Mem) (a : ℕ) (l l' : List UInt8) :
    m.store a (l ++ l') = (m.store a l).store (a + l.length) l' := by
  funext x
  unfold store
  by_cases h : a ≤ x
  · by_cases h' : a + l.length ≤ x
    · rw [if_pos h, if_pos h', List.getD_append_right _ _ _ _ (by omega), if_pos h,
        Nat.sub_sub, List.getD_eq_default l _ (by omega)]
    · rw [if_pos h, if_neg h', List.getD_append _ _ _ _ (by omega), if_pos h]
  · rw [if_neg h, if_neg (by omega), if_neg h]

theorem store_of_slice {m : Mem} {a : ℕ} {l : List UInt8} (h : m.slice a l.length = l) :
    m.store a l = m := by
  funext x
  by_cases hx : a ≤ x ∧ x < a + l.length
  · obtain ⟨k, rfl⟩ := Nat.exists_eq_add_of_le hx.1
    have hk : k < l.length := by omega
    rw [store_add m a hk, ((slice_eq_iff _ _ _ _).mp h).2 k hk]
  · rcases not_and_or.mp hx with hx | hx
    · exact store_of_lt m l (by omega)
    · exact store_of_le m (by omega)

theorem slice_eq_replicate {m : Mem} {a n : ℕ} (h : ∀ x, a ≤ x → x < a + n → m x = 0) :
    m.slice a n = List.replicate n 0 := by
  refine (slice_eq_iff _ _ _ _).mpr ⟨List.length_replicate, fun k hk => ?_⟩
  rw [List.length_replicate] at hk
  rw [List.getElem_replicate, h (a + k) (by omega) (by omega)]

theorem clear_of_lt (m : Mem) {n x : ℕ} (h : x < n) : m.clear 0 n x = 0 := by
  have hx : x < (List.replicate n (0 : UInt8)).length := by rwa [List.length_replicate]
  rw [clear, store_zero m hx, List.getElem_replicate]

theorem eq_getElem_of_slice {m : Mem} {a n : ℕ} {l : List UInt8} (h : m.slice a n = l) {k : ℕ}
    (hk : k < l.length) : m (a + k) = l[k] :=
  ((slice_eq_iff m a n l).mp h).2 k hk

/-! ### What a function reads -/

variable {α : Type*}

/-- Two memories agree below address `n`. -/
def AgreeBelow (n : ℕ) (m m' : Mem) : Prop := ∀ i < n, m i = m' i

theorem AgreeBelow.mono {k n : ℕ} {m m' : Mem} (h : AgreeBelow n m m') (hk : k ≤ n) :
    AgreeBelow k m m' := fun i hi => h i (hi.trans_le hk)

theorem agreeBelow_update {k n : ℕ} (h : k ≤ n) (m : Mem) (b : UInt8) :
    AgreeBelow k m (Function.update m n b) :=
  fun _ hi => (Function.update_of_ne (by omega) b m).symm

/-- A function that reads below address `n`, up to the last byte there, depends on the bytes below
`k` alone exactly when `n` is not behind `k`. -/
theorem forall_agreeBelow_iff {f : Mem → α} {n k : ℕ} {m : Mem}
    (hbelow : ∀ m', AgreeBelow n m m' → f m' = f m)
    (hlast : k < n → ∃ b, f (Function.update m (n - 1) b) ≠ f m) :
    (∀ m', AgreeBelow k m m' → f m' = f m) ↔ n ≤ k := by
  constructor
  · intro h
    by_contra hlt
    obtain ⟨b, hb⟩ := hlast (by omega)
    exact hb (h _ (agreeBelow_update (by omega) m b))
  · exact fun hle m' hm => hbelow m' (hm.mono hle)

end Mem
end Memory
