import IdcuIot.Lib.Memory

/-! # Writing inside an array

A function on memories keeps to an array of `n` bytes when every byte from address `n` on is what
it was, whatever it was (`KeepsFrom`).  It does not when it overwrites a byte there (`Overwrites`,
`not_keepsFrom`): what it makes of a memory then does not depend on that byte. -/

namespace Memory
namespace Mem

/-- Everything from address `n` on is left as it was. -/
def KeepsFrom (n : ℕ) (f : Mem → Mem) : Prop := ∀ m x, n ≤ x → f m x = m x

/-- The byte at `x` is not read before it is written. -/
def Overwrites (x : ℕ) (f : Mem → Mem) : Prop := ∀ m b, f (Function.update m x b) = f m

variable {f g : Mem → Mem} {m : Mem} {a k n x : ℕ} {b : UInt8} {l : List UInt8}

theorem not_keepsFrom (h : Overwrites x f) (hn : n ≤ x) : ¬ KeepsFrom n f := by
  intro hkeeps
  have hone := hkeeps (Function.update (fun _ => 0) x 1) x hn
  rw [h, hkeeps _ x hn, Function.update_self] at hone
  revert hone
  decide

theorem KeepsFrom.comp (hg : KeepsFrom n g) (hf : KeepsFrom n f) : KeepsFrom n (g ∘ f) :=
  fun m x hx => (hg (f m) x hx).trans (hf m x hx)

theorem Overwrites.comp (g : Mem → Mem) (h : Overwrites x f) : Overwrites x (g ∘ f) :=
  fun m b => congrArg g (h m b)

theorem keepsFrom_store (h : a + l.length ≤ n) : KeepsFrom n (fun m => m.store a l) :=
  fun m _ hx => m.store_of_le (h.trans hx)

theorem keepsFrom_clear (h : k ≤ n) : KeepsFrom n (fun m => m.clear 0 k) :=
  keepsFrom_store (by rwa [List.length_replicate, Nat.zero_add])

/-- A store at the beginning keeps to an array that is long enough, and to no other. -/
theorem keepsFrom_store_zero_iff (hf : KeepsFrom n f) :
    KeepsFrom n (fun m => (f m).store 0 l) ↔ l.length ≤ n := by
  constructor
  · intro h
    by_contra hlong
    have hbyte := h (fun _ => l[n] + 1) n le_rfl
    have hstored := store_zero (f (fun _ => l[n] + 1)) (show n < l.length by omega)
    simp [hstored] at hbyte
  · intro h
    exact (keepsFrom_store (by rwa [Nat.zero_add])).comp hf

/-! ### A store and one byte -/

theorem store_update_of_disjoint (h : x < a ∨ a + l.length ≤ x) :
    store (Function.update m x b) a l = Function.update (m.store a l) x b := by
  funext y
  by_cases hy : y = x
  · subst hy
    rw [Function.update_self]
    rcases h with h | h
    · rw [store_of_lt _ l h, Function.update_self]
    · rw [store_of_le _ h, Function.update_self]
  · rw [Function.update_of_ne hy]
    unfold store
    rw [Function.update_of_ne hy]

theorem store_update_of_mem (ha : a ≤ x) (hx : x < a + l.length) :
    store (Function.update m x b) a l = m.store a l := by
  funext y
  by_cases hy : y = x
  · subst hy
    obtain ⟨k, rfl⟩ := Nat.exists_eq_add_of_le ha
    have hk : k < l.length := by omega
    rw [store_add _ a hk, store_add _ a hk]
  · unfold store
    rw [Function.update_of_ne hy]

/-! ### Runs of stores -/

/-- Stores one after the other: their addresses, and what is written there. -/
def storeAll (m : Mem) (ws : List (ℕ × List UInt8)) : Mem :=
  ws.foldl (fun m w => m.store w.1 w.2) m

/-- The store writes the byte at `x`. -/
def Covers (w : ℕ × List UInt8) (x : ℕ) : Prop := w.1 ≤ x ∧ x < w.1 + w.2.length

section
variable {m' : Mem} {w : ℕ × List UInt8} {ws ws' : List (ℕ × List UInt8)}

@[simp] theorem storeAll_nil (m : Mem) : storeAll m [] = m := rfl

@[simp] theorem storeAll_cons (m : Mem) (w : ℕ × List UInt8) (ws : List (ℕ × List UInt8)) :
    storeAll m (w :: ws) = storeAll (m.store w.1 w.2) ws := rfl

@[simp] theorem storeAll_append (m : Mem) (ws ws' : List (ℕ × List UInt8)) :
    storeAll m (ws ++ ws') = storeAll (storeAll m ws) ws' := List.foldl_append

theorem store_of_not_covers (h : ¬ Covers w x) : m.store w.1 w.2 x = m x := by
  rcases Nat.lt_or_ge x w.1 with hlt | hge
  · exact store_of_lt m w.2 hlt
  · exact store_of_le m (Nat.not_lt.mp (fun hx => h ⟨hge, hx⟩))

theorem storeAll_of_not_covers (h : ∀ w ∈ ws, ¬ Covers w x) : storeAll m ws x = m x := by
  induction ws generalizing m with
  | nil => rfl
  | cons w ws ih =>
      rw [List.forall_mem_cons] at h
      rw [storeAll_cons, ih h.2, store_of_not_covers h.1]

/-- A byte depends on what it was, and on nothing else of the memory. -/
theorem storeAll_congr (h : m x = m' x) : storeAll m ws x = storeAll m' ws x := by
  induction ws generalizing m m' with
  | nil => exact h
  | cons w ws ih =>
      rw [storeAll_cons, storeAll_cons]
      apply ih
      simp only [store, h]

theorem overwrites_storeAll (hw : w ∈ ws) (h : Covers w x) : Overwrites x (storeAll · ws) := by
  induction ws with
  | nil => cases hw
  | cons w' ws ih =>
      intro m b
      simp only [storeAll_cons]
      by_cases hcovers : Covers w' x
      · rw [store_update_of_mem hcovers.1 hcovers.2]
      · have hout : x < w'.1 ∨ w'.1 + w'.2.length ≤ x := by
          rcases Nat.lt_or_ge x w'.1 with hlt | hge
          · exact Or.inl hlt
          · exact Or.inr (Nat.not_lt.mp (fun hx => hcovers ⟨hge, hx⟩))
        rcases List.mem_cons.mp hw with rfl | hw
        · exact absurd h hcovers
        · rw [store_update_of_disjoint hout]
          exact ih hw _ b

theorem exists_storeAll_ne (hw : w ∈ ws) (h : Covers w x) : ∃ m, storeAll m ws x ≠ m x := by
  by_contra hall
  push Not at hall
  have hsame : storeAll (Function.update (fun _ => 0) x 1) ws = storeAll (fun _ => 0) ws :=
    overwrites_storeAll hw h (fun _ => 0) 1
  have hbyte := congrFun hsame x
  rw [hall, hall, Function.update_self] at hbyte
  exact absurd hbyte (by decide)

/-- **Only the stores that cover a byte count**, in the order in which they are made. -/
theorem storeAll_flatMap_filter {β : Type*} {g : β → List (ℕ × List UInt8)} {p : β → Bool}
    {bs : List β} (h : ∀ b ∈ bs, p b = false → ∀ w ∈ g b, ¬ Covers w x) :
    storeAll m (bs.flatMap g) x = storeAll m ((bs.filter p).flatMap g) x := by
  induction bs generalizing m with
  | nil => rfl
  | cons b bs ih =>
      rw [List.forall_mem_cons] at h
      rw [List.flatMap_cons, storeAll_append, ih h.2]
      cases hb : p b with
      | true => rw [List.filter_cons_of_pos hb, List.flatMap_cons, storeAll_append]
      | false =>
          rw [List.filter_cons_of_neg (by simp [hb])]
          exact storeAll_congr (storeAll_of_not_covers (h.1 hb))

end

end Mem
end Memory
