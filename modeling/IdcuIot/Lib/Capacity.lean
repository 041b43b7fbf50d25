import IdcuIot.Lib.History
import IdcuIot.Lib.Reassembly

/-! # Receivers with a buffer

A receiver that appends what it reads to the bytes it has kept overruns its buffer when there is
no room for a read that it takes.  What it has kept is settled by the last read it took:
`fits_iff` traces the overrun back to what that read left in the buffer. -/

namespace Reassembly

open History Receiver

variable {σ γ β ε : Type*}

/-- A receiver with a buffer.  From the number of bytes in it and the length of a read, `skips`
tells whether the read is thrown away; `Leaves s c n` says that `n` bytes are left in the buffer
after a read `c` that is taken in state `s`. -/
structure Buffered (R : Receiver σ γ β ε) where
  size : σ → ℕ
  skips : ℕ → ℕ → Bool
  Leaves : σ → γ → ℕ → Prop
  read_of_skips : ∀ {s c}, skips (size s) (R.data c).length = true → R.read s c = some s
  leaves_read : ∀ {s c s'}, R.data c ≠ [] → skips (size s) (R.data c).length = false →
    R.read s c = some s' → Leaves s c (size s')
  leaves_unique : ∀ {s c n n'}, Leaves s c n → Leaves s c n' → n = n'

namespace Buffered

variable {R : Receiver σ γ β ε} (B : Buffered R)

/-- After the reads `before`, there is room for the read `c` unless it is thrown away. -/
def Fits (capacity : ℕ) (s₀ : σ) (before : List γ) (c : γ) : Prop :=
  ∀ s, R.run s₀ before = some s → B.skips (B.size s) (R.data c).length = false →
    B.size s + (R.data c).length ≤ capacity

/-- In a run over the reads `before`, the last of them that was taken has left room for the next
one that is. -/
def LeavesRoom (capacity : ℕ) (s₀ : σ) (before : List γ) (c : γ) : Prop :=
  ∀ pre c₀ mid s n, before = pre ++ c₀ :: mid → R.run s₀ pre = some s →
    B.skips (B.size s) (R.data c₀).length = false → B.Leaves s c₀ n →
    (∀ x ∈ mid, B.skips n (R.data x).length = true) → (R.run s₀ before).isSome = true →
    B.skips n (R.data c).length = false → n + (R.data c).length ≤ capacity

variable {B} {s₀ s : σ} {before : List γ}

theorem run_of_skips {cs : List γ}
    (h : ∀ x ∈ cs, B.skips (B.size s) (R.data x).length = true) : R.run s cs = some s := by
  induction cs with
  | nil => rfl
  | cons c cs ih =>
      obtain ⟨hc, hcs⟩ := List.forall_mem_cons.mp h
      rw [R.run_cons_of_read (B.read_of_skips hc), ih hcs]

/-- What is in the buffer is what the last read that was taken left there. -/
theorem size_run {pre mid : List γ} {c₀ : γ} {s₁ : σ} {n : ℕ} (hc : R.data c₀ ≠ [])
    (hpre : R.run s₀ pre = some s₁) (htaken : B.skips (B.size s₁) (R.data c₀).length = false)
    (hn : B.Leaves s₁ c₀ n) (hmid : ∀ x ∈ mid, B.skips n (R.data x).length = true)
    (h : R.run s₀ (pre ++ c₀ :: mid) = some s) : B.size s = n := by
  rw [R.run_append, hpre, Option.bind_some, R.run_cons] at h
  obtain ⟨s₂, hread, hrun⟩ := Option.bind_eq_some_iff.mp h
  have hsize := B.leaves_unique (B.leaves_read hc htaken hread) hn
  rw [run_of_skips (hsize ▸ hmid)] at hrun
  rw [← Option.some_inj.mp hrun, hsize]

theorem exists_taken (h0 : B.size s₀ = 0) (hne : ∀ c ∈ before, R.data c ≠ []) :
    ∀ {s : σ}, R.run s₀ before = some s → B.size s = 0 ∨ ∃ pre c₀ mid s₁,
      before = pre ++ c₀ :: mid ∧ R.run s₀ pre = some s₁ ∧
        B.skips (B.size s₁) (R.data c₀).length = false ∧ B.Leaves s₁ c₀ (B.size s) ∧
        ∀ x ∈ mid, B.skips (B.size s) (R.data x).length = true := by
  induction before using List.reverseRecOn with
  | nil =>
      intro s h
      exact Or.inl (Option.some_inj.mp h ▸ h0)
  | append_singleton before c ih =>
      intro s h
      rw [R.run_append] at h
      obtain ⟨s₁, hrun, hlast⟩ := Option.bind_eq_some_iff.mp h
      rw [R.run_cons, Option.bind_eq_some_iff] at hlast
      obtain ⟨s₂, hread, hs₂⟩ := hlast
      obtain rfl := Option.some_inj.mp hs₂
      cases hskips : B.skips (B.size s₁) (R.data c).length with
      | true =>
          obtain rfl := Option.some_inj.mp ((B.read_of_skips hskips).symm.trans hread)
          apply (ih (fun x hx => hne x (List.mem_append_left _ hx)) hrun).imp_right
          rintro ⟨pre, c₀, mid, s₂, rfl, hpre, htaken, hleaves, hmid⟩
          refine ⟨pre, c₀, mid ++ [c], s₂, List.append_assoc _ _ _, hpre, htaken, hleaves, ?_⟩
          exact List.forall_mem_append.mpr ⟨hmid, by simpa using hskips⟩
      | false =>
          refine Or.inr ⟨before, c, [], s₁, rfl, hrun, hskips, ?_, by simp⟩
          exact B.leaves_read (hne c (by simp)) hskips hread

/-- There is room for a read exactly when the last read that was taken has left it. -/
theorem fits_iff {capacity : ℕ} {c : γ} (h0 : B.size s₀ = 0) (hne : ∀ x ∈ before, R.data x ≠ [])
    (hc : (R.data c).length ≤ capacity) :
    B.Fits capacity s₀ before c ↔ B.LeavesRoom capacity s₀ before c := by
  constructor
  · intro h pre c₀ mid s₁ n heq hpre htaken hn hmid hrun hskips
    obtain ⟨s, hs⟩ := Option.isSome_iff_exists.mp hrun
    have hsize : B.size s = n :=
      size_run (hne c₀ (by simp [heq])) hpre htaken hn hmid (heq ▸ hs)
    rw [← hsize] at hskips ⊢
    exact h s hs hskips
  · intro h s hs hskips
    rcases exists_taken h0 hne hs with hzero | ⟨pre, c₀, mid, s₁, heq, hpre, htaken, hn, hmid⟩
    · rw [hzero, Nat.zero_add]
      exact hc
    · exact h pre c₀ mid s₁ _ heq hpre htaken hn hmid (by rw [hs]; rfl) hskips

/-- **Overruns**: in a run, every read fits exactly when every read leaves room. -/
theorem atEvery_fits_iff {capacity : ℕ} {cs : List γ} (h0 : B.size s₀ = 0)
    (hcs : ∀ c ∈ cs, R.data c ≠ [] ∧ (R.data c).length ≤ capacity) :
    AtEvery (B.Fits capacity s₀) cs ↔ AtEvery (B.LeavesRoom capacity s₀) cs := by
  have hiff : ∀ before c after, cs = before ++ c :: after →
      (B.Fits capacity s₀ before c ↔ B.LeavesRoom capacity s₀ before c) := by
    rintro before c after rfl
    exact fits_iff h0 (fun x hx => (hcs x (List.mem_append_left _ hx)).1) (hcs c (by simp)).2
  constructor
  · exact fun h before c after heq => (hiff before c after heq).mp (h before c after heq)
  · exact fun h before c after heq => (hiff before c after heq).mpr (h before c after heq)

end Buffered
end Reassembly
