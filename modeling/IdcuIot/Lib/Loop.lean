import Mathlib.Tactic

/-! # Loops that need not end

A loop is a partial function `next`: what one round makes of the locals, and `none` where the
condition of the loop fails.  `run` executes it with a bound on the number of rounds, `Steps` counts
rounds, and a loop `Terminates` when some bound is large enough.  It does so if and only if it does
after any number of rounds (`Steps.terminates_iff`), and it does not while a set of states is left
and entered again (`not_terminates_of_recurs`). -/

namespace Loop

variable {σ : Type*} (next : σ → Option σ)

/-- At most `fuel` rounds; `none` when the loop has not ended by then. -/
def run : ℕ → σ → Option σ
  | 0, _ => none
  | fuel + 1, s =>
      match next s with
      | none => some s
      | some s' => run fuel s'

/-- After exactly `n` rounds from `s` the locals are `t`. -/
def Steps : ℕ → σ → σ → Prop
  | 0, s, t => s = t
  | n + 1, s, t => ∃ s', next s = some s' ∧ Steps n s' t

/-- The loop ends. -/
def Terminates (s : σ) : Prop := ∃ fuel t, run next fuel s = some t

variable {next} {s t u : σ} {n k : ℕ}

theorem Steps.trans (h : Steps next n s t) (h' : Steps next k t u) : Steps next (n + k) s u := by
  induction n generalizing s with
  | zero =>
      cases h
      rwa [Nat.zero_add]
  | succ n ih =>
      obtain ⟨s', hs, h⟩ := h
      rw [Nat.add_right_comm]
      exact ⟨s', hs, ih h⟩

theorem Steps.one (h : next s = some t) : Steps next 1 s t := ⟨t, h, rfl⟩

theorem Steps.unique (h : Steps next n s t) (h' : Steps next n s u) : t = u := by
  induction n generalizing s with
  | zero => exact h.symm.trans h'
  | succ n ih =>
      obtain ⟨s', hs, h⟩ := h
      obtain ⟨s'', hs', h'⟩ := h'
      rw [hs] at hs'
      cases hs'
      exact ih h h'

theorem Steps.of_le (h : Steps next n s t) (h' : Steps next k s u) (hle : n ≤ k) :
    Steps next (k - n) t u := by
  induction n generalizing s k with
  | zero =>
      cases h
      exact h'
  | succ n ih =>
      obtain ⟨s', hs, h⟩ := h
      obtain ⟨k, rfl⟩ := Nat.exists_eq_add_of_le hle
      rw [show n + 1 + k = (n + k) + 1 by omega] at h'
      obtain ⟨s'', hs', h'⟩ := h'
      rw [hs] at hs'
      cases hs'
      rw [show n + 1 + k - (n + 1) = n + k - n by omega]
      exact ih h h' (Nat.le_add_right n k)

theorem Steps.eq_of_none (h : Steps next n s t) (hs : next s = none) : n = 0 ∧ s = t := by
  cases n with
  | zero => exact ⟨rfl, h⟩
  | succ n =>
      obtain ⟨s', hs', -⟩ := h
      rw [hs] at hs'
      cases hs'

theorem Steps.le_of_none (h : Steps next n s t) (ht : next t = none) (h' : Steps next k s u) :
    k ≤ n := by
  rcases Nat.le_total n k with hle | hle
  · have := ((h.of_le h' hle).eq_of_none ht).1
    omega
  · exact hle

theorem run_add_of_steps (h : Steps next n s t) (fuel : ℕ) :
    run next (n + fuel) s = run next fuel t := by
  induction n generalizing s with
  | zero =>
      cases h
      rw [Nat.zero_add]
  | succ n ih =>
      obtain ⟨s', hs, h⟩ := h
      rw [Nat.add_right_comm]
      simp only [run, hs]
      exact ih h

theorem run_eq_some_iff {fuel : ℕ} : run next fuel s = some t ↔
    ∃ n < fuel, Steps next n s t ∧ next t = none := by
  constructor
  · intro h
    induction fuel generalizing s with
    | zero => cases h
    | succ fuel ih =>
        unfold run at h
        cases hs : next s with
        | none =>
            rw [hs] at h
            cases h
            exact ⟨0, by omega, rfl, hs⟩
        | some s' =>
            rw [hs] at h
            obtain ⟨n, hn, hsteps, ht⟩ := ih h
            exact ⟨n + 1, by omega, ⟨s', hs, hsteps⟩, ht⟩
  · rintro ⟨n, hn, h, ht⟩
    obtain ⟨k, rfl⟩ := Nat.exists_eq_add_of_lt hn
    rw [Nat.add_assoc, run_add_of_steps h, run, ht]

theorem terminates_of_steps (h : Steps next n s t) (ht : next t = none) : Terminates next s :=
  ⟨n + 1, t, run_eq_some_iff.mpr ⟨n, Nat.lt_succ_self n, h, ht⟩⟩

theorem run_unique {fuel fuel' : ℕ} (h : run next fuel s = some t)
    (h' : run next fuel' s = some u) : t = u := by
  obtain ⟨n, -, hn, ht⟩ := run_eq_some_iff.mp h
  obtain ⟨k, -, hk, hu⟩ := run_eq_some_iff.mp h'
  have heq : n = k := Nat.le_antisymm (hk.le_of_none hu hn) (hn.le_of_none ht hk)
  subst heq
  exact hn.unique hk

/-- A loop terminates exactly when it does after some rounds. -/
theorem Steps.terminates_iff (h : Steps next n s t) : Terminates next s ↔ Terminates next t := by
  constructor
  · rintro ⟨fuel, u, hu⟩
    obtain ⟨k, -, hk, hend⟩ := run_eq_some_iff.mp hu
    exact terminates_of_steps (h.of_le hk (hk.le_of_none hend h)) hend
  · rintro ⟨fuel, u, hu⟩
    exact ⟨n + fuel, u, (run_add_of_steps h fuel).trans hu⟩

/-- **Recurrence**: a loop that comes from every state of a set to another one of it never ends. -/
theorem not_terminates_of_recurs {I : σ → Prop}
    (h : ∀ s, I s → ∃ n t, 0 < n ∧ Steps next n s t ∧ I t) (hs : I s) : ¬ Terminates next s := by
  rintro ⟨fuel, u, hu⟩
  obtain ⟨k, -, hk, hend⟩ := run_eq_some_iff.mp hu
  clear hu
  -- the rounds that are left become fewer, and never run out
  induction k using Nat.strong_induction_on generalizing s with
  | _ k ih =>
      obtain ⟨n, t, hn, ht, hIt⟩ := h s hs
      have hle := hk.le_of_none hend ht
      exact ih (k - n) (by omega) hIt (ht.of_le hk hle)

end Loop
