import Mathlib.Data.List.DropRight
import Mathlib.Data.List.TakeWhile
import Mathlib.Tactic

/-! # Tokens

The pieces of a list between delimiters, without the empty ones, as `strtok` finds them.
`shape` is the case analysis behind one step of `strtok`: a list consists of delimiters only, or
after its first delimiters comes a token that ends the list or is followed by a delimiter. -/

namespace Tokens

variable {α : Type*}

section
variable {d : α} {s t : List α}

/-- A list of delimiters and tokens, up to its first token. -/
inductive Shape (d : α) : List α → Prop
  | blank (n : ℕ) : Shape d (List.replicate n d)
  | last (n : ℕ) {t : List α} : t ≠ [] → d ∉ t → Shape d (List.replicate n d ++ t)
  | token (n : ℕ) {t : List α} (r : List α) : t ≠ [] → d ∉ t →
      Shape d (List.replicate n d ++ (t ++ d :: r))

theorem Shape.cons_self (h : Shape d s) : Shape d (d :: s) := by
  cases h with
  | blank n => exact .blank (n + 1)
  | last n hne hd => exact .last (n + 1) hne hd
  | token n r hne hd => exact .token (n + 1) r hne hd

theorem Shape.cons {b : α} (hb : b ≠ d) (h : Shape d s) : Shape d (b :: s) := by
  have hone : d ∉ [b] := by simpa using Ne.symm hb
  cases h with
  | blank n =>
      cases n with
      | zero => exact .last 0 (List.cons_ne_nil b []) hone
      | succ n => exact .token 0 (List.replicate n d) (List.cons_ne_nil b []) hone
  | @last n t hne hd =>
      cases n with
      | zero => exact .last 0 (List.cons_ne_nil b t) (by simp [Ne.symm hb, hd])
      | succ n => exact .token 0 (List.replicate n d ++ t) (List.cons_ne_nil b []) hone
  | @token n t r hne hd =>
      cases n with
      | zero =>
          exact .token 0 (t := b :: t) r (List.cons_ne_nil b t) (by simp [Ne.symm hb, hd])
      | succ n =>
          exact .token 0 (List.replicate n d ++ (t ++ d :: r)) (List.cons_ne_nil b []) hone

theorem shape (d : α) (s : List α) : Shape d s := by
  classical
  induction s with
  | nil => exact .blank 0
  | cons b s ih =>
      by_cases hb : b = d
      · subst hb
        exact ih.cons_self
      · exact ih.cons hb

theorem tokens_induction {p : List α → Prop} (d : α) (blank : ∀ n, p (List.replicate n d))
    (last : ∀ n t, t ≠ [] → d ∉ t → p (List.replicate n d ++ t))
    (token : ∀ n t r, t ≠ [] → d ∉ t → p r → p (List.replicate n d ++ (t ++ d :: r)))
    (s : List α) : p s := by
  induction hn : s.length using Nat.strong_induction_on generalizing s with
  | _ n ih =>
      cases shape d s with
      | blank k => exact blank k
      | last k hne hd => exact last k _ hne hd
      | token k r hne hd =>
          refine token k _ r hne hd (ih r.length ?_ r rfl)
          rw [← hn]
          simp only [List.length_append, List.length_cons]
          omega

end

/-! ### The tokens of a list -/

variable [DecidableEq α]

/-- The non-empty pieces of `s` between delimiters `d`. -/
def tokens (d : α) (s : List α) : List (List α) := (s.splitOn d).filter (· ≠ [])

section
variable {d : α} {s s' t : List α}

@[simp] theorem tokens_nil (d : α) : tokens d [] = [] := rfl

theorem tokens_append_cons (d : α) (s s' : List α) :
    tokens d (s ++ d :: s') = tokens d s ++ tokens d s' := by
  rw [tokens, List.splitOn_append_cons_self, List.filter_append]
  rfl

theorem tokens_cons_self (d : α) (s : List α) : tokens d (d :: s) = tokens d s :=
  tokens_append_cons d [] s

theorem tokens_of_notMem (h : d ∉ s) (hne : s ≠ []) : tokens d s = [s] := by
  rw [tokens, List.splitOn_eq_singleton h, List.filter_cons_of_pos (by simpa using hne),
    List.filter_nil]

theorem tokens_token (h : d ∉ t) (hne : t ≠ []) (s : List α) :
    tokens d (t ++ d :: s) = t :: tokens d s := by
  rw [tokens_append_cons, tokens_of_notMem h hne, List.singleton_append]

theorem tokens_flatMap {β : Type*} (f : β → List α) (l : List β) :
    tokens d (l.flatMap (fun b => f b ++ [d])) = l.flatMap (fun b => tokens d (f b)) := by
  induction l with
  | nil => rfl
  | cons b l ih =>
      rw [List.flatMap_cons, List.flatMap_cons, List.append_assoc, List.singleton_append,
        tokens_append_cons, ih]

theorem tokens_replicate_append (d : α) (n : ℕ) (s : List α) :
    tokens d (List.replicate n d ++ s) = tokens d s := by
  induction n with
  | zero => rfl
  | succ n ih => rw [List.replicate_succ, List.cons_append, tokens_cons_self, ih]

theorem tokens_blank (d : α) (n : ℕ) : tokens d (List.replicate n d) = [] := by
  have h := tokens_replicate_append d n []
  rwa [List.append_nil] at h

theorem tokens_last (n : ℕ) (hne : t ≠ []) (hd : d ∉ t) :
    tokens d (List.replicate n d ++ t) = [t] := by
  rw [tokens_replicate_append, tokens_of_notMem hd hne]

theorem tokens_shape_token (n : ℕ) (hne : t ≠ []) (hd : d ∉ t) (r : List α) :
    tokens d (List.replicate n d ++ (t ++ d :: r)) = t :: tokens d r := by
  rw [tokens_replicate_append, tokens_token hd hne]

/-- Tokens are not empty, have no delimiters, and consist of elements of the list. -/
theorem of_mem_tokens (h : t ∈ tokens d s) : t ≠ [] ∧ d ∉ t ∧ ∀ b ∈ t, b ∈ s := by
  induction s using tokens_induction d with
  | blank n => simp [tokens_blank] at h
  | last n t' hne hd =>
      rw [tokens_last n hne hd, List.mem_singleton] at h
      subst h
      exact ⟨hne, hd, fun b hb => List.mem_append_right _ hb⟩
  | token n t' r hne hd ih =>
      rw [tokens_shape_token n hne hd] at h
      rcases List.mem_cons.mp h with rfl | h
      · exact ⟨hne, hd, fun b hb => List.mem_append_right _ (List.mem_append_left _ hb)⟩
      · obtain ⟨h1, h2, h3⟩ := ih h
        refine ⟨h1, h2, fun b hb => ?_⟩
        exact List.mem_append_right _ (List.mem_append_right _ (List.mem_cons_of_mem d (h3 b hb)))

theorem tokens_eq_nil_iff : tokens d s = [] ↔ ∀ b ∈ s, b = d := by
  have hone : ∀ n t r, t ≠ [] → d ∉ t → ¬ ∀ b ∈ List.replicate n d ++ (t ++ r), b = d := by
    intro n t r hne hd hall
    obtain ⟨b, hb⟩ := List.exists_mem_of_ne_nil t hne
    have hbd := hall b (List.mem_append_right _ (List.mem_append_left r hb))
    exact hd (hbd ▸ hb)
  cases shape d s with
  | blank n => simp [tokens_blank]
  | @last n t hne hd =>
      have := hone n t [] hne hd
      rw [List.append_nil] at this
      simp only [tokens_last n hne hd, List.cons_ne_nil, this]
  | token n r hne hd =>
      simp only [tokens_shape_token n hne hd, List.cons_ne_nil, hone n _ _ hne hd]

theorem infix_of_mem_tokens (h : t ∈ tokens d s) : t <:+: s := by
  induction s using tokens_induction d with
  | blank n => simp [tokens_blank] at h
  | last n t' hne hd =>
      rw [tokens_last n hne hd, List.mem_singleton] at h
      subst h
      exact (List.suffix_append _ t).isInfix
  | token n t' r hne hd ih =>
      rw [tokens_shape_token n hne hd] at h
      rcases List.mem_cons.mp h with rfl | h
      · exact ⟨_, _, List.append_assoc _ _ _⟩
      · have hr : r <:+ t' ++ d :: r := (List.suffix_cons d r).trans (List.suffix_append t' _)
        exact (ih h).trans (hr.trans (List.suffix_append _ _)).isInfix

/-! ### Tokens and pieces -/

theorem splitOn_replicate_append (d : α) (n : ℕ) (s : List α) :
    (List.replicate n d ++ s).splitOn d = List.replicate n [] ++ s.splitOn d := by
  induction n with
  | zero => rfl
  | succ n ih =>
      rw [List.replicate_succ, List.cons_append, List.splitOn_cons_eq_if_modifyHead,
        if_pos (by simp), ih]
      rfl

/-- A list without delimiters at the front of a list is the beginning of its first piece. -/
theorem exists_piece (hd : d ∉ t) (s : List α) : ∃ f ∈ (t ++ s).splitOn d, t <+: f := by
  by_cases hs : d ∈ s
  · obtain ⟨s₁, s₂, rfl, hs₁⟩ := List.eq_append_cons_of_mem hs
    rw [← List.append_assoc, List.splitOn_append_cons_self_of_not_mem
      (fun h => (List.mem_append.mp h).elim hd hs₁)]
    exact ⟨_, List.mem_cons_self, List.prefix_append t s₁⟩
  · rw [List.splitOn_eq_singleton (fun h => (List.mem_append.mp h).elim hd hs)]
    exact ⟨_, List.mem_cons_self, List.prefix_append t s⟩

/-- The tokens of the front part of a list are no longer than its pieces. -/
theorem length_lt_of_mem_tokens {N : ℕ} (h : t ∈ tokens d s) {r : List α}
    (hN : ∀ f ∈ (s ++ r).splitOn d, f.length < N) : t.length < N := by
  induction s using tokens_induction d with
  | blank n => simp [tokens_blank] at h
  | last n t' hne hd =>
      rw [tokens_last n hne hd, List.mem_singleton] at h
      subst h
      rw [List.append_assoc, splitOn_replicate_append] at hN
      obtain ⟨f, hf, hinitial⟩ := exists_piece hd r
      exact hinitial.length_le.trans_lt (hN f (List.mem_append_right _ hf))
  | token n t' s' hne hd ih =>
      rw [tokens_shape_token n hne hd] at h
      rw [List.append_assoc, splitOn_replicate_append, List.append_assoc, List.cons_append,
        List.splitOn_append_cons_self_of_not_mem hd] at hN
      rcases List.mem_cons.mp h with rfl | h
      · exact hN t (List.mem_append_right _ List.mem_cons_self)
      · exact ih h (fun f hf => hN f (List.mem_append_right _ (List.mem_cons_of_mem t' hf)))

/-! ### One step -/

/-- Number of delimiters at the front. -/
def skip (d : α) (s : List α) : ℕ := (s.takeWhile (· = d)).length

/-- The first token, empty when there is none. -/
def first (d : α) (s : List α) : List α := (s.drop (skip d s)).takeWhile (· ≠ d)

/-- Where the first token ends. -/
def firstEnd (d : α) (s : List α) : ℕ := skip d s + (first d s).length

theorem firstEnd_le (d : α) (s : List α) : firstEnd d s ≤ s.length := by
  have hskip : skip d s ≤ s.length := (List.takeWhile_prefix _).length_le
  have hfirst : (first d s).length ≤ (s.drop (skip d s)).length :=
    (List.takeWhile_prefix _).length_le
  rw [List.length_drop] at hfirst
  rw [firstEnd]
  omega

theorem of_mem_first {b : α} (h : b ∈ first d s) : b ∈ s ∧ b ≠ d :=
  ⟨List.mem_of_mem_drop ((List.takeWhile_prefix _).subset h),
    by simpa using List.mem_takeWhile_imp h⟩

theorem skip_append (n : ℕ) (hne : t ≠ []) (hd : d ∉ t) (s : List α) :
    skip d (List.replicate n d ++ (t ++ s)) = n := by
  cases t with
  | nil => exact absurd rfl hne
  | cons b t =>
      have hb : b ≠ d := fun h => hd (h ▸ List.mem_cons_self)
      rw [skip, List.takeWhile_append_of_pos (by simp +contextual), List.cons_append,
        List.takeWhile_cons_of_neg (by simpa using hb), List.append_nil, List.length_replicate]

theorem takeWhile_ne_append (hd : d ∉ t) (s : List α) :
    (t ++ s).takeWhile (· ≠ d) = t ++ s.takeWhile (· ≠ d) :=
  List.takeWhile_append_of_pos (fun _ hb => decide_eq_true (fun h => hd (h ▸ hb)))

theorem takeWhile_ne_self (hd : d ∉ t) : t.takeWhile (· ≠ d) = t := by
  have h := takeWhile_ne_append hd []
  rwa [List.append_nil, List.takeWhile_nil, List.append_nil] at h

/-- At most one token lies in front of the first delimiter of a kind. -/
theorem length_tokens_le_one (n : ℕ) (hd : d ∉ t) :
    (tokens d (List.replicate n d ++ t)).length ≤ 1 := by
  rw [tokens_replicate_append]
  by_cases hne : t = []
  · simp [hne]
  · simp [tokens_of_notMem hd hne]

theorem length_tokens_cut_le_one {z : α} (hz : z ≠ d) (n : ℕ) (hzt : z ∈ t) (hd : d ∉ t)
    (r : List α) :
    (tokens d ((List.replicate n d ++ (t ++ r)).takeWhile (· ≠ z))).length ≤ 1 := by
  have hblank : z ∉ List.replicate n d := fun h => hz (List.eq_of_mem_replicate h)
  have hstop : (t.takeWhile (· ≠ z)).length ≠ t.length := fun h => by
    have hall := List.takeWhile_eq_self_iff.mp
      ((List.takeWhile_prefix _).eq_of_length h) z hzt
    simp at hall
  rw [takeWhile_ne_append hblank, List.takeWhile_append, if_neg hstop]
  exact length_tokens_le_one n (fun h => hd ((List.takeWhile_prefix _).subset h))

/-- The front part of a list up to an element `z` has the tokens that lie before it, and at most
a part of the one with `z` in it. -/
theorem tokens_takeWhile {z : α} (hz : z ≠ d) (s : List α) :
    ∃ r, tokens d (s.takeWhile (· ≠ z)) = (tokens d s).takeWhile (z ∉ ·) ++ r ∧ r.length ≤ 1 ∧
      ((tokens d s).takeWhile (z ∉ ·)).length + r.length ≤ (tokens d s).length := by
  have hblank : ∀ n, z ∉ List.replicate n d := fun n h => hz (List.eq_of_mem_replicate h)
  induction s using tokens_induction d with
  | blank n =>
      refine ⟨[], ?_, Nat.zero_le 1, by simp [tokens_blank]⟩
      rw [takeWhile_ne_self (hblank n), tokens_blank, List.takeWhile_nil, List.append_nil]
  | last n t hne hd =>
      rw [tokens_last n hne hd]
      by_cases hzt : z ∈ t
      · have hone := length_tokens_cut_le_one hz n hzt hd []
        rw [List.append_nil] at hone
        exact ⟨_, by simp [hzt], hone, by simpa [hzt] using hone⟩
      · refine ⟨[], ?_, Nat.zero_le 1, by simp [hzt]⟩
        rw [takeWhile_ne_append (hblank n), takeWhile_ne_self hzt, tokens_last n hne hd]
        simp [hzt]
  | token n t r hne hd ih =>
      rw [tokens_shape_token n hne hd]
      by_cases hzt : z ∈ t
      · have hone := length_tokens_cut_le_one hz n hzt hd (d :: r)
        exact ⟨_, by simp [hzt], hone, by simpa [hzt] using hone.trans (Nat.le_add_left 1 _)⟩
      · obtain ⟨r', htokens, hone, hle⟩ := ih
        refine ⟨r', ?_, hone, ?_⟩
        · rw [takeWhile_ne_append (hblank n), takeWhile_ne_append hzt,
            List.takeWhile_cons_of_pos (by simpa using hz.symm), tokens_shape_token n hne hd,
            htokens]
          simp [hzt]
        · simp only [hzt, not_false_eq_true, decide_true, List.takeWhile_cons_of_pos,
            List.length_cons]
          omega

theorem first_blank (d : α) (n : ℕ) : first d (List.replicate n d) = [] := by
  rw [first, List.drop_of_length_le (by simp [skip]), List.takeWhile_nil]

theorem firstEnd_blank (d : α) (n : ℕ) : firstEnd d (List.replicate n d) = n := by
  rw [firstEnd, first_blank]
  simp [skip]

theorem first_last (n : ℕ) (hne : t ≠ []) (hd : d ∉ t) : first d (List.replicate n d ++ t) = t := by
  have hskip := skip_append n hne hd []
  rw [List.append_nil] at hskip
  rw [first, hskip, List.drop_left' (List.length_replicate), takeWhile_ne_self hd]

theorem firstEnd_last (n : ℕ) (hne : t ≠ []) (hd : d ∉ t) :
    firstEnd d (List.replicate n d ++ t) = n + t.length := by
  have hskip := skip_append n hne hd []
  rw [List.append_nil] at hskip
  rw [firstEnd, first_last n hne hd, hskip]

theorem first_token (n : ℕ) (hne : t ≠ []) (hd : d ∉ t) (r : List α) :
    first d (List.replicate n d ++ (t ++ d :: r)) = t := by
  rw [first, skip_append n hne hd, List.drop_left' (List.length_replicate),
    takeWhile_ne_append hd, List.takeWhile_cons_of_neg (by simp), List.append_nil]

theorem firstEnd_token (n : ℕ) (hne : t ≠ []) (hd : d ∉ t) (r : List α) :
    firstEnd d (List.replicate n d ++ (t ++ d :: r)) = n + t.length := by
  rw [firstEnd, first_token n hne hd, skip_append n hne hd]

theorem drop_firstEnd_token (n : ℕ) (hne : t ≠ []) (hd : d ∉ t) (r : List α) :
    (List.replicate n d ++ (t ++ d :: r)).drop
      (firstEnd d (List.replicate n d ++ (t ++ d :: r)) + 1) = r := by
  rw [firstEnd_token n hne hd,
    show List.replicate n d ++ (t ++ d :: r) = (List.replicate n d ++ t ++ [d]) ++ r by simp]
  exact List.drop_left' (by simp [Nat.add_assoc])

theorem getElem_firstEnd (h : firstEnd d s < s.length) : s[firstEnd d s] = d := by
  cases shape d s with
  | blank n =>
      rw [firstEnd_blank, List.length_replicate] at h
      exact absurd h (lt_irrefl n)
  | last n hne hd =>
      rw [firstEnd_last n hne hd, List.length_append, List.length_replicate] at h
      exact absurd h (lt_irrefl _)
  | @token n t r hne hd =>
      simp only [firstEnd_token n hne hd]
      rw [List.getElem_append_right (by simp), List.getElem_append_right (by simp)]
      simp

theorem exists_replicate_rdropWhile (d : α) (s : List α) :
    ∃ n, s = s.rdropWhile (· = d) ++ List.replicate n d := by
  induction s using List.reverseRecOn with
  | nil => exact ⟨0, rfl⟩
  | append_singleton s b ih =>
      by_cases hb : b = d
      · obtain ⟨n, hn⟩ := ih
        refine ⟨n + 1, ?_⟩
        rw [List.rdropWhile_concat_pos (· = d) s b (decide_eq_true hb), List.replicate_succ',
          ← List.append_assoc, ← hn, hb]
      · refine ⟨0, ?_⟩
        rw [List.rdropWhile_concat_neg (· = d) s b (by simpa using hb), List.replicate_zero,
          List.append_nil]

theorem first_append_replicate (hne : t ≠ []) (hd : d ∉ t) (n : ℕ) :
    first d (t ++ List.replicate n d) = t := by
  cases n with
  | zero => exact (congrArg (first d) (List.append_nil t)).trans (first_last 0 hne hd)
  | succ n => exact first_token 0 hne hd (List.replicate n d)

end
end Tokens
