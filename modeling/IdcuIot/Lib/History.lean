import Mathlib.Data.List.Induction
import Mathlib.Tactic

/-! # Histories

A property of what happens next, given all that has happened before, holds of a whole run when it
holds at every step of it (`AtEvery`).  Two such properties that agree as long as an invariant
holds, which each of them keeps, hold of the same runs (`atEvery_congr`). -/

namespace History

variable {α : Type*} {P Q : List α → α → Prop}

theorem forall_split_nil {S : List α → α → List α → Prop} :
    ∀ before a after, [] = before ++ a :: after → S before a after := fun before a after h =>
  absurd h.symm (List.append_ne_nil_of_right_ne_nil before (List.cons_ne_nil a after))

/-- What holds at every place of a list holds at its head and at every place behind it. -/
theorem forall_split_cons {S : List α → α → List α → Prop} {a : α} {l : List α} :
    (∀ before b after, a :: l = before ++ b :: after → S before b after) ↔
      S [] a l ∧ ∀ before b after, l = before ++ b :: after → S (a :: before) b after := by
  constructor
  · intro h
    refine ⟨h [] a l rfl, fun before b after hl => h (a :: before) b after ?_⟩
    rw [hl, List.cons_append]
  · rintro ⟨hhead, hrest⟩ before b after heq
    cases before with
    | nil =>
        obtain ⟨rfl, rfl⟩ := List.cons.inj heq
        exact hhead
    | cons c before =>
        obtain ⟨rfl, hl⟩ := List.cons.inj heq
        exact hrest before b after hl

/-- `P` holds of every element of a list, given the elements before it. -/
def AtEvery (P : List α → α → Prop) (l : List α) : Prop :=
  ∀ before a after, l = before ++ a :: after → P before a

theorem atEvery_nil : AtEvery P [] := forall_split_nil

theorem atEvery_append_singleton {l : List α} {a : α} :
    AtEvery P (l ++ [a]) ↔ AtEvery P l ∧ P l a := by
  constructor
  · intro h
    refine ⟨fun before b after hl => h before b (after ++ [a]) ?_, h l a [] rfl⟩
    rw [hl, List.append_assoc, List.cons_append]
  · rintro ⟨hl, ha⟩ before b after heq
    rcases List.eq_nil_or_concat after with rfl | ⟨after, c, rfl⟩
    · obtain ⟨rfl, hab⟩ := List.append_inj' heq rfl
      exact List.singleton_inj.mp hab ▸ ha
    · rw [List.concat_eq_append, ← List.cons_append, ← List.append_assoc] at heq
      exact hl before b after (List.append_inj' heq rfl).1

theorem AtEvery.invariant {I : List α → Prop} (h0 : I [])
    (hkeep : ∀ l a, I l → P l a → I (l ++ [a])) {l : List α} (h : AtEvery P l) : I l := by
  induction l using List.reverseRecOn with
  | nil => exact h0
  | append_singleton l a ih =>
      obtain ⟨hl, ha⟩ := atEvery_append_singleton.mp h
      exact hkeep l a (ih hl) ha

/-- Two properties that agree under an invariant, which they keep, hold of the same runs. -/
theorem atEvery_congr {I : List α → Prop} (h0 : I []) (hiff : ∀ l a, I l → (P l a ↔ Q l a))
    (hkeep : ∀ l a, I l → Q l a → I (l ++ [a])) (l : List α) : AtEvery P l ↔ AtEvery Q l := by
  induction l using List.reverseRecOn with
  | nil => exact iff_of_true atEvery_nil atEvery_nil
  | append_singleton l a ih =>
      rw [atEvery_append_singleton, atEvery_append_singleton, ih]
      exact and_congr_right (fun hl => hiff l a (hl.invariant h0 hkeep))

/-- What every step keeps under a condition, and only then, holds after every part of a run exactly
when the condition holds at every step. -/
theorem forall_prefix_iff {I : List α → Prop} (h0 : I [])
    (hiff : ∀ l a, I l → (I (l ++ [a]) ↔ Q l a)) (l : List α) :
    (∀ pre, pre <+: l → I pre) ↔ AtEvery Q l := by
  induction l using List.reverseRecOn with
  | nil =>
      refine iff_of_true (fun pre hpre => ?_) atEvery_nil
      rw [List.prefix_nil.mp hpre]
      exact h0
  | append_singleton l a ih =>
      rw [atEvery_append_singleton, ← ih]
      simp only [List.prefix_concat_iff, or_imp, forall_and, forall_eq]
      rw [and_comm]
      exact and_congr_right (fun hl => hiff l a (hl l (List.prefix_refl l)))

end History
