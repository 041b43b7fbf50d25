import Mathlib.Algebra.Order.Monoid.Defs
import Mathlib.Tactic

/-! # Samples of a sequence

A reader that looks at a value from time to time sees samples of its history: some values not at all,
others more than once, all in order.  Samples of a sorted history are sorted (`Samples.pairwise`).

For a distance that obeys the triangle inequality, but need not be symmetric, the path through the
samples is not longer than the path through the history (`Samples.length_le`). -/

namespace Sampling

variable {α M : Type*}

/-- The first list consists of samples of the second. -/
inductive Samples : List α → List α → Prop where
  | nil (l : List α) : Samples [] l
  | skip {l l' : List α} (a : α) (h : Samples l l') : Samples l (a :: l')
  | take {l l' : List α} (a : α) (h : Samples l (a :: l')) : Samples (a :: l) (a :: l')

namespace Samples

variable {l l' k k' : List α} {a b : α}

theorem refl (l : List α) : Samples l l := by
  induction l with
  | nil => exact .nil []
  | cons a l ih => exact .take a (.skip a ih)

theorem of_sublist (h : Samples l l') (hk : k.Sublist l) : Samples k l' := by
  induction h generalizing k with
  | nil l' =>
      obtain rfl := List.sublist_nil.mp hk
      exact .nil l'
  | skip a _ ih => exact .skip a (ih hk)
  | take a _ ih =>
      cases hk with
      | cons _ hk => exact ih hk
      | cons_cons _ hk => exact .take a (ih hk)

theorem append_right (h : Samples l l') (k' : List α) : Samples l (l' ++ k') := by
  induction h with
  | nil l' => exact .nil _
  | skip a _ ih => exact .skip a ih
  | take a _ ih => exact .take a ih

theorem append (h : Samples l l') (hk : Samples k k') : Samples (l ++ k) (l' ++ k') := by
  induction h with
  | nil l' =>
      induction l' with
      | nil => exact hk
      | cons a l' ih => exact .skip a ih
  | skip a _ ih => exact .skip a ih
  | take a _ ih => exact .take a ih

theorem again (h : Samples (k ++ a :: l) l') : Samples (k ++ a :: a :: l) l' := by
  induction l' generalizing k with
  | nil => cases k <;> cases h
  | cons b l' ih =>
      induction k with
      | nil =>
          cases h with
          | skip _ h => exact .skip b (ih (k := []) h)
          | take _ h => exact .take a (.take a h)
      | cons c k ihk =>
          cases h with
          | skip _ h => exact .skip b (ih (k := c :: k) h)
          | take _ h => exact .take b (ihk h)

theorem subset (h : Samples l l') : l ⊆ l' := by
  induction h with
  | nil l' => exact List.nil_subset l'
  | skip a _ ih => exact List.subset_cons_of_subset a ih
  | take a _ ih => exact List.cons_subset.mpr ⟨List.mem_cons_self, ih⟩

theorem pairwise {r : α → α → Prop} (hr : ∀ a, r a a) (h : Samples l l') (hl : l'.Pairwise r) :
    l.Pairwise r := by
  induction h with
  | nil l' => exact List.Pairwise.nil
  | skip a _ ih => exact ih (List.pairwise_cons.mp hl).2
  | take a h ih =>
      refine List.pairwise_cons.mpr ⟨fun b hb => ?_, ih hl⟩
      rcases List.mem_cons.mp (h.subset hb) with rfl | hb
      · exact hr b
      · exact (List.pairwise_cons.mp hl).1 b hb

end Samples

/-! ### Lengths of paths -/

variable [AddCommMonoid M]

/-- The length of the path through the points of a list. -/
def length (d : α → α → M) : List α → M
  | a :: b :: l => d a b + length d (b :: l)
  | _ => 0

/-- A distance that need not be symmetric. -/
structure Distance [LE M] (d : α → α → M) : Prop where
  self : ∀ a, d a a = 0
  nonneg : ∀ a b, 0 ≤ d a b
  triangle : ∀ a b c, d a c ≤ d a b + d b c

variable [PartialOrder M] [IsOrderedAddMonoid M] {d : α → α → M}

theorem length_le_cons (hd : Distance d) (a : α) (l : List α) : length d l ≤ length d (a :: l) := by
  cases l with
  | nil => exact le_rfl
  | cons b l => exact le_add_of_nonneg_left (hd.nonneg a b)

theorem length_nonneg (hd : Distance d) (l : List α) : 0 ≤ length d l := by
  induction l with
  | nil => exact le_rfl
  | cons a l ih => exact ih.trans (length_le_cons hd a l)

theorem length_cons_le (hd : Distance d) (a b : α) (l : List α) :
    length d (a :: l) ≤ length d (a :: b :: l) := by
  cases l with
  | nil => exact add_nonneg (hd.nonneg a b) le_rfl
  | cons c l =>
      unfold length
      rw [length, ← add_assoc]
      exact add_le_add_left (hd.triangle a b c) _

theorem Samples.length_cons_le {l l' : List α} (hd : Distance d) (h : Samples l l') (a : α) :
    length d (a :: l) ≤ length d (a :: l') := by
  induction h generalizing a with
  | nil l' => exact length_nonneg hd _
  | skip b _ ih => exact (ih a).trans (Sampling.length_cons_le hd a b _)
  | take b _ ih =>
      have hb := ih b
      rw [length, hd.self, zero_add] at hb
      exact add_le_add_right hb _

/-- **The path through samples is not longer than the path through the history.** -/
theorem Samples.length_le {l l' : List α} (hd : Distance d) (h : Samples l l') :
    length d l ≤ length d l' := by
  induction h with
  | nil l' => exact length_nonneg hd l'
  | skip a _ ih => exact ih.trans (length_le_cons hd a _)
  | take a h _ =>
      have hcons := h.length_cons_le hd a
      rwa [length, hd.self, zero_add] at hcons

end Sampling
