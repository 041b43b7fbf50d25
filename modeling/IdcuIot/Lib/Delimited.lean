import Mathlib.Tactic

/-! # Streams of messages that carry their own length

A receiver that knows the length of a message from its first bytes cuts a stream into messages
(`split`).  A list is a message (`IsMessage`) when its length is read off right whatever follows it; a
stream of such messages is cut into just these messages (`split_flatten`). -/

namespace Delimited

variable {α : Type} (size : List α → ℕ)

/-- Cut messages off a stream; `size` is the length of the message at its front.  What is left
is the stream from the first message on that is empty or not complete. -/
def split (l : List α) : List (List α) × List α :=
  if _h : 0 < size l ∧ size l ≤ l.length then
    let rest := split (l.drop (size l))
    (l.take (size l) :: rest.1, rest.2)
  else ([], l)
termination_by l.length
decreasing_by
  rw [List.length_drop]
  omega

/-- The length of `m` is known from its own bytes. -/
structure IsMessage (m : List α) : Prop where
  ne_nil : m ≠ []
  size_eq : ∀ rest, size (m ++ rest) = m.length

variable {size}

theorem split_append {m : List α} (hm : IsMessage size m) (rest : List α) :
    split size (m ++ rest) = (m :: (split size rest).1, (split size rest).2) := by
  have hpos : 0 < m.length := List.length_pos_iff.mpr hm.ne_nil
  rw [split, dif_pos]
  · simp only [hm.size_eq, List.drop_left, List.take_left]
  · rw [hm.size_eq, List.length_append]
    omega

theorem split_nil : split size [] = ([], []) := by
  rw [split, dif_neg]
  rintro ⟨hpos, hle⟩
  rw [List.length_nil] at hle
  omega

/-- **Self-delimiting streams**: the messages are recovered in order, and nothing is left. -/
theorem split_flatten {ms : List (List α)} (h : ∀ m ∈ ms, IsMessage size m) :
    split size ms.flatten = (ms, []) := by
  induction ms with
  | nil => exact split_nil
  | cons m ms ih =>
      obtain ⟨hm, hms⟩ := List.forall_mem_cons.mp h
      rw [List.flatten_cons, split_append hm, ih hms]

/-! ### Records of one length -/

variable {β γ : Type}

/-- Read `k` records of `n` symbols each. -/
def records (n : ℕ) (decode : List α → β) : ℕ → List α → List β
  | 0, _ => []
  | k + 1, l => decode (l.take n) :: records n decode k (l.drop n)

/-- Records that are read back one by one are read back as a list, whatever follows. -/
theorem records_flatMap {n : ℕ} {encode : γ → List α} {decode : List α → β} {f : γ → β}
    (hlength : ∀ c, (encode c).length = n) (hdecode : ∀ c, decode (encode c) = f c)
    (l : List γ) (rest : List α) :
    records n decode l.length (l.flatMap encode ++ rest) = l.map f := by
  induction l with
  | nil => rfl
  | cons c l ih =>
      rw [List.flatMap_cons, List.append_assoc, List.length_cons, records, List.map_cons,
        List.take_left' (hlength c), List.drop_left' (hlength c), hdecode, ih]

end Delimited
