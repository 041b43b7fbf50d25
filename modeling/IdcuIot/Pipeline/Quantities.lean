import IdcuIot.Driver.IdcuQueueFull
import IdcuIot.Lib.Sampling
import IdcuIot.Pipeline

/-! # The pipeline: quantities

What the messages of the driver tell the middleware to add: at most what was counted since the count
before (`gains_message_le`), and exactly that for counts that grow by a signed number
(`quantities_message`).  The counts of a port are points of a path whose length is what is counted, so
that samples of them count no more than all of them. -/

namespace IdcuIot

open Memory Transaction SqliteManager Driver Sampling

/-! ### What is counted -/

namespace Driver

theorem rise_distance : Distance rise where
  self a := by
    unfold rise
    rw [if_pos UInt32.le_rfl, Int.sub_self]
  nonneg a b := by
    unfold rise
    split_ifs with h
    · have hnat : a.toNat ≤ b.toNat := h
      omega
    · exact le_rfl
  triangle a b c := by
    have hab : a ≤ b ↔ a.toNat ≤ b.toNat := Iff.rfl
    have hbc : b ≤ c ↔ b.toNat ≤ c.toNat := Iff.rfl
    have hac : a ≤ c ↔ a.toNat ≤ c.toNat := Iff.rfl
    unfold rise
    simp only [hab, hbc, hac]
    split_ifs <;> omega

theorem increments_eq_length (counts : List UInt32) : increments counts = length rise counts := by
  induction counts with
  | nil => rfl
  | cons a counts ih =>
      cases counts with
      | nil => rfl
      | cons b counts =>
          rw [increments, ih]
          rfl

theorem increments_le_of_samples {counts counts' : List UInt32} (h : Samples counts counts') :
    increments counts ≤ increments counts' := by
  rw [increments_eq_length, increments_eq_length]
  exact h.length_le rise_distance

end Driver

/-! ### The quantity of a message -/

theorem bytes_message (l : List UInt8) : (message l).bytes = l := Mem.slice_store _ 0 l

theorem payloadQuantity_message (l : List UInt8) :
    payloadQuantity (message l).bytes = quantity (message l) := by
  unfold payloadQuantity
  rw [bytes_message]

theorem payloadQuantity_countMessage (sensingTime count qty : UInt32) :
    payloadQuantity (countMessage sensingTime count qty).bytes = Words.signed qty := by
  refine (payloadQuantity_message _).trans ?_
  change quantity (countMessage sensingTime count qty) = _
  rw [quantity, (value_countMessage sensingTime count qty).2.2, Option.getD_some]

theorem payloadQuantity_woMessage (sensingTime : UInt32) (wo : UInt8) :
    payloadQuantity (woMessage sensingTime wo).bytes = 0 := by
  refine (payloadQuantity_message _).trans ?_
  change quantity (woMessage sensingTime wo) = _
  rw [quantity, (value_woMessage sensingTime wo).2.2, Option.getD_none]

/-- What messages tell the middleware to add. -/
def quantities (l : List TData) : ℤ := (l.map (fun data => payloadQuantity data.bytes)).sum

theorem quantities_append (l l' : List TData) :
    quantities (l ++ l') = quantities l + quantities l' := by
  unfold quantities
  rw [List.map_append, List.sum_append]

@[simp] theorem quantities_nil : quantities [] = 0 := rfl

@[simp] theorem quantities_singleton (data : TData) :
    quantities [data] = payloadQuantity data.bytes := by simp [quantities]

/-- What a message tells the middleware to add, if it is not less than nothing. -/
def gain (data : TData) : ℤ := max 0 (payloadQuantity data.bytes)

/-- What messages tell it to add, without those that tell it to take away. -/
def gains (l : List TData) : ℤ := (l.map gain).sum

theorem gains_append (l l' : List TData) : gains (l ++ l') = gains l + gains l' := by
  unfold gains
  rw [List.map_append, List.sum_append]

theorem gains_le_of_sublist {l l' : List TData} (h : l.Sublist l') : gains l ≤ gains l' := by
  refine (h.map gain).sum_le_sum (fun x hx => ?_)
  obtain ⟨data, -, rfl⟩ := List.mem_map.mp hx
  exact le_max_left _ _

namespace Driver.TagState

variable {t : TagState} {r : Reading} {a : UInt32}

/-- A message is about a work order, or about a count that has grown and was not 0. -/
theorem message_cases {data : TData} (h : t.Counts a) (hdata : t.message r = some data) :
    (r.type = 2 ∧ ∃ wo, data = woMessage r.sensingTime wo) ∨
      (r.type = 4 ∧ a ≠ 0 ∧ a < r.count ∧
        data = countMessage r.sensingTime r.count (r.count - a)) := by
  by_cases h4 : r.type = 4
  · rw [message_count h h4] at hdata
    split_ifs at hdata with hgrown
    exact Or.inr ⟨h4, hgrown.1, hgrown.2, (Option.some.inj hdata).symm⟩
  · by_cases h2 : r.type = 2
    · rw [message_wo h2] at hdata
      split_ifs at hdata
      exact Or.inl ⟨h2, _, (Option.some.inj hdata).symm⟩
    · rw [message_none h2 h4] at hdata
      cases hdata

theorem Counts.next_other (h : t.Counts a) (h4 : r.type ≠ 4) : (t.next r).Counts a := by
  by_cases h2 : r.type = 2
  · rw [(step_wo h2).1]
    exact h
  · rw [(step_other h2 h4).1]
    exact h

/-- The quantities of the messages of a reading: those of a count that is not a baseline are what was
counted, or less. -/
theorem gains_message_le (h : t.Counts a) : gains (t.message r).toList ≤
    if r.type = 4 ∧ a ≠ 0 then rise a r.count else 0 := by
  cases hdata : t.message r with
  | none =>
      change 0 ≤ _
      split_ifs
      · exact rise_distance.nonneg _ _
      · exact le_rfl
  | some data =>
      change (List.map gain [data]).sum ≤ _
      rw [List.map_singleton, List.sum_singleton, gain]
      rcases message_cases h hdata with ⟨h2, wo, rfl⟩ | ⟨h4, ha, hlt, rfl⟩
      · rw [payloadQuantity_woMessage, max_self, if_neg (by simp [h2])]
      · have hsigned := signed_sub (UInt32.le_of_lt hlt)
        have hrise := rise_distance.nonneg a r.count
        rw [payloadQuantity_countMessage, if_pos ⟨h4, ha⟩]
        split_ifs at hsigned <;> omega

theorem quantities_message (h : t.Counts a) (h4 : r.type = 4) (ha : a ≠ 0) (hle : a ≤ r.count)
    (hspan : (r.count - a).toNat < 2 ^ 31) :
    quantities (t.message r).toList = rise a r.count := by
  rw [message_count h h4]
  by_cases hlt : a < r.count
  · rw [if_pos ⟨ha, hlt⟩, Option.toList_some, quantities_singleton, payloadQuantity_countMessage,
      signed_sub hle, if_pos hspan]
  · have heq : a = r.count := UInt32.le_antisymm hle (UInt32.not_lt.mp hlt)
    rw [if_neg (fun h => hlt h.2), heq, rise_distance.self, Option.toList_none, quantities_nil]

/-- A work order carries no quantity, and a first count is a baseline. -/
theorem quantities_message_zero (h : t.Counts a) (hr : r.type = 4 → a = 0) :
    quantities (t.message r).toList = 0 := by
  cases hdata : t.message r with
  | none => rfl
  | some data =>
      rw [Option.toList_some, quantities_singleton]
      rcases message_cases h hdata with ⟨-, wo, rfl⟩ | ⟨h4, ha, -, -⟩
      · exact payloadQuantity_woMessage _ _
      · exact absurd (hr h4) ha

end Driver.TagState

end IdcuIot
