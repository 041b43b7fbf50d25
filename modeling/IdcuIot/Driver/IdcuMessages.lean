import IdcuIot.Driver.IdcuQuantity
import IdcuIot.Lib.History

/-! # iDCU_IoT driver: what the messages of a run say

Every message that a run queues is walked record by record, and its texts are compared with the
reading it comes from: the work order under id 51, the count under id 52 and the quantity since the
count before under id 53.  The counts are unsigned, but printed with `%ld`, so that the text of a
count in the upper half is that of a negative number; `messages_decode_iff` says that nothing else
goes wrong. -/

namespace IdcuIot.Driver

open History
open Plcs (Tag bytesOf records)

/-- The decimal numeral of a number. -/
def decimal (n : ℕ) : List UInt8 := bytesOf (Nat.toDigits 10 n)

/-- The variables after some readings. -/
def stateAfter (rs : List Reading) : TagState := rs.foldl TagState.next .start

/-- What a message about a reading should say. -/
def TagState.expected (t : TagState) (r : Reading) : List Tag :=
  if r.type = 2 then [⟨51, decimal (if 0x02 &&& r.byteBuffer 0 ≠ 0 then 1 else 0)⟩]
  else [⟨52, decimal r.count.toNat⟩, ⟨53, decimal (r.count - t.preQty).toNat⟩]

/-- The message about a reading, if one is queued, decodes to the reading. -/
def Decodes (before : List Reading) (r : Reading) : Prop :=
  ∀ data ∈ (stateAfter before).queued r, records data = some ((stateAfter before).expected r)

/-- A count that is reported is less than `2 ^ 31`: one that finds room, with a count before that
was not 0 and less. -/
def CountFits (before : List Reading) (r : Reading) : Prop :=
  r.type = 4 → r.room = true → (stateAfter before).preQty ≠ 0 →
    (stateAfter before).preQty < r.count → r.count.toNat < 2 ^ 31

/-! ### Texts -/

theorem minus_notMem_decimal (n : ℕ) : 0x2D ∉ decimal n := by
  intro hb
  obtain ⟨c, hc, hminus⟩ := List.mem_map.mp hb
  have hdigit := Decimal.digit_bounds (Nat.isDigit_of_mem_toDigits (by decide) (by decide) hc)
  rw [hminus] at hdigit
  exact absurd hdigit.1 (by decide)

/-- `"%ld"` prints the number itself in the lower half only. -/
theorem longText_eq_iff (x : UInt32) : longText x = decimal x.toNat ↔ x.toNat < 2 ^ 31 := by
  have hsigned := Words.signed_eq x
  have hx := x.toNat_lt
  unfold longText Decimal.print
  split_ifs at hsigned with hlt
  · rw [hsigned, if_neg (by omega), Int.natAbs_natCast]
    exact iff_of_true rfl hlt
  · rw [if_pos (by omega)]
    refine iff_of_false (fun h => minus_notMem_decimal x.toNat ?_) hlt
    rw [← h]
    exact List.mem_cons_self

/-! ### One reading -/

section
variable {t : TagState} {r : Reading} {a : UInt32}

theorem TagState.Counts.next (h : t.Counts a) (r : Reading) : ∃ b, (t.next r).Counts b := by
  by_cases h4 : r.type = 4
  · exact ⟨_, (next_count h4).1⟩
  · refine ⟨a, ?_⟩
    unfold TagState.next selectTag
    by_cases h2 : r.type = 2
    · simp only [h2, if_true]
      exact h
    · simp only [h2, h4, if_false]
      exact h

theorem counts_stateAfter (rs : List Reading) : ∃ a, (stateAfter rs).Counts a := by
  induction rs using List.reverseRecOn with
  | nil => exact ⟨0, counts_start⟩
  | append_singleton rs r ih =>
      obtain ⟨a, ha⟩ := ih
      unfold stateAfter at ha ⊢
      rw [List.foldl_append]
      exact ha.next r

/-- A reading of function 2 is reported when the work order has changed. -/
theorem message_wo (hr : r.type = 2) : t.message r =
    if t.woPastData ≠ 0x02 &&& r.byteBuffer 0 then
      some (woMessage r.sensingTime (0x02 &&& r.byteBuffer 0)) else none := by
  unfold TagState.message selectTag
  simp only [hr, if_true, decide_eq_true_eq]
  rfl

theorem message_none (h2 : r.type ≠ 2) (h4 : r.type ≠ 4) : t.message r = none := by
  unfold TagState.message selectTag
  simp only [h2, h4, if_false]

theorem records_wo (hr : r.type = 2) (t : TagState) :
    records (woMessage r.sensingTime (0x02 &&& r.byteBuffer 0)) = some (t.expected r) := by
  unfold TagState.expected
  rw [records_woMessage, if_pos hr]
  split_ifs <;> rfl

/-- A message about a count is right in the lower half: a quantity is not more than its count. -/
theorem records_count_iff (hr : r.type = 4) (hle : t.preQty ≤ r.count) :
    records (countMessage r.sensingTime r.count (r.count - t.preQty)) = some (t.expected r) ↔
      r.count.toNat < 2 ^ 31 := by
  have hsub : (r.count - t.preQty).toNat = r.count.toNat - t.preQty.toNat :=
    UInt32.toNat_sub_of_le _ _ hle
  unfold TagState.expected
  rw [records_countMessage, if_neg (by simp [hr]), Option.some_inj]
  simp only [List.cons.injEq, Tag.mk.injEq, true_and, and_true, longText_eq_iff]
  omega

theorem decodes_iff (before : List Reading) (r : Reading) :
    Decodes before r ↔ CountFits before r := by
  obtain ⟨a, ha⟩ := counts_stateAfter before
  unfold Decodes CountFits TagState.queued
  by_cases hroom : r.room = true
  · rw [if_pos hroom]
    by_cases h4 : r.type = 4
    · rw [message_count ha h4, ← ha.1]
      by_cases hreport : (stateAfter before).preQty ≠ 0 ∧ (stateAfter before).preQty < r.count
      · have hiff := records_count_iff h4 (UInt32.le_of_lt hreport.2)
        simp [hreport, h4, hroom, hiff]
      · rw [if_neg hreport]
        simp only [Option.mem_def, reduceCtorEq, false_imp_iff, implies_true, true_iff]
        exact fun _ _ hne hlt => absurd ⟨hne, hlt⟩ hreport
    · refine iff_of_true (fun data hdata => ?_) (fun h => absurd h h4)
      by_cases h2 : r.type = 2
      · rw [message_wo h2] at hdata
        split_ifs at hdata
        · obtain rfl := Option.some.inj hdata
          exact records_wo h2 _
        · cases hdata
      · rw [message_none h2 h4] at hdata
        cases hdata
  · rw [if_neg hroom]
    exact iff_of_true (fun data hdata => by cases hdata) (fun _ h => absurd h hroom)

end

/-- **When the messages of a run decode to its readings**: exactly when every count that is reported
is in the lower half. -/
theorem messages_decode_iff (rs : List Reading) : AtEvery Decodes rs ↔ AtEvery CountFits rs := by
  unfold AtEvery
  simp only [decodes_iff]

/-- A reading of function 4 with a count of `2 ^ 31` or `2 ^ 31 + 1`. -/
def upperReading (n : UInt8) : Reading :=
  ⟨4, fun i => if i = 1 then n else if i = 2 then 0x80 else 0, 0, true⟩

/-- `2 ^ 31 + 1` after `2 ^ 31` is reported as a negative number. -/
theorem messages_decode_wrong : ¬ ∀ rs : List Reading, AtEvery Decodes rs := by
  intro h
  have hdecodes := h [upperReading 0, upperReading 1] [upperReading 0] (upperReading 1) [] rfl
  rw [decodes_iff] at hdecodes
  have hlt := hdecodes rfl rfl (by decide) (by decide)
  revert hlt
  decide

end IdcuIot.Driver
