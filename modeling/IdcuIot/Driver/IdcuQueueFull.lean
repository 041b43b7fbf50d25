import Mathlib
import IdcuIot.Driver.IdcuQuantity
import IdcuIot.Lib.History

/-! # iDCU_IoT driver: a full queue

The variables that detect a change are set before `msgsnd` is called, and stay as they are when
the queue is full.  A run is compared with what its reader has been told: the work order and the
count of the last messages that were queued, with the first count, and a count that has been
cleared, as baselines (`Told`).  `faithful_iff` says in which runs the driver remembers at every
step what it has told. -/

namespace IdcuIot.Driver

open History

/-- What the reader of the queue has been told. -/
structure Told where
  wo : UInt8
  count : Option UInt32

/-- Before the first reading. -/
def Told.start : Told := ⟨0, none⟩

/-- What has been told after a message. -/
def Told.receive (k : Told) (data : TData) : Told :=
  { wo := match value data 51 with
      | some z => if z = 0 then 0 else 2
      | none => k.wo
    count := match value data 52 with
      | some z => some (UInt32.ofInt z)
      | none => k.count }

/-- What has been told after a reading.  A first count, and one below the last, are baselines that
no message tells. -/
def Told.next (k : Told) (r : Reading) : Option TData → Told
  | some data => k.receive data
  | none =>
      if r.type = 4 ∧ ∀ a ∈ k.count, r.count < a then { k with count := some r.count } else k

/-- A run: the variables of the driver, and what has been told. -/
structure Run where
  state : TagState
  told : Told

/-- One more reading. -/
def Run.step (s : Run) (r : Reading) : Run :=
  ⟨s.state.next r, s.told.next r (s.state.queued r)⟩

/-- The run over some readings. -/
def runAfter (rs : List Reading) : Run := rs.foldl Run.step ⟨.start, .start⟩

/-- The counts in the readings of a run. -/
def countsOf (rs : List Reading) : List UInt32 :=
  (rs.filter (fun r => r.type = 4)).map Reading.count

/-- The work order in a reading of function 2. -/
def Reading.wo (r : Reading) : UInt8 := 0x02 &&& r.byteBuffer 0

/-- The work order in the last reading of function 2. -/
def lastWo (rs : List Reading) : UInt8 :=
  (((rs.filter (fun r => r.type = 2)).map Reading.wo).getLast?).getD 0

/-- A value in the reading differs from what has been told. -/
def Told.Changed (k : Told) (r : Reading) : Prop :=
  r.type = 2 ∧ r.wo ≠ k.wo ∨ r.type = 4 ∧ ∃ a ∈ k.count, a < r.count

/-- What is remembered after a run is what has been told, and the quantities that are queued add
up to what has been counted. -/
structure InStep (rs : List Reading) : Prop where
  wo : (runAfter rs).state.woPastData = (runAfter rs).told.wo
  count : (runAfter rs).state.Counts ((runAfter rs).told.count.getD 0)
  total : sumQuantities .start rs = increments (countsOf rs)

/-- A reading that is told: a change is handed to `msgsnd`, and the driver stays in step. -/
def Faithful (before : List Reading) (r : Reading) : Prop :=
  ((runAfter before).told.Changed r → ((runAfter before).state.message r).isSome = true) ∧
    InStep (before ++ [r])

/-- A reading that keeps the driver in step: there is room for the message about a change, and a
count that grows does not grow from 0, nor by more than a signed number. -/
def Kept (before : List Reading) (r : Reading) : Prop :=
  (r.type = 2 → r.wo ≠ lastWo before → r.room = true) ∧
    (r.type = 4 → ∀ a ∈ (countsOf before).getLast?, a < r.count → Counted a r.count ∧ r.room = true)

/-! ### One more reading -/

section
variable {t : TagState} {k : Told} {rs : List Reading} {r : Reading}

theorem runAfter_append_singleton : runAfter (rs ++ [r]) = (runAfter rs).step r := by
  unfold runAfter
  rw [List.foldl_append, List.foldl_cons, List.foldl_nil]

theorem state_runAfter (rs : List Reading) : ∀ s : Run,
    (rs.foldl Run.step s).state = rs.foldl TagState.next s.state := by
  induction rs with
  | nil => exact fun s => rfl
  | cons r rs ih => exact fun s => ih (s.step r)

theorem queuedAll_append_singleton (rs : List Reading) (r : Reading) : ∀ t : TagState,
    queuedAll t (rs ++ [r]) = queuedAll t rs ++ ((rs.foldl TagState.next t).queued r).toList := by
  induction rs with
  | nil => intro t; simp [queuedAll]
  | cons r' rs ih =>
      intro t
      rw [List.cons_append, queuedAll, queuedAll, ih, List.append_assoc, List.foldl_cons]

theorem sumQuantities_append_singleton : sumQuantities .start (rs ++ [r]) =
    sumQuantities .start rs + (((runAfter rs).state.queued r).map quantity).getD 0 := by
  have hstate := state_runAfter rs ⟨.start, .start⟩
  unfold sumQuantities runAfter
  rw [queuedAll_append_singleton, hstate, List.map_append, List.sum_append]
  cases (rs.foldl TagState.next .start).queued r <;> simp

theorem increments_append_singleton (counts : List UInt32) (b : UInt32) :
    increments (counts ++ [b]) =
      increments counts + (counts.getLast?.map (fun a => rise a b)).getD 0 := by
  induction counts with
  | nil => rfl
  | cons a counts ih =>
      cases counts with
      | nil => simp [increments]
      | cons a' counts =>
          rw [List.cons_append, List.cons_append, increments, ← List.cons_append, ih, increments,
            add_assoc, List.getLast?_cons_cons]

theorem countsOf_append_singleton : countsOf (rs ++ [r]) =
    countsOf rs ++ if r.type = 4 then [r.count] else [] := by
  unfold countsOf
  rw [List.filter_append, List.map_append]
  by_cases hr : r.type = 4 <;> simp [hr]

theorem lastWo_append_singleton : lastWo (rs ++ [r]) =
    if r.type = 2 then r.wo else lastWo rs := by
  unfold lastWo
  rw [List.filter_append, List.map_append]
  by_cases hr : r.type = 2 <;> simp [hr]

/-! ### The readings of each function -/

theorem wo_eq (r : Reading) : r.wo = 0 ∨ r.wo = 2 := by
  have hall : ∀ b : BitVec 8, 2 &&& b = 0 ∨ 2 &&& b = 2 := by decide +kernel
  exact (hall (r.byteBuffer 0).toBitVec).imp UInt8.toBitVec_inj.mp UInt8.toBitVec_inj.mp

theorem step_wo (hr : r.type = 2) : t.next r = { t with woPastData := r.wo } ∧
    t.message r = if t.woPastData ≠ r.wo then some (woMessage r.sensingTime r.wo) else none := by
  unfold TagState.next TagState.message selectTag
  rw [hr, if_pos rfl]
  refine ⟨rfl, ?_⟩
  by_cases hwo : t.woPastData = r.wo
  · rw [if_neg (not_not.mpr hwo)]
    exact if_neg (fun h => absurd hwo (of_decide_eq_true h))
  · rw [if_pos hwo]
    exact if_pos (decide_eq_true hwo)

theorem step_other (h2 : r.type ≠ 2) (h4 : r.type ≠ 4) : t.next r = t ∧ t.message r = none := by
  unfold TagState.next TagState.message selectTag
  rw [if_neg h2, if_neg h4]
  exact ⟨rfl, rfl⟩

theorem receive_woMessage (sensingTime : UInt32) (r : Reading) :
    k.receive (woMessage sensingTime r.wo) = { k with wo := r.wo } := by
  obtain ⟨h51, h52, -⟩ := value_woMessage sensingTime r.wo
  unfold Told.receive
  rw [h51, h52]
  rcases wo_eq r with h | h <;> rw [h] <;> rfl

theorem receive_countMessage (sensingTime count qty : UInt32) :
    k.receive (countMessage sensingTime count qty) = { k with count := some count } := by
  obtain ⟨h51, h52, -⟩ := value_countMessage sensingTime count qty
  unfold Told.receive
  rw [h51, h52]
  dsimp only
  rw [Words.ofInt_signed]

/-- What has been told after a reading of function 2, by a driver that remembers what it told. -/
theorem next_told_wo (ht : t.woPastData = k.wo) (hr : r.type = 2) : k.next r (t.queued r) =
    if r.room = true then { k with wo := r.wo } else k := by
  have hkeep : k.next r none = k := if_neg (fun h => absurd (hr.symm.trans h.1) (by decide))
  unfold TagState.queued
  rw [(step_wo hr).2, ht]
  by_cases hwo : k.wo = r.wo
  · rw [if_neg (not_not.mpr hwo), ite_self, hkeep, ← hwo, ite_self]
  · rw [if_pos hwo]
    split_ifs
    · exact receive_woMessage r.sensingTime r
    · exact hkeep

theorem queued_of_message (h : t.message r = none) : t.queued r = none := by
  unfold TagState.queued
  rw [h, ite_self]

theorem queued_first (ht : t.Counts 0) (hr : r.type = 4) (hk : k.count = none) :
    t.queued r = none ∧ k.next r none = { k with count := some r.count } := by
  refine ⟨queued_of_message ?_, if_pos ⟨hr, by simp [hk]⟩⟩
  rw [message_count ht hr]
  exact if_neg (fun h => h.1 rfl)

/-- The count that is known after a reading, by a reader that knows an earlier one. -/
def Reading.known (r : Reading) (a : UInt32) : UInt32 :=
  if r.count < a ∨ a ≠ 0 ∧ a < r.count ∧ r.room = true then r.count else a

/-- What has been told after a later count, by a driver that remembers what it told. -/
theorem next_told_count {a : UInt32} (ht : t.Counts a) (hr : r.type = 4) (hk : k.count = some a) :
    k.next r (t.queued r) = { k with count := some (r.known a) } := by
  have hbelow : r.count < a → k.next r none = { k with count := some r.count } := fun h =>
    if_pos ⟨hr, fun b hb => Option.some_inj.mp (hk.symm.trans hb) ▸ h⟩
  have hkeep : ¬ r.count < a → k.next r none = { k with count := some a } := fun h =>
    (if_neg (fun hnext => h (hnext.2 a hk))).trans (by rw [← hk])
  unfold TagState.queued Reading.known
  rw [message_count ht hr]
  by_cases hgrown : a ≠ 0 ∧ a < r.count
  · have hnot : ¬ r.count < a := UInt32.lt_asymm hgrown.2
    rw [if_pos hgrown]
    by_cases hroom : r.room = true
    · rw [if_pos hroom, if_pos (Or.inr ⟨hgrown.1, hgrown.2, hroom⟩)]
      exact receive_countMessage _ _ _
    · rw [if_neg hroom, if_neg (fun h => h.elim hnot (fun h => hroom h.2.2))]
      exact hkeep hnot
  · rw [if_neg hgrown, ite_self]
    by_cases hlt : r.count < a
    · rw [if_pos (Or.inl hlt)]
      exact hbelow hlt
    · rw [if_neg (fun h => h.elim hlt (fun h => hgrown ⟨h.1, h.2.1⟩))]
      exact hkeep hlt

theorem next_told_ne_none (ht : t.Counts (k.count.getD 0)) (hr : r.type = 4) :
    (k.next r (t.queued r)).count ≠ none := by
  cases hk : k.count with
  | none =>
      rw [hk, Option.getD_none] at ht
      rw [(queued_first ht hr hk).1, (queued_first ht hr hk).2]
      exact Option.some_ne_none _
  | some a =>
      rw [hk, Option.getD_some] at ht
      rw [next_told_count ht hr hk]
      exact Option.some_ne_none _

end

/-! ### Staying in step -/

/-- What is kept in step: the last work order and the last count are remembered. -/
structure Tracks (rs : List Reading) : Prop extends InStep rs where
  last : lastWo rs = (runAfter rs).told.wo
  counts : (countsOf rs).getLast? = (runAfter rs).told.count

section
variable {before : List Reading} {r : Reading}

theorem tracks_nil : Tracks [] where
  wo := rfl
  count := counts_start
  total := rfl
  last := rfl
  counts := rfl

theorem Tracks.append (h : Tracks before) (hin : InStep (before ++ [r])) :
    Tracks (before ++ [r]) := by
  have hstate : (runAfter (before ++ [r])).state = (runAfter before).state.next r := by
    rw [runAfter_append_singleton, Run.step]
  have htold : (runAfter (before ++ [r])).told =
      (runAfter before).told.next r ((runAfter before).state.queued r) := by
    rw [runAfter_append_singleton, Run.step]
  refine ⟨hin, ?_, ?_⟩
  · rw [← hin.wo, hstate, lastWo_append_singleton, h.last, ← h.wo]
    by_cases h2 : r.type = 2
    · rw [if_pos h2, (step_wo h2).1]
    · rw [if_neg h2]
      by_cases h4 : r.type = 4
      · rw [(next_count h4).2]
      · rw [(step_other h2 h4).1]
  · rw [htold, countsOf_append_singleton]
    by_cases h4 : r.type = 4
    · have hcount := hin.count.1
      rw [hstate, (next_count h4).1.1, htold] at hcount
      rw [if_pos h4, List.getLast?_concat, hcount]
      exact Option.getD_of_ne_none (next_told_ne_none h.count h4) 0
    · rw [if_neg h4, List.append_nil, h.counts]
      by_cases h2 : r.type = 2
      · rw [next_told_wo h.wo h2]
        split_ifs <;> rfl
      · unfold TagState.queued
        rw [(step_other h2 h4).2, ite_self]
        exact congrArg Told.count (if_neg (fun h => h4 h.1)).symm

theorem inStep_append_singleton : InStep (before ++ [r]) ↔
    ((runAfter before).state.next r).woPastData =
        ((runAfter before).told.next r ((runAfter before).state.queued r)).wo ∧
      ((runAfter before).state.next r).Counts
        (((runAfter before).told.next r ((runAfter before).state.queued r)).count.getD 0) ∧
      sumQuantities .start before + (((runAfter before).state.queued r).map quantity).getD 0 =
        increments (countsOf (before ++ [r])) := by
  have hrun : runAfter (before ++ [r]) = ⟨(runAfter before).state.next r,
      (runAfter before).told.next r ((runAfter before).state.queued r)⟩ :=
    runAfter_append_singleton
  constructor
  · rintro ⟨hwo, hcount, htotal⟩
    rw [hrun] at hwo hcount
    exact ⟨hwo, hcount, sumQuantities_append_singleton.symm.trans htotal⟩
  · rintro ⟨hwo, hcount, htotal⟩
    exact ⟨by rw [hrun]; exact hwo, by rw [hrun]; exact hcount,
      sumQuantities_append_singleton.trans htotal⟩

theorem Tracks.faithful_wo (h : Tracks before) (hr : r.type = 2) :
    Faithful before r ↔ (r.wo ≠ lastWo before → r.room = true) := by
  have hne : r.type ≠ 4 := fun h4 => absurd (hr.symm.trans h4) (by decide)
  have hquantity : (((runAfter before).state.queued r).map quantity).getD 0 = 0 := by
    unfold TagState.queued
    rw [(step_wo hr).2]
    split_ifs
    · rw [Option.map_some, Option.getD_some, quantity, (value_woMessage _ _).2.2]
      rfl
    · rfl
    · rfl
  have hreported : (runAfter before).told.Changed r →
      ((runAfter before).state.message r).isSome = true := by
    rintro (⟨-, hwo⟩ | ⟨h4, -⟩)
    · rw [(step_wo hr).2, if_pos (fun heq => hwo (heq.symm.trans h.wo))]
      rfl
    · exact absurd h4 hne
  unfold Faithful
  rw [and_iff_right hreported, inStep_append_singleton, hquantity, countsOf_append_singleton,
    if_neg hne, List.append_nil, next_told_wo h.wo hr, (step_wo hr).1, h.last]
  simp only [add_zero, h.total, and_true]
  split_ifs with hroom
  · exact iff_of_true ⟨rfl, h.count⟩ (fun _ => hroom)
  · constructor
    · exact fun heq hwo => absurd heq.1 hwo
    · exact fun hwo => ⟨not_not.mp (fun hne => hroom (hwo hne)), h.count⟩

theorem Tracks.faithful_first (h : Tracks before) (hr : r.type = 4)
    (hk : (runAfter before).told.count = none) : Faithful before r := by
  have hcount := h.count
  rw [hk, Option.getD_none] at hcount
  obtain ⟨hqueued, hnext⟩ := queued_first hcount hr hk
  refine ⟨?_, inStep_append_singleton.mpr ⟨?_, ?_, ?_⟩⟩
  · rintro (⟨h2, -⟩ | ⟨-, a, ha, -⟩)
    · exact absurd (hr.symm.trans h2) (by decide)
    · exact absurd (hk.symm.trans ha) (Option.some_ne_none a).symm
  · rw [hqueued, hnext, (next_count hr).2]
    exact h.wo
  · rw [hqueued, hnext]
    exact (next_count hr).1
  · rw [hqueued, countsOf_append_singleton, if_pos hr, increments_append_singleton, h.counts, hk,
      h.total]
    rfl

theorem known_of_not_lt {a : UInt32} (h : ¬ a < r.count) :
    r.known a = r.count ∧ rise a r.count = 0 := by
  constructor
  · unfold Reading.known
    split_ifs with hbelow
    · rfl
    · exact UInt32.le_antisymm (UInt32.not_lt.mp (fun hlt => hbelow (Or.inl hlt)))
        (UInt32.not_lt.mp h)
  · unfold rise
    split_ifs with hle
    · have heq : a = r.count := UInt32.le_antisymm hle (UInt32.not_lt.mp h)
      rw [heq, sub_self]
    · rfl

/-- One more count is told, remembered and counted when it has not grown, or when it is reported
and there is room. -/
theorem told_count_iff {t : TagState} {a : UInt32} (ht : t.Counts a) (hr : r.type = 4) :
    ((a < r.count → (t.message r).isSome = true) ∧ r.known a = r.count ∧
      ((t.queued r).map quantity).getD 0 = rise a r.count) ↔
        (a < r.count → Counted a r.count ∧ r.room = true) := by
  have hmessage := message_count ht hr
  by_cases hlt : a < r.count
  · have hnot : ¬ r.count < a := UInt32.lt_asymm hlt
    simp only [hlt, true_imp_iff]
    by_cases hroom : r.room = true
    · -- the quantity is right when the count is not lost
      rw [(quantity_queued ht hr hroom).2, and_iff_left hroom]
      refine ⟨fun hall => hall.2.2, fun hcounted => ?_⟩
      have hne : a ≠ 0 := by
        rintro rfl
        exact UInt32.ne_of_lt hlt ((hcounted (UInt32.le_of_lt hlt)).1 rfl).symm
      refine ⟨?_, if_pos (Or.inr ⟨hne, hlt, hroom⟩), hcounted⟩
      rw [hmessage, if_pos ⟨hne, hlt⟩]
      rfl
    · -- what is remembered has not been told
      have hlost : r.known a = a := if_neg (fun h => h.elim hnot (fun h => hroom h.2.2))
      rw [hlost]
      exact iff_of_false (fun hall => UInt32.ne_of_lt hlt hall.2.1) (fun hall => hroom hall.2)
  · obtain ⟨hknown, hrise⟩ := known_of_not_lt hlt
    rw [queued_of_message (hmessage.trans (if_neg (fun h => hlt h.2)))]
    simp [hlt, hknown, hrise]

theorem Tracks.faithful_count {a : UInt32} (h : Tracks before) (hr : r.type = 4)
    (hk : (runAfter before).told.count = some a) :
    Faithful before r ↔ (a < r.count → Counted a r.count ∧ r.room = true) := by
  have hcount := h.count
  rw [hk, Option.getD_some] at hcount
  have hchanged : (runAfter before).told.Changed r ↔ a < r.count := by
    unfold Told.Changed
    rw [hk]
    simp [hr]
  have hknown : ((runAfter before).state.next r).Counts (r.known a) ↔ r.known a = r.count := by
    obtain ⟨hpre, hcnt⟩ := (next_count hr (t := (runAfter before).state)).1
    exact ⟨fun hc => hc.1.symm.trans hpre, fun hc => ⟨hpre.trans hc.symm, hcnt.trans hc.symm⟩⟩
  unfold Faithful
  rw [inStep_append_singleton, next_told_count hcount hr hk, (next_count hr).2,
    countsOf_append_singleton, if_pos hr, increments_append_singleton, h.counts, hk, h.total,
    hchanged, Option.map_some, Option.getD_some, Option.getD_some, add_right_inj, hknown,
    and_iff_right h.wo]
  exact told_count_iff hcount hr

/-- While the driver tracks its readings, it stays in step with those that keep it so. -/
theorem Tracks.iff_kept (h : Tracks before) : Faithful before r ↔ Kept before r := by
  unfold Kept
  by_cases h2 : r.type = 2
  · have h4 : r.type ≠ 4 := fun h4 => absurd (h2.symm.trans h4) (by decide)
    rw [h.faithful_wo h2]
    exact ⟨fun hwo => ⟨fun _ => hwo, fun hr => absurd hr h4⟩, fun hkept => hkept.1 h2⟩
  by_cases h4 : r.type = 4
  · rw [h.counts]
    cases hk : (runAfter before).told.count with
    | none =>
        exact iff_of_true (h.faithful_first h4 hk)
          ⟨fun hr => absurd hr h2, fun _ a ha => absurd ha (Option.not_mem_none a)⟩
    | some a =>
        rw [h.faithful_count h4 hk]
        constructor
        · refine fun hcount => ⟨fun hr => absurd hr h2, fun _ b hb hlt => ?_⟩
          rw [← Option.some_inj.mp hb] at hlt ⊢
          exact hcount hlt
        · exact fun hkept => hkept.2 h4 a rfl
  · refine iff_of_true ⟨?_, inStep_append_singleton.mpr ?_⟩
      ⟨fun hr => absurd hr h2, fun hr => absurd hr h4⟩
    · exact fun hchanged => hchanged.elim (fun h => absurd h.1 h2) (fun h => absurd h.1 h4)
    · have hnext : (runAfter before).told.next r none = (runAfter before).told :=
        if_neg (fun h => h4 h.1)
      rw [queued_of_message (step_other h2 h4).2, hnext, (step_other h2 h4).1,
        countsOf_append_singleton, if_neg h4, List.append_nil]
      exact ⟨h.wo, h.count, (add_zero _).trans h.total⟩

end

/-- **When nothing is lost to a full queue**: over every run of readings, with the queue full at
any of them, the driver tells every reading faithfully exactly when every reading is one that
keeps it in step. -/
theorem faithful_iff (rs : List Reading) : AtEvery Faithful rs ↔ AtEvery Kept rs :=
  atEvery_congr tracks_nil (fun _ _ h => h.iff_kept)
    (fun _ _ h hkept => h.append (h.iff_kept.mpr hkept).2) rs

/-- An item that is counted while the queue is full is never reported. -/
theorem faithful_wrong : ¬ ∀ rs : List Reading, (∀ r ∈ rs, r.type = 2 ∨ r.type = 4) →
    AtEvery Faithful rs := by
  intro h
  have hfull := h [countReading 1, { countReading 2 with room := false }, countReading 2]
    (by simp [countReading])
  have htotal := (hfull [countReading 1] _ [countReading 2] rfl).2.total
  revert htotal
  decide

end IdcuIot.Driver
