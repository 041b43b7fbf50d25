import IdcuIot.Driver.IdcuSelectTag
import IdcuIot.Driver.Plcs.ReadBack

/-! # iDCU_IoT driver: the quantities of a run

A run is a list of readings, the replies that reach `selectTag_iDCU_IoT`.  A message of function 4
carries the count under id 52 and the quantity under id 53, both as texts, and is read back like
the messages of the PLCS drivers (`value_countMessage`).

The quantity of a message is the difference to the count before, so that a sum of quantities
telescopes; but `preQty` is 0 both for a count of 0 and for no count at all, and the text is that
of a signed number.  `sum_quantities_iff` says for which counts the sum is right. -/

namespace IdcuIot.Driver

open Plcs (bytesOf records walk record)

/-- A reply that is handed to `selectTag_iDCU_IoT`: its function, its registers, the time, and
whether the queue has room for a message. -/
structure Reading where
  type : UInt8
  byteBuffer : Memory.Mem
  sensingTime : UInt32
  room : Bool

/-- The count in a reading of function 4. -/
def Reading.count (r : Reading) : UInt32 := countOf (fun k => r.byteBuffer k)

/-- The variables after a reading. -/
def TagState.next (t : TagState) (r : Reading) : TagState :=
  (selectTag t r.sensingTime r.byteBuffer r.type).1

/-- The message that a reading hands to `msgsnd`. -/
def TagState.message (t : TagState) (r : Reading) : Option TData :=
  (selectTag t r.sensingTime r.byteBuffer r.type).2

/-- The message that `msgsnd` queues: with `IPC_NOWAIT`, a message for a full queue is lost. -/
def TagState.queued (t : TagState) (r : Reading) : Option TData :=
  if r.room = true then t.message r else none

/-- The messages that a run queues. -/
def queuedAll : TagState → List Reading → List TData
  | _, [] => []
  | t, r :: rs => (t.queued r).toList ++ queuedAll (t.next r) rs

/-- The number that a message carries under an id. -/
def value (data : TData) (id : ℕ) : Option ℤ :=
  (((records data).getD []).find? (fun t => t.id = id)).map
    (fun t => Decimal.atoi (t.value.map (fun b => Char.ofNat b.toNat)))

/-- The quantity that a message reports. -/
def quantity (data : TData) : ℤ := (value data 53).getD 0

/-! ### Messages read back -/

/-- The text `"%ld"` of a word. -/
def longText (x : UInt32) : List UInt8 := bytesOf (Decimal.print (Words.signed x))

/-- The message of a reading of function 2. -/
def woMessage (sensingTime : UInt32) (wo : UInt8) : TData :=
  message ([1, 51, 0] ++ (List.range 4).map (Words.byteAt sensingTime) ++
    [2, if wo ≠ 0 then 0x31 else 0x30, 0])

/-- The message of a reading of function 4. -/
def countMessage (sensingTime count qty : UInt32) : TData :=
  message ([2, 52, 0] ++ (List.range 4).map (Words.byteAt sensingTime) ++ countString count ++
    [53, 0] ++ (List.range 4).map (Words.byteAt sensingTime) ++ countString qty)

theorem longText_spec (x : UInt32) : (longText x).length ≤ 254 ∧ 0 ∉ longText x ∧
    Decimal.atoi ((longText x).map (fun b => Char.ofNat b.toNat)) = Words.signed x := by
  have hfits := And.intro (Words.signed_ge x) (Words.signed_lt x)
  refine ⟨?_, Plcs.zero_notMem_print _, ?_⟩
  · have := Decimal.length_print hfits.1 hfits.2
    rw [longText, bytesOf, List.length_map]
    omega
  · rw [longText, bytesOf, Decimal.chars_bytes_print, Decimal.atoi_print hfits.1 hfits.2]

theorem records_countMessage (sensingTime count qty : UInt32) :
    records (countMessage sensingTime count qty) = some [⟨52, longText count⟩, ⟨53, longText qty⟩] := by
  have h52 : Plcs.atoi (bytesOf (Decimal.pad 3 52)) = 52 := Plcs.atoi_pad (by decide)
  have h53 : Plcs.atoi (bytesOf (Decimal.pad 3 53)) = 53 := Plcs.atoi_pad (by decide)
  have hbytes : [52, 0] ++ (List.range 4).map (Words.byteAt sensingTime) ++ countString count ++
      [53, 0] ++ (List.range 4).map (Words.byteAt sensingTime) ++ countString qty =
        [(bytesOf (Decimal.pad 3 52), longText count),
          (bytesOf (Decimal.pad 3 53), longText qty)].flatMap
            (fun u => record sensingTime u.1 u.2) := by
    rw [List.flatMap_cons, List.flatMap_cons, record, record, h52, h53]
    simp [Plcs.utc, countString, longText, bytesOf]
  have hwalk : walk [(bytesOf (Decimal.pad 3 52), longText count),
      (bytesOf (Decimal.pad 3 53), longText qty)].length
      ([(bytesOf (Decimal.pad 3 52), longText count),
        (bytesOf (Decimal.pad 3 53), longText qty)].flatMap (fun u => record sensingTime u.1 u.2)) =
        some [⟨52, longText count⟩, ⟨53, longText qty⟩] := by
    refine (Plcs.walk_records ?_).mpr ⟨?_, ?_⟩
    · simp [(longText_spec count).2.1, (longText_spec qty).2.1]
    · simp [(longText_spec count).1, (longText_spec qty).1]
    · rw [List.map_cons, List.map_cons, h52, h53]
      rfl
  rw [← hbytes] at hwalk
  exact (Plcs.records_message 2 _).trans hwalk

theorem value_countMessage (sensingTime count qty : UInt32) :
    value (countMessage sensingTime count qty) 51 = none ∧
      value (countMessage sensingTime count qty) 52 = some (Words.signed count) ∧
      value (countMessage sensingTime count qty) 53 = some (Words.signed qty) := by
  unfold value
  rw [records_countMessage]
  refine ⟨rfl, ?_, ?_⟩
  · exact congrArg some (longText_spec count).2.2
  · exact congrArg some (longText_spec qty).2.2

theorem records_woMessage (sensingTime : UInt32) (wo : UInt8) :
    records (woMessage sensingTime wo) = some [⟨51, [if wo ≠ 0 then 0x31 else 0x30]⟩] := by
  refine (Plcs.records_message 1 _).trans ?_
  simp [List.range_succ, walk]

theorem value_woMessage (sensingTime : UInt32) (wo : UInt8) :
    value (woMessage sensingTime wo) 51 = some (if wo ≠ 0 then 1 else 0) ∧
      value (woMessage sensingTime wo) 52 = none ∧
      value (woMessage sensingTime wo) 53 = none := by
  unfold value
  rw [records_woMessage]
  refine ⟨?_, rfl, rfl⟩
  split_ifs <;> decide

/-! ### Handling a reading -/

/-- The count of a state: what is kept in bytes is also kept as a number. -/
def TagState.Counts (t : TagState) (a : UInt32) : Prop := t.preQty = a ∧ countOf t.cntPastData = a

theorem countOf_inj {b b' : Fin 4 → UInt8} (h : countOf b = countOf b') : b = b' := by
  rw [countOf_eq, countOf_eq] at h
  obtain ⟨h2, h3, h0, h1⟩ := Words.ofBytes_inj h
  funext k
  match k with
  | 0 => exact h0
  | 1 => exact h1
  | 2 => exact h2
  | 3 => exact h3

section
variable {t : TagState} {r : Reading} {a : UInt32}

theorem counts_start : TagState.start.Counts 0 := ⟨rfl, by decide⟩

/-- A reading of function 4 leaves its count and the work order alone. -/
theorem next_count (hr : r.type = 4) :
    (t.next r).Counts r.count ∧ (t.next r).woPastData = t.woPastData := by
  unfold TagState.next selectTag
  rw [hr, if_neg (by decide), if_pos rfl]
  dsimp only
  split_ifs <;> exact ⟨⟨rfl, rfl⟩, rfl⟩

/-- A reading of function 4 is reported when the count has grown and was not 0. -/
theorem message_count (ht : t.Counts a) (hr : r.type = 4) : t.message r =
    if a ≠ 0 ∧ a < r.count then some (countMessage r.sensingTime r.count (r.count - a)) else none := by
  obtain ⟨rfl, hcnt⟩ := ht
  unfold TagState.message selectTag
  rw [hr, if_neg (by decide), if_pos rfl]
  change (if t.preQty = 0 ∨ r.count < t.preQty then _ else _ : TagState × Option TData).2 = _
  by_cases hbase : t.preQty = 0 ∨ r.count < t.preQty
  · rw [if_pos hbase, if_neg]
    rintro ⟨hne, hlt⟩
    exact hbase.elim hne (fun h => absurd h (UInt32.lt_asymm hlt))
  · rw [if_neg hbase]
    rw [not_or, UInt32.not_lt] at hbase
    rcases UInt32.lt_or_eq_of_le hbase.2 with hlt | heq
    · -- the bytes differ since the counts do
      have hchanged : ∃ k : Fin 4, t.cntPastData k ≠ r.byteBuffer k := by
        by_contra hsame
        simp only [ne_eq, not_exists, not_not] at hsame
        have : countOf t.cntPastData = r.count := congrArg countOf (funext hsame)
        exact UInt32.ne_of_lt hlt (hcnt.symm.trans this)
      rw [if_pos ⟨hbase.1, hlt⟩]
      exact if_pos (decide_eq_true hchanged)
    · have hsame : ¬ ∃ k : Fin 4, t.cntPastData k ≠ r.byteBuffer k := by
        rintro ⟨k, hk⟩
        exact hk (congrFun (countOf_inj (hcnt.trans heq)) k)
      rw [if_neg (fun h => UInt32.ne_of_lt h.2 heq)]
      exact if_neg (fun h => hsame (of_decide_eq_true h))

end

/-! ### The sum of the quantities -/

/-- What is counted between two readings; a count that has been cleared counts nothing. -/
def rise (a b : UInt32) : ℤ := if a ≤ b then (b.toNat : ℤ) - a.toNat else 0

/-- What is counted between the first and the last of some counts. -/
def increments : List UInt32 → ℤ
  | a :: b :: counts => rise a b + increments (b :: counts)
  | _ => 0

/-- Two counts whose difference is reported: nothing is counted from 0, and what is counted is a
signed number of 32 bits. -/
def Counted (a b : UInt32) : Prop := a ≤ b → (a = 0 → b = 0) ∧ (b - a).toNat < 2 ^ 31

instance (a b : UInt32) : Decidable (Counted a b) := inferInstanceAs (Decidable (_ → _))

theorem signed_sub {a b : UInt32} (h : a ≤ b) : Words.signed (b - a) =
    if (b - a).toNat < 2 ^ 31 then rise a b else rise a b - 2 ^ 32 := by
  have hle : a.toNat ≤ b.toNat := h
  have hb := b.toNat_lt
  have hsub : (b - a).toNat = b.toNat - a.toNat := UInt32.toNat_sub_of_le _ _ h
  rw [Words.signed_eq, hsub, rise, if_pos h]
  split_ifs <;> omega

/-- The sum of the quantities of a run. -/
def sumQuantities (t : TagState) (rs : List Reading) : ℤ := ((queuedAll t rs).map quantity).sum

theorem sumQuantities_cons (t : TagState) (r : Reading) (rs : List Reading) :
    sumQuantities t (r :: rs) =
      ((t.queued r).map quantity).getD 0 + sumQuantities (t.next r) rs := by
  unfold sumQuantities
  rw [queuedAll, List.map_append, List.sum_append]
  cases t.queued r <;> simp

/-- The quantity that is queued is what is counted, if the counts are reported, and less
otherwise. -/
theorem quantity_queued {t : TagState} {r : Reading} {a : UInt32} (ht : t.Counts a)
    (hr : r.type = 4) (hroom : r.room = true) : ((t.queued r).map quantity).getD 0 ≤ rise a r.count ∧
      (((t.queued r).map quantity).getD 0 = rise a r.count ↔ Counted a r.count) := by
  have hqueued : ((t.queued r).map quantity).getD 0 =
      if a ≠ 0 ∧ a < r.count then Words.signed (r.count - a) else 0 := by
    unfold TagState.queued
    rw [if_pos hroom, message_count ht hr]
    split_ifs
    · have hvalue := (value_countMessage r.sensingTime r.count (r.count - a)).2.2
      rw [Option.map_some, Option.getD_some, quantity, hvalue, Option.getD_some]
    · rfl
  rw [hqueued]
  by_cases hle : a ≤ r.count
  · have hsub : (r.count - a).toNat = r.count.toNat - a.toNat := UInt32.toNat_sub_of_le _ _ hle
    have hnat : a.toNat ≤ r.count.toNat := hle
    have hzero : a = 0 ↔ a.toNat = 0 := UInt32.toNat_inj.symm
    have hzero' : r.count = 0 ↔ r.count.toNat = 0 := UInt32.toNat_inj.symm
    have hlt : a < r.count ↔ a.toNat < r.count.toNat := Iff.rfl
    rw [signed_sub hle, rise, if_pos hle]
    simp only [Counted, hle, true_imp_iff, ne_eq, hzero, hzero', hlt]
    split_ifs <;> omega
  · have hlt : ¬ a < r.count := fun h => hle (UInt32.le_of_lt h)
    rw [if_neg (fun h => hlt h.2), rise, if_neg hle]
    exact ⟨le_rfl, ⟨fun _ h => absurd h hle, fun _ => rfl⟩⟩

/-- The sum of the quantities from a state with a given count on. -/
theorem sumQuantities_iff (rs : List Reading) : ∀ {t : TagState} {a : UInt32}, t.Counts a →
    (∀ r ∈ rs, r.type = 4 ∧ r.room = true) →
    sumQuantities t rs ≤ increments (a :: rs.map Reading.count) ∧
      (sumQuantities t rs = increments (a :: rs.map Reading.count) ↔
        (a :: rs.map Reading.count).IsChain Counted) := by
  induction rs with
  | nil => exact fun _ _ => ⟨le_rfl, iff_of_true rfl (List.isChain_singleton _)⟩
  | cons r rs ih =>
      intro t a ht hrs
      obtain ⟨⟨hr, hroom⟩, hrs⟩ := List.forall_mem_cons.mp hrs
      obtain ⟨hstep, hstepIff⟩ := quantity_queued ht hr hroom
      obtain ⟨hrest, hrestIff⟩ := ih (next_count hr (t := t)).1 hrs
      rw [sumQuantities_cons, List.map_cons, increments, List.isChain_cons_cons, ← hstepIff,
        ← hrestIff]
      refine ⟨add_le_add hstep hrest, ⟨fun h => ?_, fun h => by rw [h.1, h.2]⟩⟩
      -- both parts are at most what is counted, so neither may be less
      constructor <;> omega

/-- For counts that never decrease, the increments add up to the difference of the last and the
first. -/
theorem increments_of_sorted (counts : List UInt32) : ∀ {a : UInt32},
    (a :: counts).IsChain (· ≤ ·) →
    increments (a :: counts) = (((a :: counts).getLast (by simp)).toNat : ℤ) - a.toNat := by
  induction counts with
  | nil => simp [increments]
  | cons b counts ih =>
      intro a h
      obtain ⟨hab, hchain⟩ := List.isChain_cons_cons.mp h
      rw [increments, ih hchain, rise, if_pos hab, List.getLast_cons (List.cons_ne_nil _ _)]
      omega

/-- **When the quantities add up**: over a run of readings of function 4, each with room in the
queue, the quantities add up to what has been counted exactly when every two counts in a row are
reported; for counts that never decrease that is the last count minus the first. -/
theorem quantities_iff (r : Reading) (rs : List Reading)
    (h : ∀ r' ∈ r :: rs, r'.type = 4 ∧ r'.room = true) :
    (sumQuantities .start (r :: rs) = increments ((r :: rs).map Reading.count) ↔
        ((r :: rs).map Reading.count).IsChain Counted) ∧
      (((r :: rs).map Reading.count).IsChain (· ≤ ·) →
        (sumQuantities .start (r :: rs) =
            (((r :: rs).getLast (List.cons_ne_nil r rs)).count.toNat : ℤ) - r.count.toNat ↔
          ((r :: rs).map Reading.count).IsChain Counted)) := by
  obtain ⟨⟨hr, hroom⟩, hrs⟩ := List.forall_mem_cons.mp h
  have hfirst : TagState.start.queued r = none := by
    unfold TagState.queued
    rw [if_pos hroom, message_count counts_start hr]
    exact if_neg (fun h => h.1 rfl)
  have hsum : sumQuantities .start (r :: rs) = sumQuantities (TagState.start.next r) rs := by
    rw [sumQuantities_cons, hfirst, Option.map_none, Option.getD_none, zero_add]
  have hiff := (sumQuantities_iff rs (next_count hr (t := .start)).1 hrs).2
  rw [hsum, List.map_cons]
  refine ⟨hiff, fun hsorted => ?_⟩
  have hlast : (r.count :: rs.map Reading.count).getLast (by simp) =
      ((r :: rs).getLast (List.cons_ne_nil r rs)).count := by
    simp only [← List.map_cons, List.getLast_map]
  rw [← hlast, ← increments_of_sorted _ hsorted]
  exact hiff

/-- A reading of function 4 with a small count. -/
def countReading (n : UInt8) : Reading := ⟨4, fun i => if i = 1 then n else 0, 0, true⟩

theorem quantities_grown : sumQuantities .start [countReading 3, countReading 8, countReading 0] =
      increments [3, 8, 0] ↔ [(3 : UInt32), 8, 0].IsChain Counted :=
  (quantities_iff (countReading 3) [countReading 8, countReading 0]
    (by simp [countReading])).1

/-- Five items counted from 0 are not reported. -/
theorem quantities_wrong : ¬ ∀ (r : Reading) (rs : List Reading),
    (∀ r' ∈ r :: rs, r'.type = 4 ∧ r'.room = true) →
    ((r :: rs).map Reading.count).IsChain (· ≤ ·) →
    sumQuantities .start (r :: rs) =
      (((r :: rs).getLast (List.cons_ne_nil r rs)).count.toNat : ℤ) - r.count.toNat := by
  intro h
  have hfive := h (countReading 0) [countReading 5] (by simp [countReading]) (by decide)
  revert hfive
  decide

end IdcuIot.Driver
