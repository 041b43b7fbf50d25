import IdcuIot.Lib.CString
import IdcuIot.Lib.Decimal
import IdcuIot.Lib.Footprint
import IdcuIot.M2MManager.PackManager
import IdcuIot.SetupManager.PackManager

/-! # The argument of `date`

`AustemTimeSync` prints the six values of a request into `settime` before it looks at their ranges;
the three managers print the same text.  It has 15 characters at least, and one more for each value
from 100 on (`length_dateText`), so that the zero behind it never fits into the array
(`settime_never_fits`). -/

namespace IdcuIot

open Memory CString

namespace SetTime

/-- `char settime[15]`. -/
def settimeSize : ℕ := 15

/-- `"%02d%02d%02d%02d20%02d.%02d"`; a `char` has no sign on ARM. -/
def dateText (month day hour minute year sec : UInt8) : Decimal.Text :=
  Decimal.printPad 2 month.toNat ++ Decimal.printPad 2 day.toNat ++
    Decimal.printPad 2 hour.toNat ++ Decimal.printPad 2 minute.toNat ++ ['2', '0'] ++
    Decimal.printPad 2 year.toNat ++ ['.'] ++ Decimal.printPad 2 sec.toNat

/-- `sprintf` of the text to `settime`, with what lies behind the array. -/
def sprintf (text : Decimal.Text) (settime : Mem) : Mem :=
  strcpy settime 0 (text.map (fun c => UInt8.ofNat c.toNat))

/-- How many places a value takes besides its two. -/
def extra (b : UInt8) : ℕ := if b.toNat < 100 then 0 else 1

theorem length_value (b : UInt8) : (Decimal.printPad 2 b.toNat).length = 2 + extra b := by
  rw [Decimal.length_printPad_two, extra]
  split_ifs <;> rfl

theorem length_dateText (month day hour minute year sec : UInt8) :
    (dateText month day hour minute year sec).length =
      15 + ([month, day, hour, minute, year, sec].map extra).sum := by
  simp only [dateText, List.length_append, length_value, List.length_cons, List.length_nil,
    List.map_cons, List.map_nil, List.sum_cons, List.sum_nil]
  omega

/-- The text and its zero lie in an array that has a byte for each. -/
theorem keepsFrom_sprintf_iff (text : Decimal.Text) (n : ℕ) :
    Mem.KeepsFrom n (sprintf text) ↔ text.length + 1 ≤ n := by
  have hstore : Mem.KeepsFrom n (sprintf text) ↔ _ :=
    Mem.keepsFrom_store_zero_iff (f := id) (fun _ _ _ => rfl)
  rw [hstore]
  simp

theorem not_keepsFrom_dateText (month day hour minute year sec : UInt8) :
    ¬ Mem.KeepsFrom settimeSize (sprintf (dateText month day hour minute year sec)) := by
  rw [keepsFrom_sprintf_iff, length_dateText, settimeSize]
  omega

end SetTime

open SetTime (dateText)

/-- The text that `AustemTimeSync` of M2MManager prints. -/
def M2MManager.settime (time : M2MManager.QueryTime) : Decimal.Text :=
  dateText time.month time.day time.hour time.minute time.year time.sec

/-- The text that `AustemTimeSync` of SetupManager prints. -/
def SetupManager.settime (time : M2MManager.QueryTime) : Decimal.Text :=
  dateText time.month time.day time.hour time.minute time.year time.sec

/-- `TimeOrigin`. -/
structure IoTManager.TimeOrigin where
  year : UInt8
  month : UInt8
  day : UInt8
  hour : UInt8
  min : UInt8
  sec : UInt8

/-- The text that `AustemTimeSync` of IoTManager prints; it has no callers. -/
def IoTManager.settime (time : IoTManager.TimeOrigin) : Decimal.Text :=
  dateText time.month time.day time.hour time.min time.year time.sec

open M2MManager (QueryTime)
open SetTime (settimeSize sprintf not_keepsFrom_dateText)

/-- **`settime` is too small** for every request: the six bytes from byte 5 on are printed whatever
they are. -/
theorem SetTime.settime_never_fits (m2m setup : Mem) (time : IoTManager.TimeOrigin) :
    ¬ Mem.KeepsFrom settimeSize (sprintf (M2MManager.settime (QueryTime.at m2m 5))) ∧
      ¬ Mem.KeepsFrom settimeSize (sprintf (SetupManager.settime (QueryTime.at setup 5))) ∧
      ¬ Mem.KeepsFrom settimeSize (sprintf (IoTManager.settime time)) :=
  ⟨not_keepsFrom_dateText _ _ _ _ _ _, not_keepsFrom_dateText _ _ _ _ _ _,
    not_keepsFrom_dateText _ _ _ _ _ _⟩

/-- The text for 15 November 2013, 12:30. -/
example : String.ofList (dateText 11 15 12 30 13 0) = "111512302013.00" := by decide

/-- That text has 15 characters, and the zero behind it is written to byte 15. -/
theorem SetTime.settime_overrun :
    (M2MManager.settime ⟨13, 11, 15, 12, 30, 0⟩).length + 1 = 16 ∧
      ¬ Mem.KeepsFrom settimeSize (sprintf (M2MManager.settime ⟨13, 11, 15, 12, 30, 0⟩)) :=
  ⟨by decide, not_keepsFrom_dateText _ _ _ _ _ _⟩

end IdcuIot
