import IdcuIot.Driver.IdcuReceive
import IdcuIot.Lib.Decimal
import IdcuIot.Lib.Words
import IdcuIot.Shared

/-! # iDCU_IoT driver: what becomes of a reply

`selectTag_iDCU_IoT` turns a reply into a message for tagServer: the work order from a reply
of function 2, the count of the first port and the quantity since the last reply from one of
function 4.  A message is sent when the value has changed. -/

namespace IdcuIot.Driver

open Memory

/-- The static variables of `iDCU_IoT.c`. -/
structure TagState where
  woPastData : UInt8
  cntPastData : Fin 4 → UInt8
  preQty : UInt32

/-- The variables when the driver starts. -/
def TagState.start : TagState := ⟨0, fun _ => 0, 0⟩

/-- A count in the registers of a reply: the low word first, each word high byte first. -/
def countOf (buffer : Fin 4 → UInt8) : UInt32 :=
  (0x000000ff &&& (buffer 1).toUInt32) <<< 0 |||
    (0x000000ff &&& (buffer 0).toUInt32) <<< 8 |||
    (0x000000ff &&& (buffer 3).toUInt32) <<< 16 |||
    (0x000000ff &&& (buffer 2).toUInt32) <<< 24

/-- `"%ld"` with its length in front and its terminator behind. -/
def countString (count : UInt32) : List UInt8 :=
  let text := Decimal.print (Words.signed count)
  UInt8.ofNat (text.length + 1) :: text.map (fun c => UInt8.ofNat c.toNat) ++ [0]

/-- The message with the given bytes in `data_buff`. -/
def message (dataBuff : List UInt8) : TData :=
  { dataType := 1
    dataNum := dataBuff.length
    dataBuff := Mem.store (fun _ => 0) 0 dataBuff }

/-- `selectTag_iDCU_IoT`, and the message it hands to `msgsnd` if there is one.  `sensingTime`
lies in memory with its low byte first. -/
def selectTag (t : TagState) (sensingTime : UInt32) (byteBuffer : Mem) (type : UInt8) :
    TagState × Option TData :=
  let utc := (List.range 4).map (Words.byteAt sensingTime)
  if type = 2 then
    let wo := 0x02 &&& byteBuffer 0
    let dataChanged := decide (t.woPastData ≠ wo)
    let dataBuff := [1, 51, 0] ++ utc ++ [2, if wo ≠ 0 then 0x31 else 0x30, 0]
    ({ t with woPastData := wo }, if dataChanged then some (message dataBuff) else none)
  else if type = 4 then
    let buffer : Fin 4 → UInt8 := fun k => byteBuffer k
    let count := countOf buffer
    let t' := { t with cntPastData := buffer, preQty := countOf buffer }
    -- the first reply, and a count that has been cleared, give no quantity
    if t.preQty = 0 ∨ count < t.preQty then (t', none)
    else
      let qty := count - t.preQty
      let dataChanged := decide (∃ k, t.cntPastData k ≠ buffer k)
      let dataBuff := [2, 52, 0] ++ utc ++ countString count ++ [53, 0] ++ utc ++ countString qty
      (t', if dataChanged then some (message dataBuff) else none)
  else (t, none)

theorem countOf_eq (buffer : Fin 4 → UInt8) :
    countOf buffer = Words.ofBytes (buffer 2) (buffer 3) (buffer 0) (buffer 1) := by
  have hswap : ∀ a b c d : UInt32, a ||| b ||| c ||| d = d ||| c ||| b ||| a := by
    intro a b c d
    rw [UInt32.or_comm a b, UInt32.or_comm (b ||| a) c, UInt32.or_comm (c ||| (b ||| a)) d,
      UInt32.or_assoc, UInt32.or_assoc]
  unfold countOf
  rw [Words.ff_and, Words.ff_and, Words.ff_and, Words.ff_and, UInt32.shiftLeft_zero]
  exact hswap _ _ _ _

theorem preQty_selectTag (t : TagState) (sensingTime : UInt32) (byteBuffer : Mem) :
    (selectTag t sensingTime byteBuffer 4).1.preQty = countOf (fun k => byteBuffer k) := by
  unfold selectTag
  rw [if_neg (by decide), if_pos rfl]
  dsimp only
  by_cases h : t.preQty = 0 ∨ countOf (fun k => byteBuffer k) < t.preQty
  · rw [if_pos h]
  · rw [if_neg h]

/-! ### A reply that arrives alone -/

/-- A whole reply, alone in the buffer, is handed to `selectTag_iDCU_IoT` and nothing is left. -/
theorem parsingReceiveValue_alone (byteBuffer m : Mem) (remainSize : ℤ) {e : UInt8 × List UInt8}
    (he : e.2.length ≤ 32) (hm : m.slice 0 (replyBytes e).length = replyBytes e) :
    ∃ c, (parsingReceiveValue byteBuffer m (replyBytes e).length remainSize).calls = [c] ∧
      c.event = e ∧
      (parsingReceiveValue byteBuffer m (replyBytes e).length remainSize).remainSize = 0 ∧
      (parsingReceiveValue byteBuffer m (replyBytes e).length remainSize).overrun = false := by
  have hlen := length_replyBytes e
  have hscan : Scan.Scans (replyProbe m) (replyBytes e).length 0 [⟨0, (replyBytes e).length⟩] false :=
    .hit (by omega) (replyProbe_of_reply he hm) (.done (by omega))
  refine ⟨parser.call m byteBuffer (parser.copy m ⟨0, (replyBytes e).length⟩ byteBuffer)
    ⟨0, (replyBytes e).length⟩, ?_⟩
  unfold parsingReceiveValue
  rw [parser.parsingReceiveValue_eq (replyProbe_advances m) hscan,
    if_neg Bool.false_ne_true]
  refine ⟨rfl, ?_, ?_, ?_⟩
  · exact (socketManager_reports m byteBuffer _).trans (eventAt_of_reply hm)
  · simp [Parser.endOf, Scan.Cut.stop]
  · simp only [Parser.overruns, List.any_cons, List.any_nil, Bool.or_false, decide_eq_false_iff_not]
    change ¬ 64 < (replyBytes e).length - 9
    omega

end IdcuIot.Driver
