import IdcuIot.M2MManager.PackManager

/-! # M2MManager: time synchronisation

`AustemTimeSync` sets the clock through two children, `/bin/date` and `/sbin/hwclock`.  Its
result tells only whether the six values passed the check of their ranges
(`austemTimeSync_eq`): a fork that fails goes on to the parent's branch, which sets `rtrn`
to 0, and the status of a child is printed but not looked at.  So `timeSync_truthful_iff`:
the error byte of the reply is right when the check fails or there was nothing to report. -/

namespace IdcuIot.M2MManager

open Memory

/-- How a process ends. -/
inductive Ended where
  | exited (status : UInt8)
  | signaled (signal : UInt8)
deriving DecidableEq, Repr

/-- What `fork` does.  `program` is the end of the program that the child is to become, or `none`
when `execl` returns. -/
inductive Fork where
  | failed
  | created (child : ℕ) (program : Option Ended)
deriving DecidableEq, Repr

/-- The result of `fork` in the parent. -/
def Fork.pid : Fork → ℤ
  | .failed => -1
  | .created child _ => child + 1

/-- What `waitpid` finds: a child whose `execl` returned has called `exit( 0 )`. -/
def Fork.ended : Fork → Option Ended
  | .failed => none
  | .created _ program => some (program.getD (.exited 0))

/-- The values that are not `Out of Set time`; a `char` has no sign on ARM. -/
def QueryTime.InRange (t : QueryTime) : Prop :=
  ¬ (t.year < 12 ∨ 99 < t.year ∨ t.month < 1 ∨ 12 < t.month ∨ t.day < 1 ∨ 31 < t.day ∨
    24 < t.hour ∨ 59 < t.minute ∨ 59 < t.sec)

instance (t : QueryTime) : Decidable t.InRange := inferInstanceAs (Decidable (¬ _))

/-- One of the two forks of `AustemTimeSync`: the value of `rtrn` in the parent, after it has waited
for the child. -/
def forkAndWait (fork : Fork) (rtrn : ℤ) : ℤ :=
  let pid := fork.pid
  let rtrn := if pid < 0 then -1 else rtrn
  -- the child does not come back from its branch
  if pid = 0 then rtrn else 0

/-- `AustemTimeSync`; `rtrn` is not set at first. -/
def austemTimeSync (rtrn : ℤ) (date hwclock : Fork) (time : QueryTime) : ℤ :=
  if time.InRange then forkAndWait hwclock (forkAndWait date rtrn) else -1

/-! ### What the result tells -/

theorem Fork.pid_ne_zero (fork : Fork) : fork.pid ≠ 0 := by
  cases fork with
  | failed => decide
  | created child program =>
      change (child : ℤ) + 1 ≠ 0
      omega

theorem forkAndWait_eq (fork : Fork) (rtrn : ℤ) : forkAndWait fork rtrn = 0 := by
  unfold forkAndWait
  exact if_neg fork.pid_ne_zero

theorem austemTimeSync_eq (rtrn : ℤ) (date hwclock : Fork) (time : QueryTime) :
    austemTimeSync rtrn date hwclock time = if time.InRange then 0 else -1 := by
  unfold austemTimeSync
  rw [forkAndWait_eq]

/-! ### What the reply should tell -/

/-- The six values are a time of the calendar, in this century. -/
def QueryTime.IsCalendarTime (t : QueryTime) : Prop :=
  ∃ d : Std.Time.PlainDateTime,
    d.date.year.toInt = 2000 + t.year.toNat ∧ d.date.month.val = t.month.toNat ∧
      d.date.day.val = t.day.toNat ∧ d.time.hour.val = t.hour.toNat ∧
      d.time.minute.val = t.minute.toNat ∧ d.time.second.val = t.sec.toNat

/-- The clock was set: there was a time to set, and both children were created and ended well. -/
structure Synchronised (date hwclock : Fork) (t : QueryTime) : Prop where
  calendar : t.IsCalendarTime
  date : date.ended = some (.exited 0)
  hwclock : hwclock.ended = some (.exited 0)

/-- Byte 15 of the only frame that is written. -/
def syncError : List Effect → Option UInt8
  | [.write bytes] => bytes[15]?
  | _ => none

/-- The reply says that the clock was set only if it was, and otherwise that it was not. -/
def TruthfulReply (date hwclock : Fork) (t : QueryTime) (effects : List Effect) : Prop :=
  ∃ e, syncError effects = some e ∧ (e = 0 → Synchronised date hwclock t) ∧
    (¬ Synchronised date hwclock t → e = 1)

/-- The system under `Pack_Manager`, with the outcomes of the two forks. -/
def System.withForks (rtrn : ℤ) (date hwclock : Fork) (getDiffTime : QueryTime → ℤ) : System :=
  { austemTimeSync := M2MManager.austemTimeSync rtrn date hwclock
    getDiffTime := getDiffTime }

theorem syncError_packManager (rtrn : ℤ) (date hwclock : Fork) (getDiffTime : QueryTime → ℤ)
    {buffer : Mem} (len : ℕ) (h : buffer 2 = Command.timeSync.code) :
    syncError (packManager (.withForks rtrn date hwclock getDiffTime) buffer len) =
      some (if (QueryTime.at buffer 5).InRange then 0 else 1) := by
  have htype : Command.ofType (buffer 2) = some .timeSync := by rw [h]; rfl
  have hresult : (System.withForks rtrn date hwclock getDiffTime).austemTimeSync =
      fun t => if t.InRange then 0 else -1 :=
    funext (austemTimeSync_eq rtrn date hwclock)
  simp only [packManager, htype, hresult]
  by_cases hrange : (QueryTime.at buffer 5).InRange
  · rw [if_pos hrange, if_pos rfl]
    simp only [if_pos hrange]
    rfl
  · rw [if_neg hrange, if_neg (by decide)]
    simp only [if_neg hrange]
    rfl

/-- **When the reply is truthful**: when the values are out of range, or when the clock was set. -/
theorem timeSync_truthful_iff (rtrn : ℤ) (date hwclock : Fork) (getDiffTime : QueryTime → ℤ)
    (buffer : Mem) (len : ℕ) (h : buffer 2 = Command.timeSync.code) :
    TruthfulReply date hwclock (QueryTime.at buffer 5)
        (packManager (.withForks rtrn date hwclock getDiffTime) buffer len) ↔
      ((QueryTime.at buffer 5).InRange → Synchronised date hwclock (QueryTime.at buffer 5)) := by
  have hbyte := syncError_packManager rtrn date hwclock getDiffTime len h
  unfold TruthfulReply
  rw [hbyte]
  constructor
  · rintro ⟨e, he, hset, -⟩ hrange
    rw [if_pos hrange] at he
    exact hset (Option.some.inj he).symm
  · intro hset
    refine ⟨_, rfl, fun hzero => ?_, fun hnot => ?_⟩
    · exact hset (of_not_not fun hrange => by rw [if_neg hrange] at hzero; cases hzero)
    · rw [if_neg (fun hrange => hnot (hset hrange))]

/-- A request for 15 November 2013, 12:30. -/
def someRequest : Mem :=
  Mem.store (fun _ => 0) 0 [0xFE, 0x09, 0x02, 0x00, 0x00, 13, 11, 15, 12, 30, 0, 0xFF]

theorem timeSync_truthful_some :
    TruthfulReply (.created 100 (some (.exited 0))) (.created 101 (some (.exited 0)))
        (QueryTime.at someRequest 5)
        (packManager (.withForks 0 (.created 100 (some (.exited 0)))
          (.created 101 (some (.exited 0))) (fun _ => 0)) someRequest 13) :=
  (timeSync_truthful_iff 0 _ _ (fun _ => 0) someRequest 13 rfl).mpr (fun _ =>
    ⟨⟨⟨⟨2013, 11, 15, by decide⟩, ⟨12, 30, 0, 0⟩⟩, rfl, rfl, rfl, rfl, rfl, rfl⟩, rfl, rfl⟩)

/-- The reply to it is 0 although no child could be created. -/
theorem timeSync_wrong : ¬ ∀ (rtrn : ℤ) (date hwclock : Fork) (getDiffTime : QueryTime → ℤ)
    (buffer : Mem) (len : ℕ), buffer 2 = Command.timeSync.code →
    TruthfulReply date hwclock (QueryTime.at buffer 5)
      (packManager (.withForks rtrn date hwclock getDiffTime) buffer len) := by
  intro h
  obtain ⟨e, he, hset, -⟩ := h 0 .failed .failed (fun _ => 0) someRequest 13 rfl
  rw [syncError_packManager 0 _ _ _ 13 rfl] at he
  obtain rfl := Option.some.inj he
  have hdate := (hset (if_pos (by decide))).date
  cases hdate

end IdcuIot.M2MManager
