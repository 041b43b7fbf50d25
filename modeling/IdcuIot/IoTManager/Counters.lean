import IdcuIot.SqliteManager

/-! # IoTManager: the production counts

`receiveEvent` takes the counts of the eight ports from a report and saves them in
`tb_comm_status` when they have changed, `getCommStatus` sends them to the client, and `init`
loads them when the program starts.

A report counts as changed when it differs from the last one *received*: `pastData` takes the
counts whether or not the transaction went through.  `counts_kept_iff` says in which runs
nothing is forgotten because of that. -/

namespace IdcuIot.IoTManager

open Memory Transaction SqliteManager

/-- The globals of `IoTManager.c`; `syncThreads` is the number of threads that were started to
send `pastData` back to the bridge. -/
structure State where
  node : MGData
  pastData : MGData
  io : Fin 8 → UInt8
  syncThreads : ℕ
  db : Db

/-- How the statements of one transaction turn out; `END` is tried until it is done. -/
structure Outcomes where
  insertBegin : Outcome
  update : Outcome
  insertEnd : List Outcome

/-- A report in `setBuffer`, and the outcomes of its transaction if there is one. -/
structure Report where
  buffer : Mem
  outcomes : Outcomes

/-! ### Reports -/

/-- The count whose four bytes begin at `cntOffset`. -/
def cntAt (buffer : Mem) (cntOffset : ℕ) : UInt32 :=
  (0x000000ff &&& (buffer cntOffset).toUInt32) <<< 24 |||
    (0x000000ff &&& (buffer (cntOffset + 1)).toUInt32) <<< 16 |||
    (0x000000ff &&& (buffer (cntOffset + 2)).toUInt32) <<< 8 |||
    (0x000000ff &&& (buffer (cntOffset + 3)).toUInt32) <<< 0

/-- The first loop of `receiveEvent`: the values of eight TLVs of four bytes, whose tags and
lengths are skipped. -/
def nodeOf (buffer : Mem) : MGData := ⟨fun i => cntAt buffer (4 + 6 * i)⟩

/-- The second loop of `receiveEvent`: eight more TLVs, of one byte. -/
def ioOf (buffer : Mem) : Fin 8 → UInt8 := fun i => buffer (52 + 3 * i)

/-- The loop `do … while( transaction )` around `END`: `none` when it has not ended after the
given outcomes. -/
def endLoop : Db → List Outcome → Option Db
  | _, [] => none
  | db, o :: os =>
      let r := sqlite3Transaction db .insertEnd o
      if r.1 ≠ 0 then endLoop r.2 os else some r.2

/-- The branch `if( changed )`. -/
def save (db : Db) (node : MGData) (o : Outcomes) : Option Db :=
  let r := sqlite3Transaction db .insertBegin o.insertBegin
  if r.1 = 0 then
    let u := sqlite3Update r.2 node o.update
    endLoop u.2 o.insertEnd
  else some r.2

/-- `CreateSync`. -/
def createSync (s : State) (type : UInt8) : State :=
  if type = 1 then { s with syncThreads := s.syncThreads + 1 } else s

/-- `receiveEvent`: `none` when the loop around `END` does not end. -/
def receiveEvent (s : State) (r : Report) : Option State :=
  if r.buffer 2 = 1 then some (createSync s (r.buffer 4))
  else
    let node := nodeOf r.buffer
    let changed := decide (∃ i, s.pastData.cnt i ≠ node.cnt i)
    let saved := if changed then save s.db node r.outcomes else some s.db
    saved.map (fun db =>
      { s with node := node, io := ioOf r.buffer, db := db, pastData := node })

/-! ### Start and status -/

/-- The globals when the program has opened the database. -/
def boot (db : Db) : State := ⟨⟨fun _ => 0⟩, ⟨fun _ => 0⟩, fun _ => 0, 0, db⟩

/-- What `init` does with row `i` of the result. -/
def initRow (data : SQLite3Data) (s : State) (i : ℕ) : State :=
  let node : MGData := ⟨fun j => count (data.data.getD (8 + (8 * i + j)) [])⟩
  { s with pastData := node, node := node }

/-- `init`; `rc` is the outcome of the query. -/
def init (s : State) (rc : Rc) : ℤ × State :=
  let data := sqlite3Select s.db rc
  if 0 < data.size then
    (0, (List.range ((data.size - 8) / 8).toNat).foldl (initRow data) s)
  else (-1, s)

/-- `statusSend[i].channel[j]`. -/
def channel (byteOrder : UInt32) : List UInt8 :=
  [((0x0000ff00 &&& byteOrder) >>> 8).toUInt8, ((0x000000ff &&& byteOrder) >>> 0).toUInt8,
    ((0xff000000 &&& byteOrder) >>> 24).toUInt8, ((0x00ff0000 &&& byteOrder) >>> 16).toUInt8]

/-- The bytes that `getCommStatus` writes: of the rows in `statusSend` it sends the first. -/
def getCommStatus (db : Db) (rc : Rc) : Option (List UInt8) :=
  let data := sqlite3Select db rc
  if 0 < data.size then
    let statusSend := (List.range ((data.size - 8) / 8).toNat).map (fun i =>
      (List.finRange 8).flatMap (fun j : Fin 8 =>
        channel (count (data.data.getD (8 + (8 * i + j)) []))))
    some ([0x01, 0x02, 0x00, 0x00, 0x00, 0x23, 0x01, 0x04, 0x20] ++
      statusSend.headD (List.replicate 32 0))
  else none

theorem cntAt_eq (buffer : Mem) (a : ℕ) : cntAt buffer a =
    Words.ofBytes (buffer a) (buffer (a + 1)) (buffer (a + 2)) (buffer (a + 3)) := by
  unfold cntAt
  rw [Words.ff_and, Words.ff_and, Words.ff_and, Words.ff_and, UInt32.shiftLeft_zero]
  rfl

theorem channel_eq (x : UInt32) :
    channel x = [Words.byteAt x 1, Words.byteAt x 0, Words.byteAt x 3, Words.byteAt x 2] := by
  obtain ⟨h3, h2, h1, h0⟩ := Words.toUInt8_mask x
  unfold channel
  rw [h3, h2, h1, h0]

theorem init_of_row {s : State} {row : Row} {node : MGData} (h : s.db.store.visible = [row])
    (hrow : Holds row node) : init s .ok = (0, { s with pastData := node, node := node }) := by
  obtain ⟨hsize, hdata⟩ := sqlite3Select_of_row h
  have hnode : (⟨fun j => count ((sqlite3Select s.db .ok).data.getD (8 + (8 * 0 + j)) [])⟩ : MGData) =
      node := by
    refine congrArg MGData.mk (funext fun j => ?_)
    rw [Nat.mul_zero, Nat.zero_add, hdata j]
    exact hrow j
  simp only [init, hsize]
  rw [if_pos (by decide), show (((16 : ℤ) - 8) / 8).toNat = 1 from rfl, List.range_one,
    List.foldl_cons, List.foldl_nil, initRow, hnode]

/-- With one row in the table, `getCommStatus` sends the counts it holds. -/
theorem getCommStatus_of_row {db : Db} {row : Row} {node : MGData} (h : db.store.visible = [row])
    (hrow : Holds row node) : getCommStatus db .ok =
      some ([0x01, 0x02, 0x00, 0x00, 0x00, 0x23, 0x01, 0x04, 0x20] ++
        (List.finRange 8).flatMap (fun j => channel (node.cnt j))) := by
  obtain ⟨hsize, hdata⟩ := sqlite3Select_of_row h
  have hchannel : (List.finRange 8).flatMap (fun j : Fin 8 =>
      channel (count ((sqlite3Select db .ok).data.getD (8 + (8 * 0 + j)) []))) =
        (List.finRange 8).flatMap (fun j => channel (node.cnt j)) := by
    refine congrArg (fun f => (List.finRange 8).flatMap f) (funext fun j => ?_)
    rw [Nat.mul_zero, Nat.zero_add, hdata j, hrow j]
  simp only [getCommStatus, hsize]
  rw [if_pos (by decide), show (((16 : ℤ) - 8) / 8).toNat = 1 from rfl, List.range_one,
    List.map_singleton, List.headD_cons, hchannel]

/-! ### One transaction -/

/-- `END` succeeds in the end: until then it fails with a code for which it is tried again, and
the transaction stays open. -/
def Ends : List Outcome → Prop
  | [] => False
  | o :: os => o.rc = .ok ∨ (o.rc = .other ∧ o.rollback = false ∧ Ends os)

instance decidableEnds : ∀ os : List Outcome, Decidable (Ends os)
  | [] => inferInstanceAs (Decidable False)
  | _ :: os =>
      have := decidableEnds os
      inferInstanceAs (Decidable (_ ∨ _))

/-- All statements of the transaction succeed. -/
def Outcomes.Saves (o : Outcomes) : Prop :=
  o.insertBegin.rc = .ok ∧ o.update.rc = .ok ∧ Ends o.insertEnd

instance (o : Outcomes) : Decidable o.Saves := inferInstanceAs (Decidable (_ ∧ _))

/-- Without an open transaction the loop ends at once and nothing is committed. -/
theorem endLoop_closed {db db' : Db} {os : List Outcome} (h : db.store.pending = none)
    (hl : endLoop db os = some db') : db'.store.committed = db.store.committed := by
  cases os with
  | nil => cases hl
  | cons o os =>
      simp only [endLoop, sqlite3Transaction_end, Store.commit_of_closed o h] at hl
      obtain rfl := Option.some.inj hl
      rfl

/-- With `p` pending, the loop returns and commits `p` when `END` succeeds in the end. -/
theorem endLoop_of_ends {os : List Outcome} {p : List Row} : ∀ {db : Db},
    db.store.pending = some p → Ends os →
      ∃ db', endLoop db os = some db' ∧ db'.store = ⟨p, none⟩ := by
  induction os with
  | nil => intro db h hends; exact hends.elim
  | cons o os ih =>
      intro db h hends
      simp only [endLoop, sqlite3Transaction_end]
      rcases hends with hok | ⟨hother, hroll, hends⟩
      · rw [Store.commit_ok h hok]
        exact ⟨_, rfl, rfl⟩
      · -- END is tried again on the same transaction
        have hok : o.rc ≠ .ok := by
          rw [hother]
          decide
        rw [Store.commit_of_ne h hok, Store.fail_of_kept hroll, hother, if_pos rfl,
          if_pos (by decide)]
        exact ih h hends

/-- With `p` pending, nothing is committed when `END` does not succeed. -/
theorem endLoop_of_not_ends {os : List Outcome} {db' : Db} {p : List Row} : ∀ db : Db,
    db.store.pending = some p → ¬ Ends os → endLoop db os = some db' →
      db'.store.committed = db.store.committed := by
  induction os with
  | nil => intro db h hends hl; cases hl
  | cons o os ih =>
      intro db h hends hl
      have hok : o.rc ≠ .ok := fun hok => hends (Or.inl hok)
      simp only [endLoop, sqlite3Transaction_end, Store.commit_of_ne h hok] at hl
      by_cases hother : o.rc = .other
      · rw [if_pos hother, if_pos (by decide)] at hl
        cases hroll : o.rollback with
        | true =>
            rw [endLoop_closed (Store.fail_of_rollback hroll) hl]
            exact Store.committed_fail _ o
        | false =>
            have hrest : ¬ Ends os := fun h' => hends (Or.inr ⟨hother, hroll, h'⟩)
            rw [Store.fail_of_kept hroll] at hl
            exact ih ⟨db.store, db.executed ++ [.endTransaction]⟩ h hrest hl
      · rw [if_neg hother, if_neg (by decide)] at hl
        obtain rfl := Option.some.inj hl
        exact Store.committed_fail _ o

theorem endLoop_of_kept {db db' : Db} {os : List Outcome} {p : List Row}
    (hcommitted : db.store.committed = p)
    (hpending : db.store.pending = some p ∨ db.store.pending = none)
    (hl : endLoop db os = some db') : db'.store.committed = p := by
  rcases hpending with hp | hp
  · by_cases hends : Ends os
    · obtain ⟨db'', hl', hstore⟩ := endLoop_of_ends hp hends
      obtain rfl := Option.some.inj (hl.symm.trans hl')
      rw [hstore]
    · exact (endLoop_of_not_ends db hp hends hl).trans hcommitted
  · exact (endLoop_closed hp hl).trans hcommitted

section
variable {db db' : Db} {row : Row} {o : Outcomes}

/-- On a table with one row, a transaction that succeeds puts the counts into the row. -/
theorem save_of_saves (h : db.store = ⟨[row], none⟩) (hsaves : o.Saves) (node : MGData) :
    ∃ db', save db node o = some db' ∧ db'.store = ⟨[rowOf node], none⟩ := by
  obtain ⟨hbegin, hupdate, hends⟩ := hsaves
  have hclosed : db.store.pending = none := by rw [h]
  have hrow : db.store.committed = [row] := by rw [h]
  simp only [save, sqlite3Transaction_begin, sqlite3Update_snd, Store.start_ok hclosed hbegin,
    if_true]
  rw [Store.write_ok _ rfl hupdate, hrow]
  exact endLoop_of_ends rfl hends

theorem save_of_not_saves {node : MGData} (h : db.store = ⟨[row], none⟩) (hsaves : ¬ o.Saves)
    (hs : save db node o = some db') : db'.store.committed = [row] := by
  have hclosed : db.store.pending = none := by rw [h]
  have hrow : db.store.committed = [row] := by rw [h]
  simp only [save, sqlite3Transaction_begin, sqlite3Update_snd] at hs
  by_cases hbegin : o.insertBegin.rc = .ok
  · simp only [Store.start_ok hclosed hbegin, if_true, hrow] at hs
    by_cases hupdate : o.update.rc = .ok
    · rw [Store.write_ok _ rfl hupdate] at hs
      exact endLoop_of_not_ends ⟨_, _⟩ rfl (fun hends => hsaves ⟨hbegin, hupdate, hends⟩) hs
    · -- what may be pending is the row as it was
      obtain ⟨hcommitted, hpending⟩ := Store.write_of_ne (s := ⟨[row], some [row]⟩)
        (fun rows => rows.map (fun _ => rowOf node)) hupdate
      exact endLoop_of_kept hcommitted hpending hs
  · have hrc : (db.store.start o.insertBegin).1 ≠ .ok := by
      rw [Store.rc_start hclosed]
      exact hbegin
    rw [if_neg hrc, if_neg (by decide)] at hs
    obtain rfl := Option.some.inj hs
    change (db.store.start o.insertBegin).2.committed = [row]
    rw [Store.start_of_ne hrc, hrow]

end

theorem endLoop_executed {os : List Outcome} : ∀ {db db' : Db}, endLoop db os = some db' →
    ∃ rest, db'.executed = db.executed ++ rest := by
  induction os with
  | nil => intro db db' hl; cases hl
  | cons o os ih =>
      intro db db' hl
      simp only [endLoop, sqlite3Transaction_end] at hl
      by_cases h : (db.store.commit o).1 = .other
      · rw [if_pos h, if_pos (by decide)] at hl
        obtain ⟨rest, hrest⟩ := ih hl
        exact ⟨.endTransaction :: rest, by rw [hrest, List.append_assoc]; rfl⟩
      · rw [if_neg h, if_neg (by decide)] at hl
        obtain rfl := Option.some.inj hl
        exact ⟨[.endTransaction], rfl⟩

theorem save_executed {db db' : Db} {node : MGData} {o : Outcomes}
    (hs : save db node o = some db') :
    ∃ rest, db'.executed = db.executed ++ .beginExclusive :: rest := by
  simp only [save, sqlite3Transaction_begin, sqlite3Update_snd] at hs
  by_cases h : (db.store.start o.insertBegin).1 = .ok
  · rw [if_pos h, if_pos rfl] at hs
    obtain ⟨rest, hrest⟩ := endLoop_executed hs
    exact ⟨.update (rowOf node) :: rest, by simp [hrest]⟩
  · rw [if_neg h, if_neg (by decide)] at hs
    obtain rfl := Option.some.inj hs
    exact ⟨[], rfl⟩

/-! ### One report -/

/-- The report carries counts: it does not ask for a count sync. -/
def Report.Counts (r : Report) : Prop := r.buffer 2 ≠ 1

instance (r : Report) : Decidable r.Counts := inferInstanceAs (Decidable (_ ≠ _))

/-- The counts of the report are not the last ones received. -/
def Changes (s : State) (r : Report) : Prop := ∃ i, s.pastData.cnt i ≠ (nodeOf r.buffer).cnt i

instance (s : State) (r : Report) : Decidable (Changes s r) := inferInstanceAs (Decidable (∃ _, _))

theorem not_changes_iff {s : State} {r : Report} : ¬ Changes s r ↔ s.pastData = nodeOf r.buffer := by
  simp only [Changes, not_exists, not_not]
  constructor
  · intro h
    exact congrArg MGData.mk (funext h)
  · intro h i
    rw [h]

theorem receiveEvent_changes {s : State} {r : Report} (hcounts : r.Counts) (h : Changes s r) :
    receiveEvent s r = (save s.db (nodeOf r.buffer) r.outcomes).map (fun db =>
      { s with node := nodeOf r.buffer, io := ioOf r.buffer, db := db,
               pastData := nodeOf r.buffer }) := by
  unfold receiveEvent
  rw [if_neg hcounts]
  exact congrArg (Option.map _) (if_pos (decide_eq_true h))

theorem receiveEvent_same {s : State} {r : Report} (hcounts : r.Counts) (h : ¬ Changes s r) :
    receiveEvent s r = some
      { s with node := nodeOf r.buffer, io := ioOf r.buffer, pastData := nodeOf r.buffer } := by
  unfold receiveEvent
  rw [if_neg hcounts]
  exact congrArg (Option.map _) (if_neg (ne_true_of_eq_false (decide_eq_false h)))

theorem receiveEvent_cases {s s' : State} {r : Report} (h : receiveEvent s r = some s') :
    (¬ r.Counts ∧ s'.pastData = s.pastData ∧ s'.db = s.db) ∨
      (r.Counts ∧ s'.pastData = nodeOf r.buffer ∧
        ((Changes s r ∧ save s.db (nodeOf r.buffer) r.outcomes = some s'.db) ∨
          (¬ Changes s r ∧ s'.db = s.db))) := by
  by_cases hcounts : r.Counts
  · refine Or.inr ⟨hcounts, ?_⟩
    by_cases hchanges : Changes s r
    · rw [receiveEvent_changes hcounts hchanges] at h
      obtain ⟨db, hdb, rfl⟩ := Option.map_eq_some_iff.mp h
      exact ⟨rfl, Or.inl ⟨hchanges, hdb⟩⟩
    · rw [receiveEvent_same hcounts hchanges] at h
      obtain rfl := Option.some.inj h
      exact ⟨rfl, Or.inr ⟨hchanges, rfl⟩⟩
  · rw [receiveEvent, if_pos (not_not.mp hcounts)] at h
    obtain rfl := Option.some.inj h
    refine Or.inl ⟨hcounts, ?_⟩
    unfold createSync
    split_ifs <;> exact ⟨rfl, rfl⟩

/-- The row of the table holds the counts of the report. -/
def Saved (s : State) (r : Report) : Prop :=
  ∃ row, s.db.store.committed = [row] ∧ Holds row (nodeOf r.buffer)

/-- A next report with the same counts begins a transaction to save them. -/
def Retries (s : State) (r : Report) : Prop :=
  ∀ r' : Report, r'.Counts → nodeOf r'.buffer = nodeOf r.buffer → ∀ s', receiveEvent s r' = some s' →
    ∃ rest, s'.db.executed = s.db.executed ++ .beginExclusive :: rest

/-- Between two reports: no transaction is open, and the row holds the last counts received. -/
def Inv (s : State) : Prop := ∃ row, s.db.store = ⟨[row], none⟩ ∧ Holds row s.pastData

/-- The next report with the same counts is saved when they are not the last ones received. -/
theorem retries_iff {s : State} {r : Report} (hcounts : r.Counts) : Retries s r ↔ Changes s r := by
  constructor
  · intro hretries
    by_contra hsame
    obtain ⟨rest, hrest⟩ := hretries r hcounts rfl _ (receiveEvent_same hcounts hsame)
    have hlen := congrArg List.length hrest
    rw [List.length_append, List.length_cons] at hlen
    dsimp only at hlen
    omega
  · intro hchanges r' hcounts' hnode s' h
    rcases receiveEvent_cases h with ⟨hno, -⟩ | ⟨-, -, ⟨-, hsave⟩ | ⟨hsame, -⟩⟩
    · exact absurd hcounts' hno
    · exact save_executed hsave
    · rw [Changes, hnode] at hsame
      exact absurd hchanges hsame

theorem not_retries {s s' : State} {r : Report} (hcounts : r.Counts)
    (h : receiveEvent s r = some s') : ¬ Retries s' r := by
  rw [retries_iff hcounts]
  rcases receiveEvent_cases h with ⟨hno, -⟩ | ⟨-, hpast, -⟩
  · exact absurd hcounts hno
  · exact not_changes_iff.mpr hpast

/-- One report: its counts are in the row exactly when they were the last ones received or
their transaction succeeds, and then the invariant holds again. -/
theorem saved_iff {s s' : State} {r : Report} (hinv : Inv s) (hcounts : r.Counts)
    (h : receiveEvent s r = some s') :
    (Saved s' r ↔ (Changes s r → r.outcomes.Saves)) ∧ (Saved s' r → Inv s') := by
  obtain ⟨row, hstore, hholds⟩ := hinv
  rcases receiveEvent_cases h with ⟨htype, -⟩ | ⟨-, hpast, hdb⟩
  · exact absurd hcounts htype
  · rcases hdb with ⟨hchanges, hsave⟩ | ⟨hsame, hdb⟩
    · by_cases hsaves : r.outcomes.Saves
      · obtain ⟨db, hdb, hrow⟩ := save_of_saves hstore hsaves (nodeOf r.buffer)
        obtain rfl := Option.some.inj (hsave.symm.trans hdb)
        refine ⟨⟨fun _ _ => hsaves, fun _ => ⟨_, by rw [hrow], holds_rowOf _⟩⟩, fun _ => ?_⟩
        exact ⟨_, hrow, hpast ▸ holds_rowOf _⟩
      · -- the row still holds the counts received before, which are others
        have hnot : ¬ Saved s' r := by
          rintro ⟨row', hrow', hholds'⟩
          rw [save_of_not_saves hstore hsaves hsave] at hrow'
          obtain rfl := (List.cons.inj hrow').1
          exact not_changes_iff.mpr (hholds.eq hholds') hchanges
        exact ⟨⟨fun hsaved => absurd hsaved hnot, fun hall => absurd (hall hchanges) hsaves⟩,
          fun hsaved => absurd hsaved hnot⟩
    · have heq := not_changes_iff.mp hsame
      have hsaved : Saved s' r := ⟨row, by rw [hdb, hstore], heq ▸ hholds⟩
      refine ⟨⟨fun _ hchanges => absurd hchanges hsame, fun _ => hsaved⟩, fun _ => ?_⟩
      exact ⟨row, hdb ▸ hstore, by rw [hpast, ← heq]; exact hholds⟩

/-! ### Runs -/

/-- One call of `receiveEvent` in a run. -/
structure Handled where
  before : State
  report : Report
  after : State

/-- The calls of `receiveEvent` for a sequence of reports; the last one may be one that does not
return. -/
def history : State → List Report → List Handled
  | _, [] => []
  | s, r :: rs =>
      match receiveEvent s r with
      | none => []
      | some s' => ⟨s, r, s'⟩ :: history s' rs

/-- Nothing is forgotten: if the report carries counts, they are in the row, or the next report
with the same counts tries to save them. -/
def Handled.Kept (c : Handled) : Prop :=
  c.report.Counts → Saved c.after c.report ∨ Retries c.after c.report

/-- If the report changes the counts, its transaction succeeds. -/
def Handled.Saves (c : Handled) : Prop :=
  c.report.Counts → Changes c.before c.report → c.report.outcomes.Saves

instance (c : Handled) : Decidable c.Saves := inferInstanceAs (Decidable (_ → _ → _))

theorem kept_iff {s s' : State} {r : Report} (hinv : Inv s) (h : receiveEvent s r = some s') :
    (Handled.mk s r s').Kept ↔ (Handled.mk s r s').Saves := by
  apply forall_congr'
  intro hcounts
  rw [or_iff_left (not_retries hcounts h)]
  exact (saved_iff hinv hcounts h).1

theorem inv_receiveEvent {s s' : State} {r : Report} (hinv : Inv s)
    (h : receiveEvent s r = some s') (hsaves : (Handled.mk s r s').Saves) : Inv s' := by
  by_cases hcounts : r.Counts
  · obtain ⟨hiff, hnext⟩ := saved_iff hinv hcounts h
    exact hnext (hiff.mpr (hsaves hcounts))
  · rcases receiveEvent_cases h with ⟨-, hpast, hdb⟩ | ⟨hcounts', -⟩
    · obtain ⟨row, hstore, hholds⟩ := hinv
      exact ⟨row, hdb ▸ hstore, hpast ▸ hholds⟩
    · exact absurd hcounts' hcounts

theorem kept_history_iff (reports : List Report) : ∀ {s : State}, Inv s →
    ((∀ c ∈ history s reports, c.Kept) ↔ ∀ c ∈ history s reports, c.Saves) := by
  induction reports with
  | nil => intro s _; simp [history]
  | cons r rs ih =>
      intro s hinv
      unfold history
      cases h : receiveEvent s r with
      | none => simp
      | some s' =>
          rw [List.forall_mem_cons, List.forall_mem_cons, kept_iff hinv h]
          exact and_congr_right (fun hsaves => ih (inv_receiveEvent hinv h hsaves))

theorem inv_init {db : Db} {row : Row} (h : db.store = ⟨[row], none⟩) :
    Inv (init (boot db) .ok).2 := by
  have hrow : (boot db).db.store.visible = [row] := by
    rw [Store.visible, boot, h]
    rfl
  have hholds : Holds row ⟨fun k => count (row k)⟩ := fun _ => rfl
  rw [init_of_row hrow hholds]
  exact ⟨row, h, hholds⟩

/-- **When no count is forgotten**: in a run from the start of the program, after each report
its counts are in the row or the next report with the same counts tries to save them, exactly
when every transaction for changed counts is begun, executed and ended with success. -/
theorem counts_kept_iff (db : Db) (row : Row) (h : db.store = ⟨[row], none⟩)
    (reports : List Report) :
    (∀ c ∈ history (init (boot db) .ok).2 reports, c.Kept) ↔
      ∀ c ∈ history (init (boot db) .ok).2 reports, c.Saves :=
  kept_history_iff reports (inv_init h)

/-- A table with eight zeros. -/
def zeros : Db := ⟨⟨[fun _ => ['0']], none⟩, []⟩

/-- The report that every port has counted one, while another program has locked the database. -/
def lockedReport : Report :=
  { buffer := Mem.store (fun _ => 0) 0 ([0xFE, 73] ++
      (List.range 8).flatMap (fun k => [UInt8.ofNat (k + 2), 4, 0, 0, 0, 1]) ++
      (List.range 8).flatMap (fun k => [UInt8.ofNat (k + 10), 1, 1]) ++ [25, 0xFF])
    outcomes := ⟨⟨.other, false⟩, ⟨.ok, false⟩, [⟨.ok, false⟩]⟩ }

theorem counts_kept_locked :
    (∀ c ∈ history (init (boot zeros) .ok).2 [lockedReport, lockedReport], c.Kept) ↔
      ∀ c ∈ history (init (boot zeros) .ok).2 [lockedReport, lockedReport], c.Saves :=
  counts_kept_iff zeros (fun _ => ['0']) rfl [lockedReport, lockedReport]

/-- Counts whose transaction could not begin count as received, and are not saved any more. -/
theorem counts_forgotten : ¬ ∀ (db : Db) (row : Row), db.store = ⟨[row], none⟩ →
    ∀ reports : List Report, ∀ c ∈ history (init (boot db) .ok).2 reports, c.Kept := by
  intro h
  have hkept := (kept_history_iff [lockedReport] (inv_init rfl)).mp
    (h zeros (fun _ => ['0']) rfl [lockedReport])
  revert hkept
  decide

end IdcuIot.IoTManager
