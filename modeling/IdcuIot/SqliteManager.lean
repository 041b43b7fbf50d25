import IdcuIot.Lib.Decimal
import IdcuIot.Lib.Transaction
import IdcuIot.Lib.Words
import IdcuIot.Shared

/-! # sqliteManager: the table `tb_comm_status`

The row of `tb_comm_status` holds the production counts of the eight ports.  The columns are
filled with `%d` and read back as texts, so a row is modelled by its texts; the column
`datetime` is left out, no query here reads it.

The outcomes of the statements are parameters.  `executed` records the statements, for those
theorems that say what was attempted. -/

namespace IdcuIot.SqliteManager

open Transaction Decimal

/-- A row of `tb_comm_status`: the columns `port1`, …, `port8`. -/
abbrev Row := Fin 8 → Text

/-- The statements. -/
inductive Statement where
  | beginExclusive
  | update (ports : Row)
  | endTransaction

/-- The database behind a handle. -/
structure Db where
  store : Store (List Row)
  executed : List Statement

/-- `sqlite3_exec`; the `UPDATE` has no condition and changes every row. -/
def sqlite3Exec (db : Db) (statement : Statement) (o : Outcome) : Rc × Db :=
  let r := match statement with
    | .beginExclusive => db.store.start o
    | .update ports => db.store.write (fun rows => rows.map (fun _ => ports)) o
    | .endTransaction => db.store.commit o
  (r.1, ⟨r.2, db.executed ++ [statement]⟩)

/-- `%d` for a count, an `unsigned long` of 32 bits. -/
def port (cnt : UInt32) : Text := print (Words.signed cnt)

/-- `_sqlite3_update`: it returns `0` whatever `sqlite3_exec` says. -/
def sqlite3Update (db : Db) (node : MGData) (o : Outcome) : ℤ × Db :=
  let r := sqlite3Exec db (.update (fun k => port (node.cnt k))) o
  (0, r.2)

/-- `INSERT_BEGIN` and `INSERT_END`. -/
inductive TransactionStatus where
  | insertBegin
  | insertEnd

/-- `_sqlite3_transaction`. -/
def sqlite3Transaction (db : Db) (status : TransactionStatus) (o : Outcome) : ℤ × Db :=
  match status with
  | .insertBegin =>
      let r := sqlite3Exec db .beginExclusive o
      if r.1 ≠ .ok then (-1, r.2) else (0, r.2)
  | .insertEnd =>
      let r := sqlite3Exec db .endTransaction o
      if r.1 = .error then (0, r.2)
      else if r.1 ≠ .ok then (-1, r.2)
      else (0, r.2)

/-- `SQLite3Data`. -/
structure SQLite3Data where
  size : ℤ
  data : List Text

/-- The names of the columns, which `sqlite3_get_table` puts in front of the rows. -/
def columnNames : List Text :=
  ["port1", "port2", "port3", "port4", "port5", "port6", "port7", "port8"].map String.toList

/-- `_sqlite3_select` with the query for the eight ports: `sqlite3_get_table` returned `rc`.
For an empty table it reports neither rows nor columns. -/
def sqlite3Select (db : Db) (rc : Rc) : SQLite3Data :=
  if rc ≠ .ok then ⟨-1, []⟩
  else
    let rows := db.store.visible
    let nrows := rows.length
    let ncols := if nrows = 0 then 0 else 8
    ⟨nrows * ncols + ncols,
      if nrows = 0 then [] else columnNames ++ rows.flatMap List.ofFn⟩

/-- The row that an update writes. -/
def rowOf (node : MGData) : Row := fun k => port (node.cnt k)

theorem sqlite3Update_snd (db : Db) (node : MGData) (o : Outcome) :
    (sqlite3Update db node o).2 =
      ⟨(db.store.write (fun rows => rows.map (fun _ => rowOf node)) o).2,
        db.executed ++ [.update (rowOf node)]⟩ := rfl

theorem sqlite3Transaction_begin (db : Db) (o : Outcome) :
    sqlite3Transaction db .insertBegin o =
      (if (db.store.start o).1 = .ok then 0 else -1,
        ⟨(db.store.start o).2, db.executed ++ [.beginExclusive]⟩) := by
  by_cases h : (db.store.start o).1 = .ok <;> simp [sqlite3Transaction, sqlite3Exec, h]

theorem sqlite3Transaction_end (db : Db) (o : Outcome) :
    sqlite3Transaction db .insertEnd o =
      (if (db.store.commit o).1 = .other then -1 else 0,
        ⟨(db.store.commit o).2, db.executed ++ [.endTransaction]⟩) := by
  cases h : (db.store.commit o).1 <;> simp [sqlite3Transaction, sqlite3Exec, h]

/-! ### Counts and their texts -/

/-- The count that the programs read from a column: `atoi` stored in 32 bits. -/
def count (text : Text) : UInt32 := UInt32.ofInt (atoi text)

@[simp] theorem count_port (cnt : UInt32) : count (port cnt) = cnt := by
  unfold count port
  rw [atoi_print (Words.signed_ge cnt) (Words.signed_lt cnt), Words.ofInt_signed]

/-- A row holds the counts. -/
def Holds (row : Row) (node : MGData) : Prop := ∀ k, count (row k) = node.cnt k

instance (row : Row) (node : MGData) : Decidable (Holds row node) :=
  inferInstanceAs (Decidable (∀ _, _))

theorem holds_rowOf (node : MGData) : Holds (rowOf node) node :=
  fun k => count_port (node.cnt k)

theorem Holds.eq {row : Row} {node node' : MGData} (h : Holds row node) (h' : Holds row node') :
    node = node' := by
  cases node
  cases node'
  exact congrArg MGData.mk (funext fun k => (h k).symm.trans (h' k))

/-! ### Queries -/

theorem sqlite3Select_of_row {db : Db} {row : Row} (h : db.store.visible = [row]) :
    (sqlite3Select db .ok).size = 16 ∧
      ∀ k : Fin 8, (sqlite3Select db .ok).data.getD (8 + k) [] = row k := by
  simp only [sqlite3Select, ne_eq, not_true_eq_false, if_false, h, List.length_singleton,
    one_ne_zero, List.flatMap_cons, List.flatMap_nil, List.append_nil]
  refine ⟨rfl, fun k => ?_⟩
  have hlen : (columnNames).length = 8 := rfl
  rw [List.getD_append_right _ _ _ _ (by omega), hlen, Nat.add_sub_cancel_left,
    List.getD_eq_getElem _ _ (by rw [List.length_ofFn]; exact k.isLt), List.getElem_ofFn]

end IdcuIot.SqliteManager
