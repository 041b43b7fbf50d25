import Mathlib.Tactic

/-! # Transactions

A store with one writer: the committed state, and the state inside the open transaction if
there is one.  Statements may fail at any time (`Outcome`), and a statement that fails may also
roll the open transaction back.  Two failures are not left to chance: a transaction cannot be
opened inside another one, and none can be ended when none is open.

Inside a transaction the committed state changes only when it is ended with success
(`commit_of_ne`, `committed_fail`), and then it becomes the pending one (`commit_ok`). -/

namespace Transaction

/-- Result codes, as far as programs tell them apart. -/
inductive Rc where
  | ok
  | error
  | other
deriving DecidableEq, Repr

/-- How the execution of a statement turns out, and whether it takes the open transaction with
it when it fails. -/
structure Outcome where
  rc : Rc
  rollback : Bool

/-- A store with states `σ`. -/
structure Store (σ : Type) where
  committed : σ
  pending : Option σ

variable {σ : Type}

namespace Store

/-- What queries on this connection see. -/
def visible (s : Store σ) : σ := s.pending.getD s.committed

/-- A statement fails. -/
def fail (s : Store σ) (o : Outcome) : Store σ :=
  if o.rollback then { s with pending := none } else s

/-- Open a transaction. -/
def start (s : Store σ) (o : Outcome) : Rc × Store σ :=
  if s.pending.isSome then (.error, s)
  else if o.rc = .ok then (.ok, { s with pending := some s.committed })
  else (o.rc, s)

/-- Change the state; outside a transaction the change is committed at once. -/
def write (s : Store σ) (f : σ → σ) (o : Outcome) : Rc × Store σ :=
  if o.rc = .ok then
    match s.pending with
    | some p => (.ok, { s with pending := some (f p) })
    | none => (.ok, { s with committed := f s.committed })
  else (o.rc, s.fail o)

/-- End the transaction. -/
def commit (s : Store σ) (o : Outcome) : Rc × Store σ :=
  match s.pending with
  | none => (.error, s)
  | some p => if o.rc = .ok then (.ok, ⟨p, none⟩) else (o.rc, s.fail o)

/-- The process is gone, and its open transaction with it. -/
def restart (s : Store σ) : Store σ := { s with pending := none }

@[simp] theorem committed_fail (s : Store σ) (o : Outcome) : (s.fail o).committed = s.committed := by
  unfold fail
  split_ifs <;> rfl

theorem fail_of_rollback {s : Store σ} {o : Outcome} (h : o.rollback = true) :
    (s.fail o).pending = none := by
  unfold fail
  rw [if_pos h]

theorem fail_of_kept {s : Store σ} {o : Outcome} (h : o.rollback = false) : s.fail o = s := by
  unfold fail
  rw [h]
  rfl

theorem visible_of_closed {s : Store σ} (h : s.pending = none) : s.visible = s.committed := by
  unfold visible
  rw [h]
  rfl

/-! ### One statement -/

theorem start_ok {s : Store σ} {o : Outcome} (h : s.pending = none) (ho : o.rc = .ok) :
    s.start o = (.ok, { s with pending := some s.committed }) := by
  unfold start
  rw [h, ho]
  rfl

theorem start_of_ne {s : Store σ} {o : Outcome} (h : (s.start o).1 ≠ .ok) : (s.start o).2 = s := by
  unfold start at h ⊢
  split_ifs with hp ho
  · rfl
  · rw [if_neg hp, if_pos ho] at h
    exact absurd rfl h
  · rfl

theorem rc_start {s : Store σ} {o : Outcome} (h : s.pending = none) : (s.start o).1 = o.rc := by
  unfold start
  rw [h]
  split_ifs with hp ho
  · cases hp
  · exact ho.symm
  · rfl

theorem write_ok {s : Store σ} {o : Outcome} {p : σ} (f : σ → σ) (h : s.pending = some p)
    (ho : o.rc = .ok) : s.write f o = (.ok, { s with pending := some (f p) }) := by
  unfold write
  rw [if_pos ho, h]

/-- A failed change leaves the pending state as it was, or nothing is pending any more. -/
theorem write_of_ne {s : Store σ} {o : Outcome} (f : σ → σ) (ho : o.rc ≠ .ok) :
    (s.write f o).2.committed = s.committed ∧
      ((s.write f o).2.pending = s.pending ∨ (s.write f o).2.pending = none) := by
  unfold write
  rw [if_neg ho, fail]
  split_ifs
  · exact ⟨rfl, Or.inr rfl⟩
  · exact ⟨rfl, Or.inl rfl⟩

theorem commit_ok {s : Store σ} {o : Outcome} {p : σ} (h : s.pending = some p) (ho : o.rc = .ok) :
    s.commit o = (.ok, ⟨p, none⟩) := by
  simp only [commit, h, ho, if_true]

theorem commit_of_closed {s : Store σ} (o : Outcome) (h : s.pending = none) :
    s.commit o = (.error, s) := by
  unfold commit
  rw [h]

theorem commit_of_ne {s : Store σ} {o : Outcome} {p : σ} (h : s.pending = some p) (ho : o.rc ≠ .ok) :
    s.commit o = (o.rc, s.fail o) := by
  simp only [commit, h, if_neg ho]

end Store

end Transaction
