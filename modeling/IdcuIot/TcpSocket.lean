import Mathlib.Tactic

/-! # TCPSocket: `sender`

The agents send a message to the middleware and wait for an answer.  `receive` waits with
`select` and then reads; it tells the caller about a timeout or an error of `select`, but not
how the `recv` went, and `select` is also ready when the peer has closed the connection. -/

namespace IdcuIot.TcpSocket

/-- What the system answers to one call of `sender`: the results of `send`, `select` and
`recv`, as far as they are called. -/
structure Answer where
  send : ℤ
  select : ℤ
  recv : ℤ
  select_ge : -1 ≤ select

/-- `receive`. -/
def receive (a : Answer) : ℤ :=
  let rtrn := 0
  let nd := a.select
  -- the result of recv only decides what is printed and parsed
  if 0 < nd then rtrn
  else if nd = 0 then -1
  else if nd = -1 then -1
  else rtrn

/-- `sender`. -/
def sender (a : Answer) : ℤ :=
  if a.send ≠ -1 then
    let rtrn := receive a
    if rtrn = 0 ∨ rtrn = 2 then 0 else -1
  else -1

/-- The message was sent and at least one byte came back. -/
def Answered (a : Answer) : Prop := a.send ≠ -1 ∧ 0 < a.select ∧ 0 < a.recv

/-- The message was sent and `select` was ready, but there was nothing to read: the peer has
closed the connection, or `recv` failed. -/
def Silent (a : Answer) : Prop := a.send ≠ -1 ∧ 0 < a.select ∧ a.recv ≤ 0

theorem receive_eq (a : Answer) : receive a = if 0 < a.select then 0 else -1 := by
  have hge := a.select_ge
  simp only [receive]
  split_ifs <;> first | rfl | omega

theorem sender_eq_zero_iff (a : Answer) : sender a = 0 ↔ a.send ≠ -1 ∧ 0 < a.select := by
  simp only [sender, receive_eq]
  split_ifs <;> simp_all

/-- `sender` is right about an answer unless the peer is silent. -/
theorem answered_of_sender_iff (a : Answer) : (sender a = 0 → Answered a) ↔ ¬ Silent a := by
  rw [sender_eq_zero_iff, Answered, Silent]
  constructor
  · rintro h ⟨h1, h2, h3⟩
    have := (h ⟨h1, h2⟩).2.2
    omega
  · rintro h ⟨h1, h2⟩
    refine ⟨h1, h2, ?_⟩
    by_contra h3
    exact h ⟨h1, h2, by omega⟩

end IdcuIot.TcpSocket
