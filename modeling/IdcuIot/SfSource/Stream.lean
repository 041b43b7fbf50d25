import Mathlib.Tactic

/-! # sfsource: whole portions through a socket

`saferead` and `safewrite` repeat `read` and `write` until all bytes are through.  What a socket
hands over is a script of portions, interruptions and failures, and then the end of the
connection.  Only the bytes before the first failure matter (`arriving`): `saferead` gives the
next `count` of them, or not `count` bytes when there are fewer (`saferead_of_le`,
`length_of_saferead_of_lt`).  `safewrite` sends all bytes or reports a failure
(`safewrite_cases`). -/

namespace IdcuIot.SfSource

/-! ### Reading -/

/-- What `read` meets on a socket: bytes, an interruption (`EINTR` or `EAGAIN`), or a failure.
Behind the last one the connection is closed. -/
inductive Incoming where
  | bytes (first : UInt8) (rest : List UInt8)
  | again
  | failed
deriving DecidableEq, Repr

/-- What a `read` of fewer bytes leaves of a portion. -/
def leave : List UInt8 → List Incoming → List Incoming
  | [], script => script
  | b :: l, script => .bytes b l :: script

/-- `saferead`: the bytes read, as many as it returns, or `none` for `-1`; and what is still to
come. -/
def saferead : List Incoming → ℕ → Option (List UInt8) × List Incoming
  | script, 0 => (some [], script)
  | [], _ + 1 => (some [], [])
  | .again :: script, count + 1 => saferead script (count + 1)
  | .failed :: script, _ + 1 => (none, script)
  | .bytes first rest :: script, count + 1 =>
      if rest.length ≤ count then
        let r := saferead script (count - rest.length)
        (r.1.map ((first :: rest) ++ ·), r.2)
      else
        -- `read` fills the buffer, and the loop ends
        (some ((first :: rest).take (count + 1)), leave ((first :: rest).drop (count + 1)) script)

/-- The bytes that come before a failure or the end of the connection. -/
def arriving : List Incoming → List UInt8
  | [] => []
  | .again :: script => arriving script
  | .failed :: _ => []
  | .bytes first rest :: script => first :: rest ++ arriving script

theorem arriving_leave (l : List UInt8) (script : List Incoming) :
    arriving (leave l script) = l ++ arriving script := by
  cases l <;> rfl

/-- When enough bytes come, `saferead` gets them, however they are divided into portions. -/
theorem saferead_of_le : ∀ (script : List Incoming) (count : ℕ),
    count ≤ (arriving script).length →
    ∃ script', saferead script count = (some ((arriving script).take count), script') ∧
      arriving script' = (arriving script).drop count
  | script, 0, _ => ⟨script, by simp [saferead], by simp⟩
  | [], count + 1, h => absurd h (by simp [arriving])
  | .again :: script, count + 1, h => saferead_of_le script (count + 1) h
  | .failed :: script, count + 1, h => absurd h (by simp [arriving])
  | .bytes first rest :: script, count + 1, h => by
      simp only [arriving, List.length_append, List.length_cons] at h
      by_cases hrest : rest.length ≤ count
      · obtain ⟨script', hread, hleft⟩ := saferead_of_le script (count - rest.length) (by omega)
        have hcount : count + 1 = (first :: rest).length + (count - rest.length) := by
          rw [List.length_cons]
          omega
        refine ⟨script', ?_, ?_⟩
        · rw [saferead, if_pos hrest, hread, arriving, hcount, List.take_length_add_append]
          rfl
        · rw [hleft, arriving, hcount, List.drop_length_add_append]
      · refine ⟨leave ((first :: rest).drop (count + 1)) script, ?_, ?_⟩
        · rw [saferead, if_neg hrest, arriving, List.take_append_of_le_length (by simp; omega)]
        · rw [arriving_leave, arriving, List.drop_append_of_le_length (by simp; omega)]

theorem length_of_saferead_of_lt : ∀ (script : List Incoming) (count : ℕ),
    (arriving script).length < count → ∀ l, (saferead script count).1 = some l → l.length < count
  | script, 0, h => absurd h (Nat.not_lt_zero _)
  | [], count + 1, _ => by
      intro l hl
      obtain rfl := Option.some.inj hl
      exact Nat.succ_pos count
  | .again :: script, count + 1, h => length_of_saferead_of_lt script (count + 1) h
  | .failed :: script, count + 1, _ => fun l hl => by simp [saferead] at hl
  | .bytes first rest :: script, count + 1, h => by
      intro l hl
      simp only [arriving, List.length_append, List.length_cons] at h
      rw [saferead, if_pos (by omega)] at hl
      obtain ⟨l', hl', rfl⟩ := Option.map_eq_some_iff.mp hl
      have ih := length_of_saferead_of_lt script (count - rest.length) (by omega) l' hl'
      rw [List.length_append, List.length_cons]
      omega

/-- A caller's test for `count` bytes. -/
def readFull (script : List Incoming) (count : ℕ) : Option (List UInt8) × List Incoming :=
  let r := saferead script count
  (r.1.filter (fun l => l.length = count), r.2)

/-! ### Writing -/

/-- What `write` meets on a socket: room for some bytes, an interruption (`EINTR`), or a failure
(`EAGAIN` among them).  Behind the last one there is room for all. -/
inductive Room where
  | takes (count : ℕ)
  | interrupted
  | failed
deriving DecidableEq, Repr

/-- What `safewrite` returns, what went into the socket, and what is still to be met. -/
structure Written where
  actual : ℤ
  sent : List UInt8
  room : List Room
deriving DecidableEq, Repr

def safewrite : List Room → List UInt8 → Written
  | room, [] => ⟨0, [], room⟩
  | [], b :: l => ⟨(b :: l).length, b :: l, []⟩
  | .interrupted :: room, b :: l => safewrite room (b :: l)
  | .failed :: room, _ :: _ => ⟨-1, [], room⟩
  | .takes n :: room, b :: l =>
      let r := safewrite room ((b :: l).drop n)
      ⟨if r.actual = -1 then -1 else r.actual + ((b :: l).take n).length,
        (b :: l).take n ++ r.sent, r.room⟩

/-- `safewrite` sends all, or it fails with a part that is not all of it. -/
theorem safewrite_cases : ∀ (room : List Room) (l : List UInt8),
    ((safewrite room l).actual = l.length ∧ (safewrite room l).sent = l) ∨
      ((safewrite room l).actual = -1 ∧ (safewrite room l).sent <+: l ∧
        (safewrite room l).sent.length < l.length)
  | room, [] => Or.inl (by simp [safewrite])
  | [], b :: l => Or.inl (by simp [safewrite])
  | .interrupted :: room, b :: l => safewrite_cases room (b :: l)
  | .failed :: room, b :: l => Or.inr (by simp [safewrite])
  | .takes n :: room, b :: l => by
      have hsplit := List.take_append_drop n (b :: l)
      have hlength := congrArg List.length hsplit
      rw [List.length_append] at hlength
      rw [safewrite]
      rcases safewrite_cases room ((b :: l).drop n) with ⟨hactual, hsent⟩ | ⟨hactual, hsent, hlt⟩
      · left
        simp only [hactual, hsent, hsplit, and_true]
        rw [if_neg (by omega)]
        omega
      · right
        refine ⟨if_pos hactual, ?_, ?_⟩
        · conv_rhs => rw [← hsplit]
          exact (List.prefix_append_right_inj _).mpr hsent
        · rw [List.length_append]
          omega

end IdcuIot.SfSource
