import IdcuIot.Lib.Reassembly
import Mathlib.Tactic

/-! # Messages that say where they end

A reader takes one message after the other from a stream that carries the events `es`, each encoded
as `enc e` and read as `val e`.  `Reads` says that it takes whole messages and nothing else; then
the messages it gets out of the first bytes of the stream are those whose bytes are all there
(`readMany_eq`), wherever the stream is cut off. -/

namespace PrefixCode

open Reassembly

variable {α β ε : Type*}

/-- Reading at most `n` messages, up to the first that cannot be read. -/
def readMany (read : List β → Option (α × List β)) : ℕ → List β → List α
  | 0, _ => []
  | n + 1, l =>
      match read l with
      | none => []
      | some (a, rest) => a :: readMany read n rest

/-- What a reader of the messages `enc e` must do. -/
structure Reads (read : List β → Option (α × List β)) (enc : ε → List β) (val : ε → α) :
    Prop where
  whole : ∀ e rest, read (enc e ++ rest) = some (val e, rest)
  partly : ∀ e l, l <+: enc e → l.length < (enc e).length → read l = none
  nil : read [] = none

variable {read : List β → Option (α × List β)} {enc : ε → List β} {val : ε → α}

theorem Reads.readMany_eq (h : Reads read enc val) : ∀ (n : ℕ) (es : List ε) (l : List β),
    l <+: stream enc es →
    readMany read n l = ((es.take (arrived enc es l.length)).take n).map val
  | 0, es, l, _ => by simp [readMany]
  | n + 1, [], l, hl => by
      obtain rfl := List.prefix_nil.mp hl
      simp [readMany, h.nil]
  | n + 1, e :: es, l, hl => by
      rw [stream_cons] at hl
      unfold arrived
      split_ifs with hle
      · obtain ⟨rest, rfl⟩ := List.prefix_of_prefix_length_le (List.prefix_append _ _) hl hle
        have hrest : rest <+: stream enc es := (List.prefix_append_right_inj _).mp hl
        rw [readMany, h.whole, List.length_append, Nat.add_sub_cancel_left, List.take_succ_cons,
          List.take_succ_cons, List.map_cons]
        exact congrArg _ (h.readMany_eq n es rest hrest)
      · have hshort : l <+: enc e :=
          List.prefix_of_prefix_length_le hl (List.prefix_append _ _) (by omega)
        rw [readMany, h.partly e l hshort (by omega)]
        rfl

theorem arrived_mono (enc : ε → List β) : ∀ (es : List ε) {n n' : ℕ}, n ≤ n' →
    arrived enc es n ≤ arrived enc es n'
  | [], _, _, _ => Nat.le_refl _
  | e :: es, n, n', h => by
      unfold arrived
      split_ifs with hn hn'
      · exact Nat.succ_le_succ (arrived_mono enc es (by omega))
      · exact absurd (hn.trans h) hn'
      · exact Nat.zero_le _
      · exact Nat.le_refl _

end PrefixCode
