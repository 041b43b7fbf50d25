import Mathlib.Data.List.Basic
import Mathlib.Tactic

/-! # Stuffed frames

Frames on a line of symbols, each between two `sync` symbols.  Inside a frame `sync` and `esc` do
not stand for themselves: they are sent as `esc` and the masked symbol (`stuff`), so that `sync`
occurs at the borders of frames only (`sync_not_mem_stuff`) and a frame of `n` symbols takes at
most `2 * n + 2` on the line (`length_frame_le`).

The receiver (`step`, `feed`) has room for `cap` symbols and drops frames of fewer than `least`.
When the room is full, or a `sync` follows an `esc`, it gives up and waits for a `sync`.  From
any state it takes a stream of frames to exactly those that fit (`feed_stream`); only what it had
in hand before may be given out in addition, and only the first frame may be lost, which depends
on the state alone (`Blocked`). -/

/-- The two special symbols and what masks them. -/
structure Stuffing (α : Type*) where
  sync : α
  esc : α
  mask : α → α
  mask_mask : ∀ a, mask (mask a) = a
  esc_ne_sync : esc ≠ sync
  mask_sync_ne : mask sync ≠ sync
  mask_esc_ne : mask esc ≠ sync

namespace Stuffing

variable {α : Type*} [DecidableEq α] (c : Stuffing α)

/-! ### Sending -/

/-- A symbol as it is sent inside a frame. -/
def stuff1 (a : α) : List α := if a = c.sync ∨ a = c.esc then [c.esc, c.mask a] else [a]

/-- Symbols as they are sent inside a frame. -/
def stuff (l : List α) : List α := l.flatMap c.stuff1

/-- A frame on the line. -/
def frame (l : List α) : List α := c.sync :: (c.stuff l ++ [c.sync])

@[simp] theorem stuff_nil : c.stuff [] = [] := rfl

@[simp] theorem stuff_cons (a : α) (l : List α) : c.stuff (a :: l) = c.stuff1 a ++ c.stuff l := rfl

@[simp] theorem stuff_append (l l' : List α) : c.stuff (l ++ l') = c.stuff l ++ c.stuff l' :=
  List.flatMap_append

theorem sync_not_mem_stuff1 (a : α) : c.sync ∉ c.stuff1 a := by
  unfold stuff1
  split_ifs with h
  · rw [List.mem_pair]
    rintro (hsync | hsync)
    · exact c.esc_ne_sync hsync.symm
    · rcases h with rfl | rfl
      · exact c.mask_sync_ne hsync.symm
      · exact c.mask_esc_ne hsync.symm
  · rw [List.mem_singleton]
    exact fun hsync => h (Or.inl hsync.symm)

theorem sync_not_mem_stuff (l : List α) : c.sync ∉ c.stuff l := by
  intro h
  obtain ⟨a, -, ha⟩ := List.mem_flatMap.mp h
  exact c.sync_not_mem_stuff1 a ha

theorem length_stuff1_le (a : α) : (c.stuff1 a).length ≤ 2 := by
  unfold stuff1
  split_ifs <;> simp

theorem length_stuff_le (l : List α) : (c.stuff l).length ≤ 2 * l.length := by
  induction l with
  | nil => simp
  | cons a l ih =>
      have ha := c.length_stuff1_le a
      rw [stuff_cons, List.length_append, List.length_cons]
      omega

theorem length_frame_le (l : List α) : (c.frame l).length ≤ 2 * l.length + 2 := by
  have h := c.length_stuff_le l
  simp only [frame, List.length_cons, List.length_append, List.length_nil]
  omega

/-! ### Receiving -/

/-- Where the receiver stands: it waits for a `sync`, or it holds the symbols of a frame so far,
the last of them perhaps an `esc` whose symbol is still to come. -/
inductive State (α : Type*) where
  | lost
  | inside (held : List α) (escaped : Bool)
deriving DecidableEq, Repr

/-- The state between two frames. -/
abbrev State.idle : State α := .inside [] false

variable (least cap : ℕ)

/-- One symbol, and the frame it ends. -/
def step : State α → α → State α × Option (List α)
  | .lost, a => (if a = c.sync then .idle else .lost, none)
  | .inside held escaped, a =>
      if cap ≤ held.length then (.lost, none)
      else if escaped then
        (if a = c.sync then .lost else .inside (held ++ [c.mask a]) false, none)
      else if a = c.esc then (.inside held true, none)
      else if a = c.sync then (.idle, if held.length < least then none else some held)
      else (.inside (held ++ [a]) false, none)

/-- The symbols of a stream one after the other, and the frames they end. -/
def feed : State α → List α → State α × List (List α)
  | s, [] => (s, [])
  | s, a :: l =>
      ((feed (c.step least cap s a).1 l).1,
        (c.step least cap s a).2.toList ++ (feed (c.step least cap s a).1 l).2)

@[simp] theorem feed_nil (s : State α) : c.feed least cap s [] = (s, []) := rfl

theorem feed_cons (s : State α) (a : α) (l : List α) :
    c.feed least cap s (a :: l) = ((c.feed least cap (c.step least cap s a).1 l).1,
      (c.step least cap s a).2.toList ++ (c.feed least cap (c.step least cap s a).1 l).2) := rfl

theorem feed_cons_of_step {s t : State α} {a : α} (h : c.step least cap s a = (t, none))
    (l : List α) : c.feed least cap s (a :: l) = c.feed least cap t l := by
  rw [feed_cons, h]
  rfl

theorem feed_append (s : State α) (l l' : List α) :
    c.feed least cap s (l ++ l') = ((c.feed least cap (c.feed least cap s l).1 l').1,
      (c.feed least cap s l).2 ++ (c.feed least cap (c.feed least cap s l).1 l').2) := by
  induction l generalizing s with
  | nil => rfl
  | cons a l ih => rw [List.cons_append, feed_cons, ih, feed_cons, List.append_assoc]

/-- The frames that are given out: long enough, and one symbol shorter than the room. -/
def Fits (l : List α) : Prop := least ≤ l.length ∧ l.length < cap

instance (l : List α) : Decidable (Fits least cap l) := by
  unfold Fits
  infer_instance

/-! ### One frame -/

variable {least cap}

theorem feed_lost {l : List α} (h : c.sync ∉ l) : c.feed least cap .lost l = (.lost, []) := by
  induction l with
  | nil => rfl
  | cons a l ih =>
      obtain ⟨ha, hl⟩ := not_or.mp (mt List.mem_cons.mpr h)
      rw [c.feed_cons_of_step (t := .lost) least cap (by simp [step, Ne.symm ha]), ih hl]

theorem feed_stuff1 {held : List α} (h : held.length < cap) (a : α) (l : List α) :
    c.feed least cap (.inside held false) (c.stuff1 a ++ l) =
      c.feed least cap (.inside (held ++ [a]) false) l := by
  have hroom : ¬ cap ≤ held.length := Nat.not_le.mpr h
  unfold stuff1
  split_ifs with ha
  · have hmask : c.mask a ≠ c.sync := by
      rcases ha with rfl | rfl
      · exact c.mask_sync_ne
      · exact c.mask_esc_ne
    rw [List.cons_append, List.cons_append, List.nil_append,
      c.feed_cons_of_step (t := .inside held true) least cap (by simp [step, hroom]),
      c.feed_cons_of_step (t := .inside (held ++ [a]) false) least cap
        (by simp [step, hroom, hmask, c.mask_mask])]
  · obtain ⟨hsync, hesc⟩ := not_or.mp ha
    rw [List.singleton_append,
      c.feed_cons_of_step (t := .inside (held ++ [a]) false) least cap
        (by simp [step, hroom, hsync, hesc])]

theorem feed_stuff (l : List α) (held : List α) (h : held.length ≤ cap) :
    c.feed least cap (.inside held false) (c.stuff l) =
      (if held.length + l.length ≤ cap then .inside (held ++ l) false else .lost, []) := by
  induction l generalizing held with
  | nil => simp [h]
  | cons a l ih =>
      rw [stuff_cons]
      rcases Nat.lt_or_eq_of_le h with hlt | heq
      · rw [c.feed_stuff1 hlt, ih (held ++ [a]) (by simp; omega)]
        simp [Nat.add_assoc, Nat.add_comm 1]
      · -- no room for the next symbol: the rest is skipped
        have hnot : ¬ held.length + (a :: l).length ≤ cap := by
          rw [List.length_cons]
          omega
        rw [if_neg hnot]
        obtain ⟨b, l', hb⟩ : ∃ b l', c.stuff1 a ++ c.stuff l = b :: l' := by
          unfold stuff1
          split_ifs <;> simp
        have hl' : c.sync ∉ l' := by
          intro hmem
          have hcons : c.sync ∈ c.stuff1 a ++ c.stuff l := hb ▸ List.mem_cons_of_mem _ hmem
          rw [← stuff_cons] at hcons
          exact c.sync_not_mem_stuff _ hcons
        rw [hb, c.feed_cons_of_step (t := .lost) least cap (by simp [step, heq]), c.feed_lost hl']

/-- The state behind a frame: its closing `sync` was the one symbol too much, or was read. -/
def behind (cap : ℕ) (l : List α) : State α := if l.length = cap then .lost else .idle

theorem feed_content (l : List α) :
    c.feed least cap .idle (c.stuff l ++ [c.sync]) =
      (behind cap l, if Fits least cap l then [l] else []) := by
  rw [feed_append, c.feed_stuff l [] (Nat.zero_le cap)]
  unfold behind Fits
  rcases Nat.lt_trichotomy l.length cap with hlt | heq | hgt
  · have hle : 0 + l.length ≤ cap := by omega
    simp only [List.length_nil, hle, if_true, List.nil_append, feed_cons, feed_nil, List.append_nil]
    by_cases hleast : l.length < least
    · simp [step, hlt, hlt.ne, c.esc_ne_sync.symm, hleast, Nat.not_le.mpr hlt]
    · simp [step, hlt, hlt.ne, c.esc_ne_sync.symm, hleast, Nat.not_le.mpr hlt, not_lt.mp hleast]
  · simp [heq, feed_cons, step]
  · have hnot : ¬ 0 + l.length ≤ cap := by omega
    rw [List.length_nil, if_neg hnot]
    simp [feed_cons, step, hgt.ne', Nat.lt_asymm hgt]

/-! ### Streams of frames -/

/-- Frames on the line. -/
def stream (ls : List (List α)) : List α := ls.flatMap c.frame

@[simp] theorem stream_cons (l : List α) (ls : List (List α)) :
    c.stream (l :: ls) = c.frame l ++ c.stream ls := rfl

/-- Between two frames. -/
def State.Between (s : State α) : Prop := s = .lost ∨ s = .idle

omit [DecidableEq α] in
theorem between_behind (l : List α) : (behind cap l).Between := by
  unfold behind State.Between
  split_ifs
  · exact Or.inl rfl
  · exact Or.inr rfl

theorem feed_sync_of_between {s : State α} (hs : s.Between) (hcap : 0 < cap) (hleast : 0 < least)
    (l : List α) : c.feed least cap s (c.sync :: l) = c.feed least cap .idle l := by
  apply feed_cons_of_step
  rcases hs with rfl | rfl
  · simp [step]
  · simp [step, hcap.ne', c.esc_ne_sync.symm, hleast]

/-- **From between two frames exactly the frames that fit are given out, in order.** -/
theorem feed_stream {s : State α} (hs : s.Between) (hcap : 0 < cap) (hleast : 0 < least)
    (ls : List (List α)) :
    (c.feed least cap s (c.stream ls)).1.Between ∧
      (c.feed least cap s (c.stream ls)).2 = ls.filter (fun l => decide (Fits least cap l)) := by
  induction ls generalizing s with
  | nil => exact ⟨hs, rfl⟩
  | cons l ls ih =>
      have hbehind : (behind cap l).Between := between_behind l
      obtain ⟨hbetween, hframes⟩ := ih hbehind
      have hframe : c.feed least cap s (c.frame l) =
          (behind cap l, if Fits least cap l then [l] else []) := by
        rw [frame, c.feed_sync_of_between hs hcap hleast, feed_content]
      rw [stream_cons, feed_append, hframe]
      refine ⟨hbetween, ?_⟩
      rw [hframes, List.filter_cons]
      by_cases hfits : Fits least cap l <;> simp [hfits]

/-! ### From any state -/

/-- The next `sync` is not read as the border of a frame. -/
def Blocked (cap : ℕ) : State α → Prop
  | .lost => False
  | .inside held escaped => escaped = true ∨ cap ≤ held.length

instance (s : State α) : Decidable (Blocked cap s) := by
  cases s <;> unfold Blocked <;> infer_instance

/-- What the receiver has in hand and gives out at the next `sync`. -/
def inHand (least cap : ℕ) : State α → List (List α)
  | .lost => []
  | .inside held escaped => if escaped = false ∧ Fits least cap held then [held] else []

omit [DecidableEq α] in
theorem length_inHand_le (s : State α) : (inHand least cap s).length ≤ 1 := by
  cases s with
  | lost => simp [inHand]
  | inside held escaped =>
      simp only [inHand]
      split_ifs <;> simp

theorem feed_sync (s : State α) (l : List α) :
    c.feed least cap s (c.sync :: l) =
      ((c.feed least cap (if Blocked cap s then .lost else .idle) l).1,
        inHand least cap s ++ (c.feed least cap (if Blocked cap s then .lost else .idle) l).2) := by
  rw [feed_cons]
  cases s with
  | lost => simp [step, Blocked, inHand]
  | inside held escaped =>
      by_cases hroom : cap ≤ held.length
      · simp [step, Blocked, inHand, Fits, hroom, Nat.not_lt.mpr hroom]
      · cases escaped with
        | true => simp [step, Blocked, inHand, hroom]
        | false =>
            by_cases hleast : held.length < least
            · simp [step, Blocked, inHand, Fits, hroom, hleast, Nat.not_le.mpr hleast,
                c.esc_ne_sync.symm]
            · simp [step, Blocked, inHand, Fits, hroom, hleast, c.esc_ne_sync.symm,
                not_lt.mp hleast, not_le.mp hroom]

/-- **From any state** the first frame is lost exactly when the state is blocked, and all later
ones that fit are given out. -/
theorem feed_stream_of_any (hcap : 0 < cap) (hleast : 0 < least) (s : State α) (l : List α)
    (ls : List (List α)) :
    (c.feed least cap s (c.stream (l :: ls))).1.Between ∧
      (c.feed least cap s (c.stream (l :: ls))).2 = inHand least cap s ++
        (if Blocked cap s then ls else l :: ls).filter (fun l => decide (Fits least cap l)) := by
  rw [stream_cons, frame, List.cons_append, feed_sync]
  by_cases hs : Blocked cap s
  · rw [if_pos hs, if_pos hs, List.append_assoc, feed_append, c.feed_lost (c.sync_not_mem_stuff l)]
    obtain ⟨hbetween, hframes⟩ := c.feed_stream (s := .idle) (Or.inr rfl) hcap hleast ls
    have hsync : c.feed least cap .lost ([c.sync] ++ c.stream ls) =
        c.feed least cap .idle (c.stream ls) :=
      c.feed_sync_of_between (Or.inl rfl) hcap hleast _
    rw [hsync]
    exact ⟨hbetween, by rw [hframes, List.nil_append]⟩
  · rw [if_neg hs, if_neg hs]
    have hidle : c.feed least cap .idle (c.stuff l ++ [c.sync] ++ c.stream ls) =
        c.feed least cap .idle (c.stream (l :: ls)) := by
      rw [stream_cons, frame, List.cons_append, c.feed_sync_of_between (Or.inr rfl) hcap hleast]
    obtain ⟨hbetween, hframes⟩ := c.feed_stream (s := .idle) (Or.inr rfl) hcap hleast (l :: ls)
    rw [hidle, hframes]
    exact ⟨hbetween, rfl⟩

end Stuffing
