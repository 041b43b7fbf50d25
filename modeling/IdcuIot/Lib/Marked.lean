import Mathlib.Data.List.Infix
import Mathlib.Tactic

/-! # Marked frames in a text

A *frame* begins with the word `start` and ends before the next `stop`; between two frames
lies a gap in which `start` does not occur.  No proper end of `start` is a beginning of it,
so that a gap followed by a frame contains `start` at the front of the frame only.

`Carries fs l` says that `l` is a text with the frames `fs`; `frames l` reads the frames of
any text, from left to right.  A text loses frames as bytes are taken from its front
(`weight_frames_le`), and loses one for certain with the first byte of a frame
(`weight_frames_lt`). -/

namespace Marked

/-- What frames begin and end with. -/
structure Format (α : Type*) where
  start : List α
  stop : α
  start_ne_nil : start ≠ []
  stop_notMem : stop ∉ start
  unbordered : ∀ k < start.length, 0 < k → start.drop k ≠ start.take (start.length - k)

variable {α : Type*} {F : Format α}

/-- `l` is a text with the frames `fs`. -/
inductive Carries (F : Format α) : List (List α) → List α → Prop
  | gap {l : List α} : ¬ F.start <:+: l → Carries F [] l
  | frame {g b l : List α} {fs : List (List α)} : ¬ F.start <:+: g → F.stop ∉ b →
      Carries F fs l → Carries F ((F.start ++ b) :: fs) (g ++ (F.start ++ (b ++ F.stop :: l)))

/-- The text `x ++ y` is cut `j` bytes behind the beginning of a frame. -/
def Cuts (F : Format α) (x y : List α) (j : ℕ) : Prop :=
  0 < j ∧ j < F.start.length ∧
    ∃ fs u, Carries F fs u ∧ x = u ++ F.start.take j ∧ F.start.drop j <+: y

/-! ### Occurrences of the start word -/

namespace Format

theorem not_overlap (F : Format α) {u t : List α} (hu : u ≠ []) (hlt : u.length < F.start.length)
    (ht : F.start.take (F.start.length - u.length) <+: t) : ¬ F.start <+: u ++ t := by
  rintro ⟨r, hr⟩
  have hpos := List.length_pos_of_ne_nil hu
  have hdrop : F.start.drop u.length ++ r = t := by
    have := congrArg (List.drop u.length) hr
    rwa [List.drop_left, List.drop_append_of_le_length hlt.le] at this
  have hinitial : F.start.drop u.length <+: t := ⟨r, hdrop⟩
  refine F.unbordered u.length hlt hpos (List.IsPrefix.eq_of_length ?_ ?_)
  · apply List.prefix_of_prefix_length_le hinitial ht
    simp only [List.length_drop, List.length_take]
    omega
  · simp only [List.length_drop, List.length_take]
    omega

theorem not_prefix_of_gap (F : Format α) {g t : List α} (hg : ¬ F.start <+: g) (hne : g ≠ []) :
    ¬ F.start <+: g ++ (F.start ++ t) := by
  rcases Nat.lt_or_ge g.length F.start.length with hlt | hge
  · apply F.not_overlap hne hlt
    exact (List.take_prefix _ _).trans (List.prefix_append _ _)
  · intro hp
    exact hg (List.prefix_of_prefix_length_le hp (List.prefix_append g _) hge)

/-- Where `start` begins in a text that goes on to `stop`, it ends before it. -/
theorem prefix_of_append (F : Format α) {f l : List α} (h : F.start <+: f ++ F.stop :: l) :
    F.start <+: f := by
  rcases Nat.lt_or_ge f.length F.start.length with hlt | hge
  · obtain ⟨r, hr⟩ := h
    have hmem : F.stop ∈ F.start := by
      have hget : (F.start ++ r)[f.length]? = some F.stop := by
        rw [hr, List.getElem?_append_right le_rfl, Nat.sub_self]
        rfl
      rw [List.getElem?_append_left hlt] at hget
      exact List.mem_of_getElem? hget
    exact absurd hmem F.stop_notMem
  · exact List.prefix_of_prefix_length_le h (List.prefix_append f _) hge

end Format

/-! ### Texts -/

namespace Carries

theorem tail {fs : List (List α)} {b : α} {l : List α} (h : Carries F fs (b :: l))
    (hp : ¬ F.start <+: b :: l) : Carries F fs l := by
  generalize ht : b :: l = t at h
  cases h with
  | gap hq =>
      subst ht
      exact .gap (fun h => hq (h.trans (List.suffix_cons b l).isInfix))
  | @frame g body l' fs hq hb hc =>
      cases g with
      | nil => exact absurd (ht ▸ List.prefix_append _ _) hp
      | cons b' g =>
          obtain ⟨rfl, rfl⟩ := List.cons.inj ht
          exact .frame (fun h => hq (h.trans (List.suffix_cons b g).isInfix)) hb hc

theorem cons {fs : List (List α)} {b : α} {l : List α} (h : Carries F fs l)
    (hp : ¬ F.start <+: b :: l) : Carries F fs (b :: l) := by
  cases h with
  | gap hq => exact .gap (fun h => (List.infix_cons_iff.mp h).elim hp hq)
  | @frame g body l' fs hq hb hc =>
      refine frame (g := b :: g) (fun h => (List.infix_cons_iff.mp h).elim (fun h' => hp ?_) hq) hb hc
      exact h'.trans (List.prefix_append (b :: g) _)

theorem of_prefix {fs : List (List α)} {l : List α} (h : Carries F fs l) (hp : F.start <+: l) :
    ∃ b fs' l', l = F.start ++ (b ++ F.stop :: l') ∧ F.stop ∉ b ∧ fs = (F.start ++ b) :: fs' ∧
      Carries F fs' l' := by
  cases h with
  | gap hq => exact absurd hp.isInfix hq
  | @frame g b l' fs hq hb hc =>
      have hg : g = [] := by
        by_contra hne
        exact F.not_prefix_of_gap (fun h => hq h.isInfix) hne hp
      subst hg
      exact ⟨b, fs, l', rfl, hb, rfl, hc⟩

end Carries

/-! ### Where a text is cut -/

theorem append_cons_inj {a : α} : ∀ {f f' l l' : List α}, a ∉ f → a ∉ f' →
    f ++ a :: l = f' ++ a :: l' → f = f' ∧ l = l'
  | [], [], _, _, _, _, h => ⟨rfl, (List.cons.inj h).2⟩
  | [], b :: f', _, _, _, hf', h => absurd (by rw [(List.cons.inj h).1]; exact List.mem_cons_self) hf'
  | b :: f, [], _, _, hf, _, h => absurd (by rw [← (List.cons.inj h).1]; exact List.mem_cons_self) hf
  | b :: f, b' :: f', _, _, hf, hf', h => by
      obtain ⟨rfl, h'⟩ := List.cons.inj h
      obtain ⟨rfl, hl⟩ := append_cons_inj (List.not_mem_of_not_mem_cons hf)
        (List.not_mem_of_not_mem_cons hf') h'
      exact ⟨rfl, hl⟩

theorem carries_append_iff {fs : List (List α)} {f l : List α} (hp : F.start <+: f)
    (hf : F.stop ∉ f) :
    Carries F fs (f ++ F.stop :: l) ↔ ∃ fs', fs = f :: fs' ∧ Carries F fs' l := by
  constructor
  · intro h
    obtain ⟨b, fs', l', heq, hb, rfl, hc⟩ := h.of_prefix (hp.trans (List.prefix_append _ _))
    rw [← List.append_assoc] at heq
    obtain ⟨rfl, rfl⟩ := append_cons_inj hf
      (fun h => (List.mem_append.mp h).elim F.stop_notMem hb) heq
    exact ⟨fs', rfl, hc⟩
  · rintro ⟨fs', rfl, hc⟩
    obtain ⟨b, rfl⟩ := hp
    have hgap : ¬ F.start <:+: [] := fun h => F.start_ne_nil (List.infix_nil.mp h)
    have := Carries.frame (g := []) hgap (fun h => hf (List.mem_append_right _ h)) hc
    rwa [List.nil_append, ← List.append_assoc] at this

section
variable {x y : List α} {j : ℕ}

theorem Cuts.cons {b : α} (h : Cuts F x y j) (hp : ¬ F.start <+: b :: x) : Cuts F (b :: x) y j := by
  obtain ⟨h0, hj, fs, u, hc, rfl, hy⟩ := h
  exact ⟨h0, hj, fs, b :: u, hc.cons (fun h => hp (h.trans (List.prefix_append (b :: u) _))), rfl, hy⟩

theorem Cuts.tail {b : α} (h : Cuts F (b :: x) y j) (hp : ¬ F.start <+: b :: x)
    (hne : b :: x ≠ F.start.take j) : Cuts F x y j := by
  obtain ⟨h0, hj, fs, u, hc, hu, hy⟩ := h
  cases u with
  | nil => exact absurd hu hne
  | cons b' u =>
      obtain ⟨rfl, rfl⟩ := List.cons.inj hu
      exact ⟨h0, hj, fs, u, hc.tail (fun h => hp (h.trans (List.prefix_append (b :: u) _))), rfl, hy⟩

theorem Cuts.not_prefix (h : Cuts F x y j) (hp : ¬ F.start <+: x) (hne : x ≠ F.start.take j) :
    ¬ F.start <+: x ++ y := by
  obtain ⟨-, -, fs, u, -, rfl, r, rfl⟩ := h
  have hu : u ≠ [] := by
    rintro rfl
    exact hne rfl
  rw [List.append_assoc, ← List.append_assoc (F.start.take j), List.take_append_drop]
  exact F.not_prefix_of_gap (fun h => hp (h.trans (List.prefix_append u _))) hu

theorem cuts_append_iff {f : List α} (hp : F.start <+: f) (hf : F.stop ∉ f) :
    Cuts F (f ++ F.stop :: x) y j ↔ Cuts F x y j := by
  have htake : F.stop ∉ F.start.take j := fun h => F.stop_notMem (List.mem_of_mem_take h)
  constructor
  · rintro ⟨h0, hj, fs, u, hc, hu, hy⟩
    rcases List.append_eq_append_iff.mp hu with ⟨u', rfl, hu'⟩ | ⟨c, rfl, hc'⟩
    · cases u' with
      | nil => exact absurd (by rw [← List.nil_append (F.start.take j), ← hu']; simp) htake
      | cons b u' =>
          obtain ⟨rfl, rfl⟩ := List.cons.inj hu'
          obtain ⟨fs', -, hc'⟩ := (carries_append_iff hp hf).mp hc
          exact ⟨h0, hj, fs', u', hc', rfl, hy⟩
    · exact absurd (by rw [hc']; simp) htake
  · rintro ⟨h0, hj, fs, u, hc, rfl, hy⟩
    refine ⟨h0, hj, f :: fs, f ++ F.stop :: u, (carries_append_iff hp hf).mpr ⟨fs, rfl, hc⟩, ?_, hy⟩
    rw [List.append_assoc, List.cons_append]

theorem not_cuts_of_prefix (hp : F.start <+: x) (hx : F.stop ∉ x) : ¬ Cuts F x y j := by
  rintro ⟨h0, hj, fs, u, hc, rfl, hy⟩
  rcases Nat.lt_or_ge u.length F.start.length with hlt | hge
  · have hu : u ≠ [] := by
      rintro rfl
      have := hp.length_le
      rw [List.nil_append, List.length_take] at this
      omega
    refine F.not_overlap hu hlt ?_ hp
    apply List.prefix_of_prefix_length_le (List.take_prefix _ _) (List.take_prefix _ _)
    have := hp.length_le
    simp only [List.length_append, List.length_take] at this ⊢
    omega
  · have hp' := List.prefix_of_prefix_length_le hp (List.prefix_append u _) hge
    obtain ⟨b, fs', l', rfl, -⟩ := hc.of_prefix hp'
    exact hx (by simp)

theorem cuts_of_prefix (hp : F.start <+: x ++ y) (hx : x ≠ []) (hlt : x.length < F.start.length) :
    x = F.start.take x.length ∧ Cuts F x y x.length := by
  obtain ⟨r, hr⟩ := hp
  have hx' : x = F.start.take x.length := by
    have := congrArg (List.take x.length) hr
    rwa [List.take_append_of_le_length hlt.le, List.take_left, eq_comm] at this
  refine ⟨hx', List.length_pos_of_ne_nil hx, hlt, [], [],
    .gap (fun h => F.start_ne_nil (List.infix_nil.mp h)), hx', r, ?_⟩
  have := congrArg (List.drop x.length) hr
  rwa [List.drop_append_of_le_length hlt.le, List.drop_left] at this

end

/-! ### Reading the frames of a text -/

section
variable [DecidableEq α]

/-- Read the frames from left to right, in a gap or behind the bytes `f` of a frame. -/
def readFrames (F : Format α) : Option (List α) → List α → List (List α)
  | _, [] => []
  | none, b :: l =>
      if F.start <+: b :: l then readFrames F (some [b]) l else readFrames F none l
  | some f, b :: l =>
      if b = F.stop then f :: readFrames F none l else readFrames F (some (f ++ [b])) l

/-- The frames of a text. -/
def frames (F : Format α) (l : List α) : List (List α) := readFrames F none l

theorem readFrames_some (F : Format α) {f' : List α} (hf : F.stop ∉ f') (l : List α) :
    ∀ f, readFrames F (some f) (f' ++ F.stop :: l) = (f ++ f') :: frames F l := by
  induction f' with
  | nil => simp [readFrames, frames]
  | cons b f' ih =>
      intro f
      obtain ⟨hb, hf'⟩ := not_or.mp (List.mem_cons.not.mp hf)
      rw [List.cons_append, readFrames, if_neg (Ne.symm hb), ih hf', List.append_assoc]
      rfl

theorem readFrames_of_notMem (F : Format α) {l : List α} (h : F.stop ∉ l) :
    ∀ o, readFrames F o l = [] := by
  induction l with
  | nil => intro o; cases o <;> rfl
  | cons b l ih =>
      obtain ⟨hb, hl⟩ := not_or.mp (List.mem_cons.not.mp h)
      intro o
      cases o with
      | none =>
          rw [readFrames]
          split_ifs <;> exact ih hl _
      | some f => rw [readFrames, if_neg (Ne.symm hb), ih hl]

theorem frames_of_notMem (F : Format α) {l : List α} (h : F.stop ∉ l) : frames F l = [] :=
  readFrames_of_notMem F h none

theorem frames_of_not_start {b : α} {l : List α} (h : ¬ F.start <+: b :: l) :
    frames F (b :: l) = frames F l := by
  rw [frames, readFrames, if_neg h, frames]

theorem frames_of_prefix {f l : List α} (h : F.start <+: f) (hf : F.stop ∉ f) :
    frames F (f ++ F.stop :: l) = f :: frames F l := by
  cases f with
  | nil => exact absurd (List.prefix_nil.mp h) F.start_ne_nil
  | cons b f =>
      have hp : F.start <+: b :: (f ++ F.stop :: l) := h.trans (List.prefix_append _ _)
      rw [frames, List.cons_append, readFrames, if_pos hp,
        readFrames_some F (List.not_mem_of_not_mem_cons hf)]
      rfl

theorem Carries.frames_eq {fs : List (List α)} {l : List α} (h : Carries F fs l) :
    frames F l = fs := by
  induction h with
  | @gap l hq =>
      induction l with
      | nil => rfl
      | cons b l ih =>
          rw [frames_of_not_start (fun h => hq h.isInfix)]
          exact ih (fun h => hq (h.trans (List.suffix_cons b l).isInfix))
  | @frame g body l fs hq hb hc ih =>
      induction g with
      | nil =>
          rw [List.nil_append, ← List.append_assoc, frames_of_prefix (List.prefix_append _ _), ih]
          exact fun h => (List.mem_append.mp h).elim F.stop_notMem hb
      | cons b g ihg =>
          have hgap := F.not_prefix_of_gap (t := body ++ F.stop :: l) (fun h => hq h.isInfix)
            (List.cons_ne_nil b g)
          rw [List.cons_append] at hgap ⊢
          rw [frames_of_not_start hgap]
          exact ihg (fun h => hq (h.trans (List.suffix_cons b g).isInfix))

/-! ### What is lost at the front -/

/-- Up to the next `stop` a text holds no more frame bytes than bytes. -/
theorem weight_frames_append_le {f : List α} (hf : F.stop ∉ f) (l : List α) :
    (frames F (f ++ F.stop :: l)).flatten.length ≤ f.length + (frames F l).flatten.length := by
  induction f with
  | nil =>
      rw [List.nil_append, frames_of_not_start, List.length_nil, Nat.zero_add]
      intro hp
      exact F.start_ne_nil (List.prefix_nil.mp (F.prefix_of_append (f := []) hp))
  | cons b f ih =>
      have hf' := List.not_mem_of_not_mem_cons hf
      by_cases hp : F.start <+: b :: (f ++ F.stop :: l)
      · have hfull := frames_of_prefix (l := l) (F.prefix_of_append (f := b :: f) hp) hf
        rw [hfull, List.flatten_cons, List.length_append]
      · rw [List.cons_append, frames_of_not_start hp, List.length_cons]
        have := ih hf'
        omega

theorem weight_frames_lt {b : α} {l : List α} (hp : F.start <+: b :: l) (hl : F.stop ∈ l) :
    (frames F l).flatten.length < (frames F (b :: l)).flatten.length := by
  obtain ⟨f, l', rfl, hf⟩ := List.eq_append_cons_of_mem hl
  have hb : F.stop ≠ b := by
    rintro rfl
    exact F.start_ne_nil (List.prefix_nil.mp (F.prefix_of_append (f := []) hp))
  have hf' : F.stop ∉ b :: f := List.mem_cons.not.mpr (not_or.mpr ⟨hb, hf⟩)
  have hfull := frames_of_prefix (l := l') (F.prefix_of_append (f := b :: f) hp) hf'
  rw [List.cons_append] at hfull
  rw [hfull, List.flatten_cons, List.length_append, List.length_cons]
  have := weight_frames_append_le hf l'
  omega

theorem weight_frames_le (b : α) (l : List α) :
    (frames F l).flatten.length ≤ (frames F (b :: l)).flatten.length := by
  by_cases hp : F.start <+: b :: l
  · by_cases hl : F.stop ∈ l
    · exact (weight_frames_lt hp hl).le
    · simp [frames_of_notMem F hl]
  · rw [frames_of_not_start hp]

end
end Marked
