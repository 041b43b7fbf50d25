import Mathlib.Data.List.GetD
import Mathlib.Logic.Function.Iterate
import Mathlib.Tactic

/-! # Cyclic redundancy checks

A register of `w` bits that takes one bit after the other, lowest bit first: the bit is added to
the low end of the register, and `step` moves the register down and adds the polynomial when a
one falls out.

Adding is linear for `step` (`step_xor`), so a word of up to `w` bits may be added at once
(`run_eq`).  When the highest bit of the polynomial is set, `step` loses nothing
(`step_injective`).  Hence two texts that differ in a burst of at most `w` bits leave different
registers (`run_ne_of_burst`), and the only `w` bits behind a text that clear the register are
the register itself (`run_eq_zero_iff`).  A register that takes the highest bit first and moves up
(`stepUp`) is this one read backwards (`reverse_stepUp`). -/

namespace Crc

variable {w : ℕ} (poly : BitVec w)

/-- Take a bit out of the register. -/
def step (s : BitVec w) : BitVec w := if s.getLsbD 0 then (s >>> 1) ^^^ poly else s >>> 1

/-- A bit at the low end. -/
def bit (b : Bool) : BitVec w := BitVec.ofNat w b.toNat

/-- The register after `bits`. -/
def run (s : BitVec w) (bits : List Bool) : BitVec w :=
  bits.foldl (fun s b => step poly (s ^^^ bit b)) s

/-- Bits as a word, the first one lowest. -/
def word : List Bool → BitVec w
  | [] => 0#w
  | b :: bits => bit b ^^^ word bits <<< 1

/-! ### Words -/

theorem getLsbD_bit (b : Bool) (i : ℕ) :
    (bit b : BitVec w).getLsbD i = (decide (i < w) && (decide (i = 0) && b)) := by
  unfold bit
  cases b with
  | false => simp
  | true =>
      have htest : (1 : ℕ).testBit i = decide (i = 0) := by
        cases i with
        | zero => rfl
        | succ i => simp [Nat.testBit_succ]
      rw [BitVec.getLsbD_ofNat, Bool.toNat_true, htest, Bool.and_true]

theorem getLsbD_word (bits : List Bool) (i : ℕ) :
    (word bits : BitVec w).getLsbD i = (decide (i < w) && bits.getD i false) := by
  induction bits generalizing i with
  | nil => simp [word]
  | cons b bits ih =>
      rw [word, BitVec.getLsbD_xor, getLsbD_bit, BitVec.getLsbD_shiftLeft, ih]
      cases i with
      | zero => simp
      | succ i =>
          by_cases hi : i + 1 < w
          · simp [hi, Nat.lt_of_succ_lt hi]
          · simp [hi]

theorem word_inj {u v : List Bool} (hlen : u.length = v.length) (hu : u.length ≤ w)
    (h : (word u : BitVec w) = word v) : u = v := by
  refine List.ext_getElem hlen (fun i hi hi' => ?_)
  have hbit := congrArg (fun x : BitVec w => x.getLsbD i) h
  have hw : i < w := by omega
  simp only [getLsbD_word, hw, decide_true, Bool.true_and] at hbit
  rwa [List.getD_eq_getElem _ _ hi, List.getD_eq_getElem _ _ hi'] at hbit

/-! ### One step -/

@[simp] theorem step_zero : step poly 0#w = 0#w := by simp [step]

theorem step_xor (a b : BitVec w) : step poly (a ^^^ b) = step poly a ^^^ step poly b := by
  unfold step
  rw [BitVec.getLsbD_xor, BitVec.ushiftRight_xor_distrib]
  cases a.getLsbD 0 with
  | false =>
      cases b.getLsbD 0 with
      | false => rfl
      | true => exact BitVec.xor_assoc _ _ _
  | true =>
      cases b.getLsbD 0 with
      | false =>
          change a >>> 1 ^^^ b >>> 1 ^^^ poly = a >>> 1 ^^^ poly ^^^ b >>> 1
          rw [BitVec.xor_assoc, BitVec.xor_assoc, BitVec.xor_comm (b >>> 1)]
      | true =>
          change a >>> 1 ^^^ b >>> 1 = a >>> 1 ^^^ poly ^^^ (b >>> 1 ^^^ poly)
          rw [BitVec.xor_comm (b >>> 1) poly, BitVec.xor_assoc, ← BitVec.xor_assoc poly,
            BitVec.xor_self, BitVec.zero_xor]

theorem step_shiftLeft {x : BitVec w} (h : x.getLsbD (w - 1) = false) : step poly (x <<< 1) = x := by
  have hlow : (x <<< 1).getLsbD 0 = false := by simp
  unfold step
  rw [hlow, if_neg Bool.false_ne_true]
  apply BitVec.eq_of_getLsbD_eq
  intro i hi
  rw [BitVec.getLsbD_ushiftRight, BitVec.getLsbD_shiftLeft]
  by_cases hlast : i = w - 1
  · rw [hlast, h]
    simp [show ¬ 1 + (w - 1) < w by omega]
  · simp [show 1 + i < w by omega]

variable {poly}

theorem eq_zero_of_step {x : BitVec w} (hpoly : poly.getLsbD (w - 1) = true)
    (h : step poly x = 0#w) : x = 0#w := by
  unfold step at h
  cases hlow : x.getLsbD 0 with
  | true =>
      -- the highest bit is that of the polynomial
      rw [hlow, if_pos rfl] at h
      have hbit := congrArg (fun y : BitVec w => y.getLsbD (w - 1)) h
      have hw : 0 < w := Nat.pos_of_ne_zero (by rintro rfl; simp at hlow)
      rw [BitVec.getLsbD_xor, hpoly, BitVec.getLsbD_ushiftRight,
        BitVec.getLsbD_of_ge x (1 + (w - 1)) (by omega)] at hbit
      simp at hbit
  | false =>
      rw [hlow, if_neg Bool.false_ne_true] at h
      apply BitVec.eq_of_getLsbD_eq
      intro i hi
      cases i with
      | zero => rw [hlow, BitVec.getLsbD_zero]
      | succ i =>
          have hbit := congrArg (fun y : BitVec w => y.getLsbD i) h
          rw [BitVec.getLsbD_ushiftRight, BitVec.getLsbD_zero, Nat.add_comm] at hbit
          rw [hbit, BitVec.getLsbD_zero]

theorem step_injective (hpoly : poly.getLsbD (w - 1) = true) : Function.Injective (step poly) := by
  intro a b h
  have hxor : step poly (a ^^^ b) = 0#w := by rw [step_xor, h, BitVec.xor_self]
  exact BitVec.xor_eq_zero_iff.mp (eq_zero_of_step hpoly hxor)

/-! ### Texts -/

variable (poly)

theorem run_eq {bits : List Bool} (h : bits.length ≤ w) (s : BitVec w) :
    run poly s bits = (step poly)^[bits.length] (s ^^^ word bits) := by
  induction bits generalizing s with
  | nil => exact BitVec.xor_zero.symm
  | cons b bits ih =>
      rw [List.length_cons] at h
      have hhigh : (word bits : BitVec w).getLsbD (w - 1) = false := by
        rw [getLsbD_word, List.getD_eq_default _ _ (by omega), Bool.and_false]
      have hstep : step poly (s ^^^ word (b :: bits)) = step poly (s ^^^ bit b) ^^^ word bits := by
        rw [word, ← BitVec.xor_assoc, step_xor, step_shiftLeft poly hhigh]
      rw [List.length_cons, Function.iterate_succ_apply, hstep]
      exact ih (by omega) (step poly (s ^^^ bit b))

theorem run_append (s : BitVec w) (u v : List Bool) :
    run poly s (u ++ v) = run poly (run poly s u) v := List.foldl_append

variable {poly}

theorem run_injective (hpoly : poly.getLsbD (w - 1) = true) (bits : List Bool) :
    Function.Injective (fun s => run poly s bits) := by
  induction bits with
  | nil => exact fun _ _ h => h
  | cons b bits ih =>
      intro s s' h
      exact (BitVec.xor_left_inj (bit b)).mp (step_injective hpoly (ih h))

/-- **Bursts**: bits that differ in at most `w` places one behind the other leave different
registers. -/
theorem run_ne_of_burst (hpoly : poly.getLsbD (w - 1) = true) (s : BitVec w) (a z : List Bool)
    {u v : List Bool} (hlen : u.length = v.length) (hu : u.length ≤ w) (huv : u ≠ v) :
    run poly s (a ++ (u ++ z)) ≠ run poly s (a ++ (v ++ z)) := by
  intro h
  simp only [run_append] at h
  have hwords := run_injective hpoly z h
  rw [run_eq poly hu, run_eq poly (hlen.symm.trans_le hu), hlen] at hwords
  have hxor := (step_injective hpoly).iterate v.length hwords
  exact huv (word_inj hlen hu ((BitVec.xor_right_inj _).mp hxor))

/-- Texts of one length that differ in a window of `w` places only. -/
theorem run_ne_of_window (hpoly : poly.getLsbD (w - 1) = true) (s : BitVec w) {x y : List Bool}
    (hlen : x.length = y.length) (hne : x ≠ y) {a : ℕ}
    (hwindow : ∀ k, x.getD k false ≠ y.getD k false → a ≤ k ∧ k < a + w) :
    run poly s x ≠ run poly s y := by
  have hget : ∀ (k : ℕ) (hx : k < x.length) (hy : k < y.length), ¬ (a ≤ k ∧ k < a + w) →
      x[k] = y[k] := by
    intro k hx hy hout
    by_contra hk
    rw [← List.getD_eq_getElem x false hx, ← List.getD_eq_getElem y false hy] at hk
    exact hout (hwindow k hk)
  have hbefore : x.take a = y.take a := by
    refine List.ext_getElem (by simp [hlen]) (fun k hx hy => ?_)
    rw [List.length_take] at hx hy
    rw [List.getElem_take, List.getElem_take]
    exact hget k (by omega) (by omega) (by omega)
  have hbehind : (x.drop a).drop w = (y.drop a).drop w := by
    refine List.ext_getElem (by simp [hlen]) (fun k hx hy => ?_)
    rw [List.length_drop, List.length_drop] at hx hy
    rw [List.getElem_drop, List.getElem_drop, List.getElem_drop, List.getElem_drop]
    exact hget _ (by omega) (by omega) (by omega)
  have hsplit : ∀ l : List Bool, l = l.take a ++ ((l.drop a).take w ++ (l.drop a).drop w) := by
    intro l
    rw [List.take_append_drop, List.take_append_drop]
  rw [hsplit x, hsplit y, hbefore, hbehind]
  refine run_ne_of_burst hpoly s _ _ (by simp [hlen]) (List.length_take_le _ _) (fun hwin => hne ?_)
  rw [hsplit x, hsplit y, hbefore, hbehind, hwin]

/-- The register is cleared by its own bits, and by no others. -/
theorem run_eq_zero_iff (hpoly : poly.getLsbD (w - 1) = true) {s : BitVec w} {bits : List Bool}
    (h : bits.length ≤ w) : run poly s bits = 0#w ↔ s = word bits := by
  have hzero : (step poly)^[bits.length] 0#w = 0#w := Function.iterate_fixed (step_zero poly) _
  rw [run_eq poly h]
  constructor
  · intro hrun
    exact BitVec.xor_eq_zero_iff.mp
      ((step_injective hpoly).iterate bits.length (hrun.trans hzero.symm))
  · rintro rfl
    rw [BitVec.xor_self]
    exact hzero

/-! ### Highest bit first -/

/-- Take a bit out of a register that moves up. -/
def stepUp (poly s : BitVec w) : BitVec w := if s.msb then (s <<< 1) ^^^ poly else s <<< 1

theorem reverse_xor (a b : BitVec w) : (a ^^^ b).reverse = a.reverse ^^^ b.reverse := by
  apply BitVec.eq_of_getLsbD_eq
  intro i _
  rw [BitVec.getLsbD_xor, BitVec.getLsbD_reverse, BitVec.getLsbD_reverse, BitVec.getLsbD_reverse,
    BitVec.getMsbD_xor]

theorem reverse_shiftLeft_one (s : BitVec w) : (s <<< 1).reverse = s.reverse >>> 1 := by
  apply BitVec.eq_of_getLsbD_eq
  intro i hi
  rw [BitVec.getLsbD_reverse, BitVec.getLsbD_ushiftRight, BitVec.getLsbD_reverse,
    BitVec.getMsbD_shiftLeft, Nat.add_comm]

/-- The register that moves up, read backwards, moves down. -/
theorem reverse_stepUp (poly s : BitVec w) :
    (stepUp poly s).reverse = step poly.reverse s.reverse := by
  have hbit : s.reverse.getLsbD 0 = s.msb := by
    rw [BitVec.getLsbD_reverse, BitVec.msb]
  unfold stepUp step
  rw [hbit]
  cases s.msb with
  | false => exact reverse_shiftLeft_one s
  | true =>
      change (s <<< 1 ^^^ poly).reverse = s.reverse >>> 1 ^^^ poly.reverse
      rw [reverse_xor, reverse_shiftLeft_one]

theorem stepUp_xor (poly a b : BitVec w) :
    stepUp poly (a ^^^ b) = stepUp poly a ^^^ stepUp poly b := by
  have hrev : (stepUp poly (a ^^^ b)).reverse = (stepUp poly a ^^^ stepUp poly b).reverse := by
    rw [reverse_xor, reverse_stepUp, reverse_stepUp, reverse_stepUp, reverse_xor, step_xor]
  have htwice := congrArg BitVec.reverse hrev
  rwa [BitVec.reverse_reverse_eq, BitVec.reverse_reverse_eq] at htwice

theorem reverse_iterate_stepUp (poly : BitVec w) (n : ℕ) (s : BitVec w) :
    ((stepUp poly)^[n] s).reverse = (step poly.reverse)^[n] s.reverse := by
  induction n generalizing s with
  | zero => rfl
  | succ n ih => rw [Function.iterate_succ_apply, Function.iterate_succ_apply, ih, reverse_stepUp]

end Crc
