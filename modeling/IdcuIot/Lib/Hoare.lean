import Mathlib.Tactic

/-! # Triples for state-passing programs

A program with states `σ` and results `α` is a `StateM σ α`.  `Triple P m Q` says that from
a state with `P` the program `m` ends with a result and a state that satisfy `Q`; `Keeps I m`
is the case of an invariant.  There is one rule for each way to put programs together.

`Simulates π m m'` says that `m` does on its states what `m'` does on what `π` makes of them; it
has the same rules. -/

namespace Hoare

variable {σ α β : Type}

/-- From `P` the program `m` ends in `Q`. -/
def Triple (P : σ → Prop) (m : StateM σ α) (Q : α → σ → Prop) : Prop :=
  ∀ s, P s → Q (m.run s).1 (m.run s).2

/-- The program `m` keeps the invariant `I`. -/
def Keeps (I : σ → Prop) (m : StateM σ α) : Prop := Triple I m (fun _ => I)

theorem Triple.pure {P : σ → Prop} {Q : α → σ → Prop} {a : α} (h : ∀ s, P s → Q a s) :
    Triple P (Pure.pure a) Q := h

theorem Triple.bind {P : σ → Prop} {m : StateM σ α} {Q : α → σ → Prop} {f : α → StateM σ β}
    {R : β → σ → Prop} (hm : Triple P m Q) (hf : ∀ a, Triple (Q a) (f a) R) :
    Triple P (m >>= f) R := fun s hs => hf _ _ (hm s hs)

theorem Triple.ite {P : σ → Prop} {c : Prop} [Decidable c] {m m' : StateM σ α}
    {Q : α → σ → Prop} (hm : c → Triple P m Q) (hm' : ¬ c → Triple P m' Q) :
    Triple P (if c then m else m') Q := by
  split_ifs with h
  · exact hm h
  · exact hm' h

theorem Triple.get {P : σ → Prop} : Triple P (get : StateM σ σ) (fun a s => a = s ∧ P s) :=
  fun _ h => ⟨rfl, h⟩

theorem Triple.modify {P : σ → Prop} {f : σ → σ} {Q : σ → Prop} (h : ∀ s, P s → Q (f s)) :
    Triple P (modify f) (fun _ => Q) := h

variable {I : σ → Prop}

theorem Keeps.pure (a : α) : Keeps I (Pure.pure a) := Triple.pure fun _ h => h

theorem Keeps.bind {m : StateM σ α} {f : α → StateM σ β} (hm : Keeps I m)
    (hf : ∀ a, Keeps I (f a)) : Keeps I (m >>= f) := Triple.bind hm hf

theorem Keeps.ite {c : Prop} [Decidable c] {m m' : StateM σ α} (hm : Keeps I m)
    (hm' : Keeps I m') : Keeps I (if c then m else m') :=
  Triple.ite (fun _ => hm) (fun _ => hm')

theorem Keeps.get : Keeps I (get : StateM σ σ) := fun _ h => h

theorem Keeps.modify {f : σ → σ} (h : ∀ s, I s → I (f s)) : Keeps I (modify f) :=
  Triple.modify h

/-! ### Simulation -/

variable {τ : Type}

/-- The results of `m` and `m'` are the same, and `π` takes the states of `m` to those of `m'`. -/
def Simulates (π : σ → τ) (m : StateM σ α) (m' : StateM τ α) : Prop :=
  ∀ s, (m.run s).1 = (m'.run (π s)).1 ∧ π (m.run s).2 = (m'.run (π s)).2

variable {π : σ → τ}

theorem Simulates.pure (a : α) : Simulates π (Pure.pure a) (Pure.pure a) := fun _ => ⟨rfl, rfl⟩

theorem Simulates.bind {m : StateM σ α} {m' : StateM τ α} {f : α → StateM σ β}
    {f' : α → StateM τ β} (hm : Simulates π m m') (hf : ∀ a, Simulates π (f a) (f' a)) :
    Simulates π (m >>= f) (m' >>= f') := by
  intro s
  obtain ⟨hresult, hstate⟩ := hm s
  have hrest := hf (m.run s).1 (m.run s).2
  rw [hstate] at hrest
  have hrun : (m' >>= f').run (π s) = (f' (m'.run (π s)).1).run (m'.run (π s)).2 := rfl
  rw [hrun, ← hresult]
  exact hrest

theorem Simulates.ite {c : Prop} [Decidable c] {m n : StateM σ α} {m' n' : StateM τ α}
    (hm : Simulates π m m') (hn : Simulates π n n') :
    Simulates π (if c then m else n) (if c then m' else n') := by
  split_ifs
  · exact hm
  · exact hn

end Hoare
