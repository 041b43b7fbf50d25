import Mathlib.Tactic

/-! # Scanning a buffer for frames

The loop `for( i = 0; i < len; i++ ) …` of a frame scanner.  At each index a *probe* says
what lies there: nothing (`pass`), a frame of `size` bytes after which the index moves
`step` bytes on (`hit`), or a reason to return at once (`halt`).  `loop` runs the body
`onHit` at every hit; the frames it cuts are intervals of the buffer (`Cut`).

`Scans probe len i cs h` is the same computation as a relation: from index `i` the cuts
are `cs`, and `h` tells whether the scan halted.  `loop_eq` connects the two, so that
proofs are inductions over the relation and never mention fuel.  `Scans.sum_size_le` is
the accounting law: the cuts are disjoint and in order, so their sizes add up to at most
the end of the last one (`lastStop`). -/

namespace Scan

/-- What a scanner finds at one index. -/
inductive Probe where
  | pass
  | hit (size step : ℕ)
  | halt
deriving DecidableEq, Repr

/-- A frame of `size` bytes found at index `start`. -/
structure Cut where
  start : ℕ
  size : ℕ
deriving DecidableEq, Repr

/-- First index after the frame. -/
def Cut.stop (c : Cut) : ℕ := c.start + c.size

variable {σ : Type*}

/-- The scanning loop from index `i`. -/
def loop (probe : ℕ → Probe) (onHit : Cut → σ → σ) (len : ℕ) : ℕ → ℕ → σ → σ × Bool
  | 0, _, s => (s, false)
  | fuel + 1, i, s =>
      if i < len then
        match probe i with
        | .pass => loop probe onHit len fuel (i + 1) s
        | .hit size step => loop probe onHit len fuel (i + step) (onHit ⟨i, size⟩ s)
        | .halt => (s, true)
      else (s, false)

/-- The scan of a whole buffer of `len` bytes; `true` when it returned early. -/
def run (probe : ℕ → Probe) (onHit : Cut → σ → σ) (len : ℕ) (s : σ) : σ × Bool :=
  loop probe onHit len len 0 s

/-- Every frame has a byte, and the index never moves back into the frame. -/
def Advances (probe : ℕ → Probe) : Prop :=
  ∀ i size step, probe i = .hit size step → 1 ≤ size ∧ size ≤ step

/-! ### The scan as a relation -/

/-- From index `i` the scan cuts `cs`; the flag tells whether it halted. -/
inductive Scans (probe : ℕ → Probe) (len : ℕ) : ℕ → List Cut → Bool → Prop
  | done {i : ℕ} : len ≤ i → Scans probe len i [] false
  | pass {i : ℕ} {cs : List Cut} {h : Bool} : i < len → probe i = .pass →
      Scans probe len (i + 1) cs h → Scans probe len i cs h
  | hit {i size step : ℕ} {cs : List Cut} {h : Bool} : i < len → probe i = .hit size step →
      Scans probe len (i + step) cs h → Scans probe len i (⟨i, size⟩ :: cs) h
  | halt {i : ℕ} : i < len → probe i = .halt → Scans probe len i [] true

variable {probe : ℕ → Probe} {len : ℕ}

theorem exists_scans (adv : Advances probe) : ∀ (d i : ℕ), len ≤ i + d →
    ∃ cs h, Scans probe len i cs h
  | 0, i, hd => ⟨[], false, .done (by omega)⟩
  | d + 1, i, hd => by
      rcases Nat.lt_or_ge i len with hi | hi
      · cases hp : probe i with
        | pass =>
            obtain ⟨cs, h, hs⟩ := exists_scans adv d (i + 1) (by omega)
            exact ⟨cs, h, .pass hi hp hs⟩
        | hit size step =>
            have hadv := adv i size step hp
            obtain ⟨cs, h, hs⟩ := exists_scans adv d (i + step) (by omega)
            exact ⟨_, h, .hit hi hp hs⟩
        | halt => exact ⟨[], true, .halt hi hp⟩
      · exact ⟨[], false, .done hi⟩

theorem exists_scan (adv : Advances probe) (len i : ℕ) : ∃ cs h, Scans probe len i cs h :=
  exists_scans adv len i (by omega)

theorem Scans.unique {i : ℕ} {cs cs' : List Cut} {h h' : Bool} (hs : Scans probe len i cs h)
    (hs' : Scans probe len i cs' h') : cs = cs' ∧ h = h' := by
  induction hs generalizing cs' h' with
  | done hi =>
      cases hs' with
      | done => exact ⟨rfl, rfl⟩
      | pass hi' | hit hi' | halt hi' => omega
  | pass hi hp _ ih =>
      cases hs' with
      | done hi' => omega
      | pass _ _ hs' => exact ih hs'
      | hit _ hp' | halt _ hp' => rw [hp] at hp'; cases hp'
  | hit hi hp _ ih =>
      cases hs' with
      | done hi' => omega
      | hit _ hp' hs' =>
          rw [hp] at hp'
          cases hp'
          obtain ⟨rfl, rfl⟩ := ih hs'
          exact ⟨rfl, rfl⟩
      | pass _ hp' | halt _ hp' => rw [hp] at hp'; cases hp'
  | halt hi hp =>
      cases hs' with
      | done hi' => omega
      | pass _ hp' | hit _ hp' => rw [hp] at hp'; cases hp'
      | halt => exact ⟨rfl, rfl⟩

theorem loop_of_scans (adv : Advances probe) (onHit : Cut → σ → σ) {i : ℕ} {cs : List Cut}
    {h : Bool} (hs : Scans probe len i cs h) : ∀ {fuel : ℕ}, len ≤ i + fuel → ∀ s : σ,
    loop probe onHit len fuel i s = (cs.foldl (fun s c => onHit c s) s, h) := by
  induction hs with
  | done hi =>
      intro fuel _ s
      cases fuel with
      | zero => rfl
      | succ fuel => simp [loop, Nat.not_lt.mpr hi]
  | pass hi hp _ ih =>
      intro fuel hf s
      cases fuel with
      | zero => omega
      | succ fuel => simpa only [loop, if_pos hi, hp] using ih (by omega) s
  | hit hi hp _ ih =>
      intro fuel hf s
      have hadv := adv _ _ _ hp
      cases fuel with
      | zero => omega
      | succ fuel => simpa only [loop, if_pos hi, hp, List.foldl_cons] using ih (by omega) _
  | halt hi hp =>
      intro fuel hf s
      cases fuel with
      | zero => omega
      | succ fuel => simp [loop, if_pos hi, hp]

theorem run_eq (adv : Advances probe) (onHit : Cut → σ → σ) {cs : List Cut} {h : Bool}
    (hs : Scans probe len 0 cs h) (s : σ) :
    run probe onHit len s = (cs.foldl (fun s c => onHit c s) s, h) :=
  loop_of_scans adv onHit hs (by omega) s

theorem loop_snoc (adv : Advances probe) {i : ℕ} {cs : List Cut} {h : Bool}
    (hs : Scans probe len i cs h) :
    loop probe (fun c cs => cs ++ [c]) len len i [] = (cs, h) := by
  have hfold : ∀ cs cs' : List Cut, cs.foldl (fun cs c => cs ++ [c]) cs' = cs' ++ cs := by
    intro cs
    induction cs with
    | nil => simp
    | cons c cs ih =>
        intro cs'
        rw [List.foldl_cons, ih, List.append_assoc, List.singleton_append]
  rw [loop_of_scans adv _ hs (by omega), hfold, List.nil_append]

/-! ### Where the cuts lie -/

/-- End of the last cut, `d` when there is none. -/
def lastStop : ℕ → List Cut → ℕ
  | d, [] => d
  | _, c :: cs => lastStop c.stop cs

@[simp] theorem lastStop_nil (d : ℕ) : lastStop d [] = d := rfl

@[simp] theorem lastStop_cons (d : ℕ) (c : Cut) (cs : List Cut) :
    lastStop d (c :: cs) = lastStop c.stop cs := rfl

theorem lastStop_append (d : ℕ) (cs cs' : List Cut) :
    lastStop d (cs ++ cs') = lastStop (lastStop d cs) cs' := by
  induction cs generalizing d with
  | nil => rfl
  | cons c cs ih => exact ih c.stop

theorem lastStop_of_ne_nil (d d' : ℕ) {cs : List Cut} (h : cs ≠ []) :
    lastStop d cs = lastStop d' cs := by
  cases cs with
  | nil => exact absurd rfl h
  | cons c cs => rfl

theorem lastStop_le_of_forall {n d : ℕ} {cs : List Cut} (h : ∀ c ∈ cs, c.stop ≤ n) (hd : d ≤ n) :
    lastStop d cs ≤ n := by
  induction cs generalizing d with
  | nil => exact hd
  | cons c cs ih =>
      exact ih (fun c' hc' => h c' (List.mem_cons_of_mem c hc')) (h c List.mem_cons_self)

/-- Total number of bytes in the cuts. -/
def sumSize (cs : List Cut) : ℕ := (cs.map Cut.size).sum

@[simp] theorem sumSize_nil : sumSize [] = 0 := rfl

@[simp] theorem sumSize_cons (c : Cut) (cs : List Cut) : sumSize (c :: cs) = c.size + sumSize cs := by
  simp [sumSize]

/-- **Accounting**: the cuts are disjoint and lie after the start of the scan. -/
theorem Scans.sum_size_le (adv : Advances probe) {i : ℕ} {cs : List Cut} {h : Bool}
    (hs : Scans probe len i cs h) : i + sumSize cs ≤ lastStop i cs := by
  induction hs with
  | done | halt => simp
  | @pass i cs h hi hp _ ih =>
      by_cases hn : cs = []
      · simp [hn]
      · rw [lastStop_of_ne_nil i (i + 1) hn]
        omega
  | @hit i size step cs h hi hp _ ih =>
      have hadv := adv _ _ _ hp
      simp only [lastStop_cons, sumSize_cons, Cut.stop]
      by_cases hn : cs = []
      · simp [hn]
      · rw [lastStop_of_ne_nil (i + size) (i + step) hn]
        omega

/-- A scan that skipped a byte before its first cut accounts for fewer bytes than it passed. -/
theorem Scans.sum_size_lt (adv : Advances probe) {i : ℕ} {cs : List Cut} {h : Bool}
    (hs : Scans probe len (i + 1) cs h) (hn : cs ≠ []) : i + sumSize cs < lastStop i cs := by
  have := hs.sum_size_le adv
  rw [lastStop_of_ne_nil (i + 1) i hn] at this
  omega

theorem scans_of_pass : ∀ (d i : ℕ), len ≤ i + d → (∀ j, i ≤ j → j < len → probe j = .pass) →
    Scans probe len i [] false
  | 0, i, hd, _ => .done (by omega)
  | d + 1, i, hd, hp => by
      rcases Nat.lt_or_ge i len with hi | hi
      · exact .pass hi (hp i le_rfl hi)
          (scans_of_pass d (i + 1) (by omega) (fun j hj => hp j (by omega)))
      · exact .done hi

/-- Conversely, a scan that cuts nothing and does not halt passes everywhere. -/
theorem Scans.pass_of_nil {i : ℕ} (hs : Scans probe len i [] false) :
    ∀ j, i ≤ j → j < len → probe j = .pass := by
  generalize hc : ([] : List Cut) = cs at hs
  generalize hb : false = b at hs
  induction hs with
  | done hi => intro j h1 h2; omega
  | @pass i cs h hi hp _ ih =>
      intro j h1 h2
      rcases Nat.eq_or_lt_of_le h1 with rfl | h1
      · exact hp
      · exact ih hc hb j h1 h2
  | hit => cases hc
  | halt => cases hb

theorem Scans.of_pass {k : ℕ} {cs : List Cut} {h : Bool} (hs : Scans probe len k cs h)
    (hk : k ≤ len) : ∀ {i : ℕ}, i ≤ k → (∀ j, i ≤ j → j < k → probe j = .pass) →
    Scans probe len i cs h := by
  refine fun {i} hi => Nat.decreasingInduction' (P := fun i =>
    (∀ j, i ≤ j → j < k → probe j = .pass) → Scans probe len i cs h) ?_ hi (fun _ => hs)
  intro j hjk _ ih hpass
  exact .pass (by omega) (hpass j le_rfl hjk) (ih (fun l hl => hpass l (by omega)))

/-- Where frames are skipped whole, a scan passes everywhere behind its last cut. -/
theorem Scans.pass_of_lastStop (heq : ∀ i size step, probe i = .hit size step → step = size)
    {i : ℕ} {cs : List Cut} (hs : Scans probe len i cs false) :
    ∀ j, lastStop i cs ≤ j → j < len → probe j = .pass := by
  generalize hb : false = b at hs
  induction hs with
  | done hi => exact fun j hle hj => absurd (hi.trans hle) (Nat.not_le.mpr hj)
  | @pass i cs h hi hp _ ih =>
      intro j hle hj
      by_cases hn : cs = []
      · subst hn
        rcases Nat.eq_or_lt_of_le (show i ≤ j from hle) with rfl | hlt
        · exact hp
        · exact ih hb j hlt hj
      · rw [lastStop_of_ne_nil i (i + 1) hn] at hle
        exact ih hb j hle hj
  | hit hi hp _ ih =>
      obtain rfl := heq _ _ _ hp
      exact ih hb
  | halt => cases hb

theorem Scans.sumSize_lt_of_halt (adv : Advances probe) {i : ℕ} {cs : List Cut}
    (hs : Scans probe len i cs true) : i + sumSize cs < len := by
  generalize hb : true = b at hs
  induction hs with
  | done => cases hb
  | pass hi hp _ ih =>
      have := ih hb
      omega
  | hit hi hp _ ih =>
      have hadv := adv _ _ _ hp
      have := ih hb
      rw [sumSize_cons]
      dsimp only
      omega
  | halt hi hp => simpa using hi

theorem Scans.not_halted (hp : ∀ i, probe i ≠ .halt) {i : ℕ} {cs : List Cut} {h : Bool}
    (hs : Scans probe len i cs h) : h = false := by
  induction hs with
  | done => rfl
  | pass _ _ _ ih | hit _ _ _ ih => exact ih
  | halt _ h => exact absurd h (hp _)

theorem exists_scan_of_ne_halt (adv : Advances probe) (hp : ∀ i, probe i ≠ .halt) (len i : ℕ) :
    ∃ cs, Scans probe len i cs false := by
  obtain ⟨cs, h, hs⟩ := exists_scan adv len i
  obtain rfl := hs.not_halted hp
  exact ⟨cs, hs⟩

theorem Scans.stop_le_lastStop (adv : Advances probe) {i : ℕ} {cs : List Cut} {h : Bool}
    (hs : Scans probe len i cs h) : ∀ c ∈ cs, c.stop ≤ lastStop i cs := by
  induction hs with
  | done | halt => intro c hc; cases hc
  | @pass i cs h hi hp _ ih =>
      intro c hc
      rw [lastStop_of_ne_nil i (i + 1) (List.ne_nil_of_mem hc)]
      exact ih c hc
  | @hit i size step cs h hi hp hs ih =>
      intro c hc
      have hadv := adv _ _ _ hp
      rw [lastStop_cons, Cut.stop]
      by_cases hn : cs = []
      · subst hn
        rw [List.mem_singleton.mp hc, lastStop_nil, Cut.stop]
      · rw [lastStop_of_ne_nil _ (i + step) hn]
        rcases List.mem_cons.mp hc with rfl | hc
        · have := hs.sum_size_le adv
          change i + size ≤ lastStop (i + step) cs
          omega
        · exact ih c hc

theorem Scans.hit_of_mem {i : ℕ} {cs : List Cut} {h : Bool} (hs : Scans probe len i cs h) :
    ∀ c ∈ cs, i ≤ c.start ∧ c.start < len ∧ ∃ step, probe c.start = .hit c.size step := by
  induction hs with
  | done | halt => intro c hc; cases hc
  | pass hi hp _ ih =>
      intro c hc
      obtain ⟨h1, h2⟩ := ih c hc
      exact ⟨by omega, h2⟩
  | hit hi hp _ ih =>
      intro c hc
      rcases List.mem_cons.mp hc with rfl | hc
      · exact ⟨le_rfl, hi, _, hp⟩
      · obtain ⟨h1, h2⟩ := ih c hc
        exact ⟨by omega, h2⟩

/-- When every frame that begins before `k` reaches beyond `k`, and yet a frame is cut at `k`, no
frame begins before `k`. -/
theorem Scans.pass_of_start_mem {k : ℕ}
    (hover : ∀ i size step, i < k → probe i = .hit size step → k < i + step) {i : ℕ}
    {cs : List Cut} {h : Bool} (hs : Scans probe len i cs h) (hk : k ∈ cs.map Cut.start) :
    ∀ j, i ≤ j → j < k → probe j = .pass := by
  induction hs with
  | done | halt => cases hk
  | @pass i cs h hi hp _ ih =>
      intro j hij hjk
      rcases Nat.eq_or_lt_of_le hij with rfl | hlt
      · exact hp
      · exact ih hk j hlt hjk
  | @hit i size step cs h hi hp hs _ =>
      intro j hij hjk
      -- the frames behind the one at `i` begin beyond `k`
      have hbeyond := hover i size step (by omega) hp
      rcases List.mem_cons.mp hk with rfl | hk
      · omega
      · obtain ⟨c, hc, rfl⟩ := List.mem_map.mp hk
        have := (hs.hit_of_mem c hc).1
        omega

theorem Scans.pass_of_le_start {k : ℕ} {i : ℕ} {cs : List Cut} (hs : Scans probe len i cs false)
    (hk : k ≤ len) (h : ∀ c ∈ cs, k ≤ c.start) : ∀ j, i ≤ j → j < k → probe j = .pass := by
  generalize hb : false = b at hs
  induction hs with
  | done hi => intro j hij hjk; omega
  | @pass i cs h hi hp _ ih =>
      intro j hij hjk
      rcases Nat.eq_or_lt_of_le hij with rfl | hlt
      · exact hp
      · exact ih h hb j hlt hjk
  | @hit i size step cs h hi hp hs _ =>
      intro j hij hjk
      have := h ⟨i, size⟩ List.mem_cons_self
      simp only at this
      omega
  | halt => cases hb

/-- A frame moved `k` bytes to the front. -/
def Cut.back (k : ℕ) (c : Cut) : Cut := ⟨c.start - k, c.size⟩

/-- A scan from `k` on, all of whose frames lie in the buffer, is a scan of the bytes from `k` on,
if the frames found there are the same. -/
theorem Scans.back {probe' : ℕ → Probe} {k n : ℕ}
    (hpass : ∀ i, i < n → probe (k + i) = .pass → probe' i = .pass)
    (hhit : ∀ i size step, probe (k + i) = .hit size step → k + i + size ≤ k + n →
      probe' i = .hit size step) {j : ℕ} {cs : List Cut} (hs : Scans probe (k + n) j cs false)
    (hin : ∀ c ∈ cs, c.stop ≤ k + n) : ∀ i, j = k + i → Scans probe' n i (cs.map (Cut.back k)) false := by
  generalize hb : false = b at hs
  induction hs with
  | done hi =>
      rintro i rfl
      exact .done (by omega)
  | pass hi hp _ ih =>
      rintro i rfl
      exact .pass (by omega) (hpass i (by omega) hp) (ih hin hb (i + 1) rfl)
  | @hit j size step cs h hi hp _ ih =>
      rintro i rfl
      obtain ⟨hfirst, hin⟩ := List.forall_mem_cons.mp hin
      have hfront : Cut.back k ⟨k + i, size⟩ = ⟨i, size⟩ := by
        unfold Cut.back
        rw [Nat.add_sub_cancel_left]
      rw [List.map_cons, hfront]
      exact .hit (by omega) (hhit i size step hp hfirst)
        (ih hin hb (i + step) (Nat.add_assoc k i step))
  | halt => cases hb

/-! ### The indices a scan looks at -/

/-- From index `i` the scan comes to index `j`. -/
inductive Visits (probe : ℕ → Probe) (len : ℕ) : ℕ → ℕ → Prop
  | here {i : ℕ} : i < len → Visits probe len i i
  | pass {i j : ℕ} : i < len → probe i = .pass → Visits probe len (i + 1) j → Visits probe len i j
  | hit {i j size step : ℕ} : i < len → probe i = .hit size step →
      Visits probe len (i + step) j → Visits probe len i j

theorem Visits.lt {i j : ℕ} (h : Visits probe len i j) : j < len := by
  induction h with
  | here hi => exact hi
  | pass _ _ _ ih | hit _ _ _ ih => exact ih

theorem Scans.visits_of_mem {i : ℕ} {cs : List Cut} {h : Bool} (hs : Scans probe len i cs h) :
    ∀ c ∈ cs, Visits probe len i c.start ∧ ∃ step, probe c.start = .hit c.size step := by
  induction hs with
  | done | halt => intro c hc; cases hc
  | pass hi hp _ ih =>
      intro c hc
      obtain ⟨hvisits, hhit⟩ := ih c hc
      exact ⟨.pass hi hp hvisits, hhit⟩
  | hit hi hp _ ih =>
      intro c hc
      rcases List.mem_cons.mp hc with rfl | hc
      · exact ⟨.here hi, _, hp⟩
      · obtain ⟨hvisits, hhit⟩ := ih c hc
        exact ⟨.hit hi hp hvisits, hhit⟩

theorem Visits.mem_of_hit {i j size step : ℕ} (hv : Visits probe len i j)
    (hp : probe j = .hit size step) {cs : List Cut} {h : Bool} (hs : Scans probe len i cs h) :
    ⟨j, size⟩ ∈ cs := by
  induction hv generalizing cs h with
  | here hi =>
      cases hs with
      | done hi' => omega
      | pass _ hp' | halt _ hp' => rw [hp] at hp'; cases hp'
      | hit _ hp' _ =>
          rw [hp] at hp'
          cases hp'
          exact List.mem_cons_self
  | pass hi hpass _ ih =>
      cases hs with
      | done hi' => omega
      | pass _ _ hs => exact ih hp hs
      | hit _ hp' | halt _ hp' => rw [hpass] at hp'; cases hp'
  | hit hi hhit _ ih =>
      cases hs with
      | done hi' => omega
      | hit _ hp' hs =>
          rw [hhit] at hp'
          cases hp'
          exact List.mem_cons_of_mem _ (ih hp hs)
      | pass _ hp' | halt _ hp' => rw [hhit] at hp'; cases hp'

/-- A scan depends on what is found at the indices it comes to alone. -/
theorem Scans.congr {probe' : ℕ → Probe} {i : ℕ} {cs : List Cut} {h : Bool}
    (hs : Scans probe len i cs h) (heq : ∀ j, Visits probe len i j → probe' j = probe j) :
    Scans probe' len i cs h := by
  induction hs with
  | done hi => exact .done hi
  | pass hi hp _ ih =>
      exact .pass hi ((heq _ (.here hi)).trans hp) (ih (fun j hj => heq j (.pass hi hp hj)))
  | hit hi hp _ ih =>
      exact .hit hi ((heq _ (.here hi)).trans hp) (ih (fun j hj => heq j (.hit hi hp hj)))
  | halt hi hp => exact .halt hi ((heq _ (.here hi)).trans hp)

theorem Scans.pairwise (adv : Advances probe) {i : ℕ} {cs : List Cut} {h : Bool}
    (hs : Scans probe len i cs h) : cs.Pairwise (fun c c' => c.stop ≤ c'.start) := by
  induction hs with
  | done | halt => exact .nil
  | pass _ _ _ ih => exact ih
  | @hit i size step cs h hi hp hs ih =>
      have hadv := adv _ _ _ hp
      refine .cons (fun c hc => ?_) ih
      have := (hs.hit_of_mem c hc).1
      simp only [Cut.stop]
      omega

/-! ### Adjacent frames -/

/-- Frames of the given sizes, one right after the other. -/
def tiles : ℕ → List ℕ → List Cut
  | _, [] => []
  | i, n :: ns => ⟨i, n⟩ :: tiles (i + n) ns

theorem lastStop_tiles (i : ℕ) (ns : List ℕ) : lastStop i (tiles i ns) = i + ns.sum := by
  induction ns generalizing i with
  | nil => simp [tiles]
  | cons n ns ih => simp [tiles, ih, Cut.stop, Nat.add_assoc]

end Scan
