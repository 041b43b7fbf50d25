import IdcuIot.Lib.History
import Mathlib.Tactic

/-! # Reassembling a stream from reads

A *receiver* turns reads of a byte stream into events.  Its state keeps the bytes not yet
accounted for (`kept`) and lists the events delivered so far (`out`); `read` may fail
(`none`: the program has left its defined behaviour).

The stream carries a list of `valid` events `es`, each occupying the bytes `enc e`.  The
question is for which ways of cutting the stream into reads exactly the events `es` come
out.  `Lawful R enc valid inv good` reduces it to facts about one read, where `good s es c`
is a condition on the state before the read `c` when `es` are the events still to come:

* `grow`: the events delivered and the bytes kept never exceed the bytes that came in;
* `progress`: a good read delivers the next events and keeps the bytes in line;
* `loss`: a read that is not good fails, or drops a byte, or ends the stream too early.

A byte that was dropped can never be made up for (`run_grow`), so `delivers_iff`: the
events come out exactly when every read is good. -/

namespace Reassembly

open History

variable {σ γ β ε : Type*}

/-- A receiver with states `σ` and reads `γ` of bytes `β`, delivering events `ε`. -/
structure Receiver (σ γ β ε : Type*) where
  read : σ → γ → Option σ
  data : γ → List β
  kept : σ → List β
  out : σ → List ε

namespace Receiver

variable (R : Receiver σ γ β ε)

/-- Successive reads. -/
def run : σ → List γ → Option σ
  | s, [] => some s
  | s, c :: cs => (R.read s c).bind (fun s' => run s' cs)

/-- The bytes of a list of reads. -/
def received (cs : List γ) : List β := cs.flatMap R.data

/-- From `s`, every read `c` is good for the events that are still to come before it. -/
def EveryRead (good : σ → List ε → γ → Prop) (s : σ) (es : List ε) (cs : List γ) : Prop :=
  ∀ pre c post, cs = pre ++ c :: post → ∀ s', R.run s pre = some s' →
    good s' (es.drop ((R.out s').length - (R.out s).length)) c

@[simp] theorem run_nil (s : σ) : R.run s [] = some s := rfl

theorem run_cons (s : σ) (c : γ) (cs : List γ) :
    R.run s (c :: cs) = (R.read s c).bind (fun s' => R.run s' cs) := rfl

theorem run_cons_of_read {s s' : σ} {c : γ} (h : R.read s c = some s') (cs : List γ) :
    R.run s (c :: cs) = R.run s' cs := by simp [run_cons, h]

theorem run_append (s : σ) (cs cs' : List γ) :
    R.run s (cs ++ cs') = (R.run s cs).bind (fun s' => R.run s' cs') := by
  induction cs generalizing s with
  | nil => rfl
  | cons c cs ih =>
      simp only [List.cons_append, run_cons]
      cases R.read s c with
      | none => rfl
      | some s' => exact ih s'

@[simp] theorem received_nil : R.received [] = [] := rfl

@[simp] theorem received_cons (c : γ) (cs : List γ) :
    R.received (c :: cs) = R.data c ++ R.received cs := rfl

theorem received_append (cs cs' : List γ) :
    R.received (cs ++ cs') = R.received cs ++ R.received cs' := List.flatMap_append

end Receiver

/-- The bytes that carry the events `es`. -/
def stream (enc : ε → List β) (es : List ε) : List β := es.flatMap enc

@[simp] theorem stream_nil (enc : ε → List β) : stream enc [] = [] := rfl

@[simp] theorem stream_cons (enc : ε → List β) (e : ε) (es : List ε) :
    stream enc (e :: es) = enc e ++ stream enc es := rfl

theorem stream_append (enc : ε → List β) (es es' : List ε) :
    stream enc (es ++ es') = stream enc es ++ stream enc es' := by simp [stream]

theorem length_stream_take_le (enc : ε → List β) (es : List ε) (k : ℕ) :
    (stream enc (es.take k)).length ≤ (stream enc es).length := by
  conv_rhs => rw [← List.take_append_drop k es, stream_append, List.length_append]
  omega

/-! ### Events that have arrived -/

/-- Number of the events whose bytes lie wholly in the first `n` bytes of the stream. -/
def arrived (enc : ε → List β) : List ε → ℕ → ℕ
  | [], _ => 0
  | e :: es, n => if (enc e).length ≤ n then arrived enc es (n - (enc e).length) + 1 else 0

/-- Number of bytes of those events. -/
def settled (enc : ε → List β) (es : List ε) (n : ℕ) : ℕ :=
  (stream enc (es.take (arrived enc es n))).length

theorem settled_le (enc : ε → List β) : ∀ (es : List ε) (n : ℕ), settled enc es n ≤ n
  | [], n => by simp [settled]
  | e :: es, n => by
      have ih := settled_le enc es (n - (enc e).length)
      unfold settled at ih ⊢
      unfold arrived
      split_ifs with h
      · simp only [List.take_succ_cons, stream_cons, List.length_append]
        omega
      · simp

/-- The first event that has not arrived wholly does not fit in the first `n` bytes. -/
theorem lt_of_drop_arrived (enc : ε → List β) : ∀ (es : List ε) (n : ℕ) (e : ε) (es' : List ε),
    es.drop (arrived enc es n) = e :: es' → n < settled enc es n + (enc e).length
  | [], n, e, es', h => by simp at h
  | e₀ :: es, n, e, es', h => by
      unfold settled
      unfold arrived at h ⊢
      split_ifs at h ⊢ with hn
      · have ih := lt_of_drop_arrived enc es (n - (enc e₀).length) e es' h
        unfold settled at ih
        simp only [List.take_succ_cons, stream_cons, List.length_append]
        omega
      · obtain ⟨rfl, rfl⟩ := List.cons.inj h
        simp only [List.take_zero, stream_nil, List.length_nil]
        omega

theorem take_settled (enc : ε → List β) (es : List ε) (n : ℕ) :
    (stream enc es).take (settled enc es n) = stream enc (es.take (arrived enc es n)) := by
  conv_lhs => rw [← List.take_append_drop (arrived enc es n) es, stream_append]
  unfold settled
  rw [List.take_left']
  rw [List.take_append_drop]

theorem drop_settled (enc : ε → List β) (es : List ε) (n : ℕ) :
    (stream enc es).drop (settled enc es n) = stream enc (es.drop (arrived enc es n)) := by
  conv_lhs => rw [← List.take_append_drop (arrived enc es n) es, stream_append]
  unfold settled
  rw [List.drop_left']
  rw [List.take_append_drop]

theorem drop_arrived_of_le (enc : ε → List β) {es : List ε} {n : ℕ}
    (h : (stream enc es).length ≤ n) : es.drop (arrived enc es n) = [] := by
  cases hd : es.drop (arrived enc es n) with
  | nil => rfl
  | cons e es' =>
      have hlt := lt_of_drop_arrived enc es n e es' hd
      have hdrop := congrArg List.length (drop_settled enc es n)
      have hle : settled enc es n ≤ (stream enc es).length := length_stream_take_le enc es _
      rw [hd, List.length_drop, stream_cons, List.length_append] at hdrop
      omega

/-- The bytes received, `n` in number, of the first event that has not arrived wholly. -/
def pending (enc : ε → List β) (es : List ε) (n : ℕ) : List β :=
  ((stream enc es).take n).drop (settled enc es n)

theorem settled_add_pending (enc : ε → List β) {es : List ε} {n : ℕ}
    (h : n ≤ (stream enc es).length) : settled enc es n + (pending enc es n).length = n := by
  rw [pending, List.length_drop, List.length_take, Nat.min_eq_left h,
    Nat.add_sub_cancel' (settled_le enc es n)]

/-- The pending bytes and what is still to come carry the events that have not arrived. -/
theorem pending_append_rest (enc : ε → List β) {es : List ε} {l rest : List β}
    (h : l ++ rest = stream enc es) :
    pending enc es l.length ++ rest = stream enc (es.drop (arrived enc es l.length)) := by
  rw [pending, ← drop_settled, ← h, List.take_left,
    ← List.drop_append_of_le_length (settled_le enc es l.length)]

theorem arrived_of_forall_length (enc : ε → List β) {L : ℕ} (hL : 0 < L) : ∀ {es : List ε} {n : ℕ},
    (∀ e ∈ es, (enc e).length = L) → n ≤ (stream enc es).length → arrived enc es n = n / L
  | [], n, _, hn => by
      rw [stream_nil, List.length_nil, Nat.le_zero] at hn
      simp [arrived, hn]
  | e :: es, n, h, hn => by
      have he := h e List.mem_cons_self
      rw [stream_cons, List.length_append, he] at hn
      rw [arrived, he]
      split_ifs with hle
      · rw [arrived_of_forall_length enc hL (fun e' h' => h e' (List.mem_cons_of_mem e h'))
          (by omega), ← Nat.div_eq_sub_div hL hle]
      · exact (Nat.div_eq_of_lt (by omega)).symm

theorem length_stream_of_forall_length (enc : ε → List β) {L : ℕ} {es : List ε}
    (h : ∀ e ∈ es, (enc e).length = L) : (stream enc es).length = L * es.length := by
  induction es with
  | nil => rfl
  | cons e es ih =>
      rw [stream_cons, List.length_append, h e List.mem_cons_self,
        ih (fun e' h' => h e' (List.mem_cons_of_mem e h')), List.length_cons, Nat.mul_succ,
        Nat.add_comm]

theorem arrived_append (enc : ε → List β) (new es : List ε) (n : ℕ) :
    arrived enc (new ++ es) ((stream enc new).length + n) = new.length + arrived enc es n := by
  induction new with
  | nil => simp
  | cons e new ih =>
      simp only [List.cons_append, stream_cons, List.length_append, arrived, List.length_cons]
      rw [if_pos (by omega),
        show (enc e).length + (stream enc new).length + n - (enc e).length =
          (stream enc new).length + n by omega, ih]
      omega

theorem take_arrived_append (enc : ε → List β) (new es : List ε) (n : ℕ) :
    (new ++ es).take (arrived enc (new ++ es) ((stream enc new).length + n)) =
      new ++ es.take (arrived enc es n) := by
  rw [arrived_append, List.take_length_add_append]

theorem settled_append (enc : ε → List β) (new es : List ε) (n : ℕ) :
    settled enc (new ++ es) ((stream enc new).length + n) =
      (stream enc new).length + settled enc es n := by
  rw [settled, arrived_append, List.take_length_add_append, stream_append, List.length_append,
    settled]

theorem pending_append (enc : ε → List β) (new es : List ε) (n : ℕ) :
    pending enc (new ++ es) ((stream enc new).length + n) = pending enc es n := by
  rw [pending, settled_append, stream_append, List.take_length_add_append,
    List.drop_length_add_append, pending]

/-- What one read of a receiver has to satisfy; `inv` is an invariant of its states. -/
structure Lawful (R : Receiver σ γ β ε) (enc : ε → List β) (valid : ε → Prop)
    (inv : σ → Prop) (good : σ → List ε → γ → Prop) : Prop where
  inv_read : ∀ s c s', inv s → R.read s c = some s' → inv s'
  grow : ∀ s c s', inv s → R.read s c = some s' → ∃ new, R.out s' = R.out s ++ new ∧
    (stream enc new).length + (R.kept s').length ≤ (R.kept s).length + (R.data c).length
  progress : ∀ s es c rest, inv s → (∀ e ∈ es, valid e) → R.data c ≠ [] →
    R.kept s ++ (R.data c ++ rest) = stream enc es → good s es c →
    ∃ s' new es', R.read s c = some s' ∧ R.out s' = R.out s ++ new ∧ es = new ++ es' ∧
      R.kept s' ++ rest = stream enc es' ∧ (rest = [] → es' = [])
  loss : ∀ s es c rest, inv s → (∀ e ∈ es, valid e) → R.data c ≠ [] →
    R.kept s ++ (R.data c ++ rest) = stream enc es → ¬ good s es c →
    ∀ s' new, R.read s c = some s' → R.out s' = R.out s ++ new →
      (stream enc new).length + (R.kept s').length < (R.kept s).length + (R.data c).length ∨
        (rest = [] ∧ new ≠ es)

namespace Lawful

variable {R : Receiver σ γ β ε} {enc : ε → List β} {valid : ε → Prop} {inv : σ → Prop}
  {good : σ → List ε → γ → Prop}

/-- Over a whole run the events delivered and the bytes kept never exceed the bytes received. -/
theorem run_grow (L : Lawful R enc valid inv good) : ∀ (cs : List γ) (s s' : σ), inv s →
    R.run s cs = some s' → inv s' ∧ ∃ new, R.out s' = R.out s ++ new ∧
      (stream enc new).length + (R.kept s').length ≤ (R.kept s).length + (R.received cs).length
  | [], s, s', hs, h => by
      cases Option.some.inj h
      exact ⟨hs, [], by simp⟩
  | c :: cs, s, s', hs, h => by
      rw [R.run_cons] at h
      obtain ⟨s₁, h₁, h₂⟩ := Option.bind_eq_some_iff.mp h
      obtain ⟨new₁, ho₁, hl₁⟩ := L.grow s c s₁ hs h₁
      obtain ⟨hs', new₂, ho₂, hl₂⟩ := L.run_grow cs s₁ s' (L.inv_read s c s₁ hs h₁) h₂
      refine ⟨hs', new₁ ++ new₂, by rw [ho₂, ho₁, List.append_assoc], ?_⟩
      simp only [stream_append, List.length_append, R.received_cons]
      omega

theorem kept_eq_nil (L : Lawful R enc valid inv good) {cs : List γ} {s s' : σ} {es : List ε}
    (hs : inv s) (h : R.kept s ++ R.received cs = stream enc es) (hr : R.run s cs = some s')
    (ho : R.out s' = R.out s ++ es) : R.kept s' = [] := by
  obtain ⟨-, new, ho', hl⟩ := L.run_grow cs s s' hs hr
  have hlen := congrArg List.length h
  rw [ho] at ho'
  rw [← List.append_cancel_left ho', ← hlen, List.length_append] at hl
  exact List.length_eq_zero_iff.mp (by omega)

/-- In a run that delivers everything the events come out no sooner than their bytes come in. -/
theorem prompt (L : Lawful R enc valid inv good) {pre post : List γ} {s s₁ s' : σ} {es : List ε}
    (hs : inv s) (hk : R.kept s = []) (h : R.received (pre ++ post) = stream enc es)
    (h₁ : R.run s pre = some s₁) (h₂ : R.run s₁ post = some s') (ho : R.out s' = R.out s ++ es) :
    ∃ new, R.out s₁ = R.out s ++ new ∧ stream enc new <+: R.received pre := by
  obtain ⟨hs₁, new, ho₁, hl₁⟩ := L.run_grow pre s s₁ hs h₁
  obtain ⟨-, new', ho', -⟩ := L.run_grow post s₁ s' hs₁ h₂
  have hes : new ++ new' = es := by
    rw [ho', ho₁, List.append_assoc] at ho
    exact List.append_cancel_left ho
  have hnew : stream enc new <+: stream enc es := ⟨stream enc new', by rw [← stream_append, hes]⟩
  have hpre : R.received pre <+: stream enc es :=
    ⟨R.received post, by rw [← h, R.received_append]⟩
  refine ⟨new, ho₁, List.prefix_of_prefix_length_le hnew hpre ?_⟩
  rw [hk] at hl₁
  simp only [List.length_nil] at hl₁
  omega

theorem good_of_delivers (L : Lawful R enc valid inv good) {s s' : σ} {es : List ε} {c : γ}
    {cs : List γ} (hs : inv s) (hv : ∀ e ∈ es, valid e) (hc : R.data c ≠ [])
    (h : R.kept s ++ (R.data c ++ R.received cs) = stream enc es)
    (hcs : ∀ c ∈ cs, R.data c ≠ []) (hr : R.run s (c :: cs) = some s')
    (ho : R.out s' = R.out s ++ es) : good s es c := by
  by_contra hg
  rw [R.run_cons] at hr
  obtain ⟨s₁, h₁, h₂⟩ := Option.bind_eq_some_iff.mp hr
  obtain ⟨new₁, ho₁, -⟩ := L.grow s c s₁ hs h₁
  obtain ⟨-, new₂, ho₂, hl₂⟩ := L.run_grow cs s₁ s' (L.inv_read s c s₁ hs h₁) h₂
  have hes : new₁ ++ new₂ = es := by
    rw [ho₂, ho₁, List.append_assoc] at ho
    exact List.append_cancel_left ho
  rcases L.loss s es c _ hs hv hc h hg s₁ new₁ h₁ ho₁ with hlt | ⟨hrest, hne⟩
  · have hlen := congrArg List.length h
    simp only [← hes, stream_append, List.length_append] at hlen
    omega
  · cases cs with
    | nil =>
        cases Option.some.inj h₂
        have : new₂ = [] := List.self_eq_append_right.mp ho₂
        rw [this, List.append_nil] at hes
        exact hne hes
    | cons c' cs =>
        rw [R.received_cons] at hrest
        exact hcs c' List.mem_cons_self (List.append_eq_nil_iff.mp hrest).1

/-- Events still to come after `s'`, counted from an earlier state or from a later one. -/
theorem drop_out (L : Lawful R enc valid inv good) {s s₁ s' : σ} {new es : List ε} {cs : List γ}
    (hs₁ : inv s₁) (ho₁ : R.out s₁ = R.out s ++ new) (hr : R.run s₁ cs = some s') :
    (new ++ es).drop ((R.out s').length - (R.out s).length) =
      es.drop ((R.out s').length - (R.out s₁).length) := by
  obtain ⟨-, new', ho', -⟩ := L.run_grow cs s₁ s' hs₁ hr
  have e1 : (R.out s').length - (R.out s).length = new.length + new'.length := by
    simp only [ho', ho₁, List.length_append]
    omega
  have e2 : (R.out s').length - (R.out s₁).length = new'.length := by
    simp only [ho', List.length_append]
    omega
  rw [e1, e2, ← List.drop_drop, List.drop_left]

theorem everyRead_cons (L : Lawful R enc valid inv good) {s s₁ : σ} {new es : List ε} {c : γ}
    {cs : List γ} (hs₁ : inv s₁) (h₁ : R.read s c = some s₁) (ho₁ : R.out s₁ = R.out s ++ new) :
    R.EveryRead good s (new ++ es) (c :: cs) ↔
      good s (new ++ es) c ∧ R.EveryRead good s₁ es cs := by
  have hrest : ∀ pre c' post, cs = pre ++ c' :: post →
      ((∀ s', R.run s (c :: pre) = some s' →
        good s' ((new ++ es).drop ((R.out s').length - (R.out s).length)) c') ↔
      ∀ s', R.run s₁ pre = some s' →
        good s' (es.drop ((R.out s').length - (R.out s₁).length)) c') := by
    intro pre c' post _
    rw [R.run_cons_of_read h₁]
    exact forall₂_congr (fun s' hr => by rw [L.drop_out hs₁ ho₁ hr])
  unfold Receiver.EveryRead
  rw [forall_split_cons]
  refine and_congr (by simp) ?_
  exact forall₄_congr hrest

/-- **Delivery is decided read by read**: the events of the stream come out, in order and
each once, exactly when every read is good. -/
theorem delivers_iff (L : Lawful R enc valid inv good) : ∀ (cs : List γ) (s : σ) (es : List ε),
    inv s → (∀ e ∈ es, valid e) → (∀ c ∈ cs, R.data c ≠ []) →
    R.kept s ++ R.received cs = stream enc es → (cs = [] → es = []) →
    ((∃ s', R.run s cs = some s' ∧ R.out s' = R.out s ++ es) ↔ R.EveryRead good s es cs)
  | [], s, es, _, _, _, _, he =>
      iff_of_true ⟨s, rfl, by rw [he rfl, List.append_nil]⟩ forall_split_nil
  | c :: cs, s, es, hs, hv, hne, h, _ => by
      have hc := hne c List.mem_cons_self
      have hcs : ∀ c ∈ cs, R.data c ≠ [] := fun c' h' => hne c' (List.mem_cons_of_mem c h')
      rw [R.received_cons] at h
      by_cases hg : good s es c
      · obtain ⟨s₁, new, es', h₁, ho₁, rfl, hk, hfin⟩ := L.progress s es c _ hs hv hc h hg
        have hs₁ := L.inv_read s c s₁ hs h₁
        have ih := L.delivers_iff cs s₁ es' hs₁ (fun e he => hv e (List.mem_append_right _ he))
          hcs hk (fun hnil => hfin (by simp [hnil]))
        rw [L.everyRead_cons hs₁ h₁ ho₁, R.run_cons_of_read h₁, ← ih, ho₁]
        simp only [List.append_assoc, hg, true_and]
      · constructor
        · rintro ⟨s', hr, ho⟩
          exact absurd (L.good_of_delivers hs hv hc h hcs hr ho) hg
        · intro hev
          exact absurd (by simpa using hev [] c cs rfl s rfl) hg

/-- `delivers_iff` where it only matters how far a read reaches into the stream: the events
come out exactly when every read ends at a place that satisfies `reach`. -/
theorem delivers_iff_of_reach (L : Lawful R enc valid inv good) : ∀ (cs : List γ) (s : σ)
    (es : List ε) (reach : ℕ → Prop), inv s → (∀ e ∈ es, valid e) → (∀ c ∈ cs, R.data c ≠ []) →
    R.kept s ++ R.received cs = stream enc es → (cs = [] → es = []) →
    (∀ pre c post s' new es', cs = pre ++ c :: post → R.run s pre = some s' → inv s' →
      es = new ++ es' → R.kept s' ++ (R.data c ++ R.received post) = stream enc es' →
      (good s' es' c ↔
        reach ((stream enc new).length + (R.kept s').length + (R.data c).length))) →
    ((∃ s', R.run s cs = some s' ∧ R.out s' = R.out s ++ es) ↔
      ∀ pre c post, cs = pre ++ c :: post →
        reach ((R.kept s).length + (R.received (pre ++ [c])).length))
  | [], s, es, reach, _, _, _, _, he, _ =>
      iff_of_true ⟨s, rfl, by rw [he rfl, List.append_nil]⟩ forall_split_nil
  | c :: cs, s, es, reach, hs, hv, hne, h, _, hgood => by
      have hc := hne c List.mem_cons_self
      have hcs : ∀ c ∈ cs, R.data c ≠ [] := fun c' h' => hne c' (List.mem_cons_of_mem c h')
      have hfirst := hgood [] c cs s [] es rfl rfl hs rfl h
      simp only [stream_nil, List.length_nil, Nat.zero_add] at hfirst
      rw [R.received_cons] at h
      by_cases hg : good s es c
      · obtain ⟨s₁, new, es', h₁, ho₁, rfl, hk, hfin⟩ := L.progress s es c _ hs hv hc h hg
        have hs₁ := L.inv_read s c s₁ hs h₁
        have hlen : (stream enc new).length + (R.kept s₁).length =
            (R.kept s).length + (R.data c).length := by
          have := congrArg List.length h
          rw [stream_append, ← hk] at this
          simp only [List.length_append] at this
          omega
        have ih := L.delivers_iff_of_reach cs s₁ es' (fun n => reach ((stream enc new).length + n))
          hs₁ (fun e he => hv e (List.mem_append_right _ he)) hcs hk (fun hnil => hfin (by simp [hnil]))
          (by
            intro pre c' post s' new' es'' hpre hr hs' hes hk'
            have := hgood (c :: pre) c' post s' (new ++ new') es'' (by rw [hpre]; rfl)
              (by rwa [R.run_cons_of_read h₁]) hs' (by rw [hes, List.append_assoc]) hk'
            rwa [stream_append, List.length_append, Nat.add_assoc, Nat.add_assoc,
              ← Nat.add_assoc _ _ (R.data c').length] at this)
        -- the places behind the first read, counted from `s` and from `s₁`
        have hplaces : ∀ pre c' post, cs = pre ++ c' :: post →
            (reach ((stream enc new).length +
                ((R.kept s₁).length + (R.received (pre ++ [c'])).length)) ↔
              reach ((R.kept s).length + (R.received (c :: pre ++ [c'])).length)) := by
          intro pre c' post _
          rw [List.cons_append, R.received_cons, List.length_append, ← Nat.add_assoc, hlen,
            ← Nat.add_assoc]
        rw [R.run_cons_of_read h₁, ← List.append_assoc, ← ho₁, ih, forall_split_cons,
          forall₄_congr hplaces]
        exact (and_iff_right (by simpa using hfirst.mp hg)).symm
      · constructor
        · rintro ⟨s', hr, ho⟩
          exact absurd (L.good_of_delivers hs hv hc h hcs hr ho) hg
        · intro hall
          exact absurd (hfirst.mpr (by simpa using hall [] c cs rfl)) hg

end Lawful
end Reassembly
