import IdcuIot.Etri

/-! # What the result of a registration says

`ETRI_Registration` and `ETRI_Deregistration` send a list of messages and stop at the first
one that fails; `attempts` is the list of the calls of `sender` that this makes.  A procedure
that `Performs` a list of messages makes just these calls, and its result depends only on
whether all of them succeed.

The transducers break the pattern in two places.  Without rows the registration returns a
variable that was never assigned.  In the deregistration the `-1` of a failed transducer is
kept in 16 bits without a sign, so that `ETRI_Deregistration` does not see it. -/

namespace IdcuIot.Etri

open TcpSocket

variable (sys : System)

/-! ### A list of messages -/

/-- The calls of `sender` for a list of messages, the first one being the `k`-th call. -/
def attempts : List Packet → ℕ → List Step
  | [], _ => []
  | p :: ps, k => ⟨p, sys.answers k, sender (sys.answers k)⟩ ::
      if sender (sys.answers k) = 0 then attempts ps (k + 1) else []

/-- The `n` calls of `sender` from the `k`-th on return `0`. -/
def Succeed (k n : ℕ) : Prop := ∀ i < n, sender (sys.answers (k + i)) = 0

variable {sys}

theorem sender_eq (a : Answer) : sender a = 0 ∨ sender a = -1 := by
  by_cases h : sender a = 0
  · exact Or.inl h
  · rw [sender_eq_zero_iff] at h
    simp only [sender, receive_eq]
    split_ifs <;> simp_all

theorem sender_ne_zero {a : Answer} (h : sender a ≠ 0) : sender a = -1 :=
  (sender_eq a).resolve_left h

theorem succeed_zero (k : ℕ) : Succeed sys k 0 := fun _ hi => absurd hi (Nat.not_lt_zero _)

theorem succeed_one (k : ℕ) : Succeed sys k 1 ↔ sender (sys.answers k) = 0 :=
  ⟨fun h => h 0 Nat.one_pos, fun h i hi => by rwa [Nat.lt_one_iff.mp hi]⟩

theorem succeed_add (k m n : ℕ) :
    Succeed sys k (m + n) ↔ Succeed sys k m ∧ Succeed sys (k + m) n := by
  constructor
  · intro h
    refine ⟨fun i hi => h i (by omega), fun i hi => ?_⟩
    rw [Nat.add_assoc]
    exact h (m + i) (by omega)
  · rintro ⟨hm, hn⟩ i hi
    by_cases him : i < m
    · exact hm i him
    · have := hn (i - m) (by omega)
      rwa [Nat.add_assoc, Nat.add_sub_cancel' (by omega)] at this

theorem succeed_succ (k n : ℕ) :
    Succeed sys k (n + 1) ↔ sender (sys.answers k) = 0 ∧ Succeed sys (k + 1) n := by
  rw [Nat.add_comm n, succeed_add, succeed_one]

theorem attempts_length {ps : List Packet} {k : ℕ} (h : Succeed sys k ps.length) :
    (attempts sys ps k).length = ps.length := by
  induction ps generalizing k with
  | nil => rfl
  | cons p ps ih =>
      obtain ⟨hp, hps⟩ := (succeed_succ k ps.length).mp h
      rw [attempts, if_pos hp, List.length_cons, ih hps, List.length_cons]

theorem attempts_append {ps qs : List Packet} {k : ℕ} (h : Succeed sys k ps.length) :
    attempts sys (ps ++ qs) k = attempts sys ps k ++ attempts sys qs (k + ps.length) := by
  induction ps generalizing k with
  | nil => rfl
  | cons p ps ih =>
      obtain ⟨hp, hps⟩ := (succeed_succ k ps.length).mp h
      rw [List.cons_append, attempts, attempts, if_pos hp, if_pos hp, ih hps, List.length_cons,
        Nat.add_right_comm, Nat.add_assoc, List.cons_append]

theorem attempts_append_of_not {ps qs : List Packet} {k : ℕ} (h : ¬ Succeed sys k ps.length) :
    attempts sys (ps ++ qs) k = attempts sys ps k := by
  induction ps generalizing k with
  | nil => exact absurd (succeed_zero k) h
  | cons p ps ih =>
      rw [List.cons_append, attempts, attempts]
      by_cases hp : sender (sys.answers k) = 0
      · rw [if_pos hp, if_pos hp, ih (fun hps => h ((succeed_succ k ps.length).mpr ⟨hp, hps⟩))]
      · rw [if_neg hp, if_neg hp]

theorem packet_mem_of_mem_attempts {ps : List Packet} {k : ℕ} {step : Step}
    (h : step ∈ attempts sys ps k) : step.packet ∈ ps := by
  induction ps generalizing k with
  | nil => cases h
  | cons p ps ih =>
      rw [attempts] at h
      rcases List.mem_cons.mp h with rfl | h
      · exact List.mem_cons_self
      · split_ifs at h with hp
        · exact List.mem_cons_of_mem _ (ih h)
        · cases h

/-- The call of `sender` for a message returned `0`. -/
def Confirmed (steps : List Step) (p : Packet) : Prop :=
  ∃ step ∈ steps, step.packet = p ∧ step.rtrn = 0

/-- After a call of `sender` that failed there is no other one. -/
def StopsAtFailure (steps : List Step) : Prop :=
  ∀ pre step post, steps = pre ++ step :: post → step.rtrn ≠ 0 → post = []

theorem confirmed_iff {ps : List Packet} (hps : ps.Nodup) (k : ℕ) :
    (∀ p ∈ ps, Confirmed (attempts sys ps k) p) ↔ Succeed sys k ps.length := by
  induction ps generalizing k with
  | nil => exact iff_of_true (fun p hp => by cases hp) (succeed_zero k)
  | cons p ps ih =>
      obtain ⟨hp, hps⟩ := List.nodup_cons.mp hps
      rw [List.length_cons, succeed_succ, ← ih hps, attempts]
      constructor
      · intro h
        have hok : sender (sys.answers k) = 0 := by
          obtain ⟨step, hstep, hpacket, hrtrn⟩ := h p List.mem_cons_self
          rcases List.mem_cons.mp hstep with rfl | hstep
          · exact hrtrn
          · split_ifs at hstep with hok
            · exact hok
            · cases hstep
        refine ⟨hok, fun q hq => ?_⟩
        -- the call for `q` is not the first one, since `q` is another message
        obtain ⟨step, hstep, hpacket, hrtrn⟩ := h q (List.mem_cons_of_mem _ hq)
        rw [if_pos hok] at hstep
        rcases List.mem_cons.mp hstep with rfl | hstep
        · rw [← hpacket] at hq
          exact absurd hq hp
        · exact ⟨step, hstep, hpacket, hrtrn⟩
      · rintro ⟨hok, h⟩ q hq
        rw [if_pos hok]
        rcases List.mem_cons.mp hq with rfl | hq
        · exact ⟨_, List.mem_cons_self, rfl, hok⟩
        · obtain ⟨step, hstep, hq⟩ := h q hq
          exact ⟨step, List.mem_cons_of_mem _ hstep, hq⟩

theorem stopsAtFailure_attempts (ps : List Packet) (k : ℕ) :
    StopsAtFailure (attempts sys ps k) := by
  induction ps generalizing k with
  | nil => intro pre step post h; simp [attempts] at h
  | cons p ps ih =>
      intro pre step post h hrtrn
      rw [attempts] at h
      cases pre with
      | nil =>
          obtain ⟨rfl, htail⟩ := List.cons.inj h
          rw [if_neg hrtrn] at htail
          exact htail.symm
      | cons first pre =>
          have htail := (List.cons.inj h).2
          split_ifs at htail with hp
          · exact ih _ pre step post htail hrtrn
          · simp at htail

/-! ### Procedures that perform a list of messages -/

/-- The procedure makes the calls of `sender` for `ps`; it returns `done` when all of them
succeed and `failed` otherwise. -/
def Performs (sys : System) (m : StateM Conn ℤ) (ps : List Packet) (done failed : ℤ) : Prop :=
  ∀ c, (m.run c).2.steps = c.steps ++ attempts sys ps c.steps.length ∧
    (Succeed sys c.steps.length ps.length → (m.run c).1 = done) ∧
    (¬ Succeed sys c.steps.length ps.length → (m.run c).1 = failed)

theorem performs_senderTo (sys : System) (p : Packet) :
    Performs sys (senderTo sys p) [p] 0 (-1) := by
  intro c
  have hrun : (senderTo sys p).run c = (sender (sys.answers c.steps.length),
      { c with steps := c.steps ++ [⟨p, _, sender (sys.answers c.steps.length)⟩] }) := rfl
  rw [hrun, List.length_singleton, succeed_one]
  refine ⟨?_, fun h => h, fun h => sender_ne_zero h⟩
  simp only [attempts, ite_self]

theorem performs_nil {m : StateM Conn ℤ} {done : ℤ} (failed : ℤ) (hm : ∀ c, (m.run c).1 = done)
    (hsteps : ∀ c, (m.run c).2.steps = c.steps) : Performs sys m [] done failed :=
  fun c => ⟨by rw [hsteps, attempts, List.append_nil], fun _ => hm c,
    fun h => absurd (succeed_zero _) h⟩

theorem performs_close : Performs sys (do
    sqlite3Close
    return (0 : ℤ)) [] 0 (-1) := performs_nil _ (fun _ => rfl) (fun _ => rfl)

variable {m rest : StateM Conn ℤ} {ps qs : List Packet} {done failed done' : ℤ}

/-- The procedure `m`, and `rest` unless `m` returns `-1`. -/
def andThen (m rest : StateM Conn ℤ) : StateM Conn ℤ := do
  if (← m) = -1 then return -1
  rest

theorem andThen_run (m rest : StateM Conn ℤ) (c : Conn) : (andThen m rest).run c =
    if (m.run c).1 = -1 then (-1, (m.run c).2) else rest.run (m.run c).2 := by
  have hrun : (andThen m rest).run c = (if (m.run c).1 = -1 then (return -1) else rest :
    StateM Conn ℤ).run (m.run c).2 := rfl
  rw [hrun]
  split_ifs <;> rfl

theorem Performs.andThen (hm : Performs sys m ps done (-1)) (hdone : done ≠ -1)
    (hrest : Performs sys rest qs done' (-1)) :
    Performs sys (andThen m rest) (ps ++ qs) done' (-1) := by
  intro c
  obtain ⟨hsteps, hresult, hfailed⟩ := hm c
  rw [andThen_run, List.length_append, succeed_add]
  by_cases h : Succeed sys c.steps.length ps.length
  · have hlen : (m.run c).2.steps.length = c.steps.length + ps.length := by
      rw [hsteps, List.length_append, attempts_length h]
    obtain ⟨hsteps', hresult', hfailed'⟩ := hrest (m.run c).2
    rw [hlen] at hsteps' hresult' hfailed'
    rw [hresult h, if_neg hdone, hsteps', hsteps, attempts_append h, List.append_assoc]
    exact ⟨rfl, fun hall => hresult' hall.2, fun hnot => hfailed' (fun hqs => hnot ⟨h, hqs⟩)⟩
  · rw [hfailed h, if_pos rfl, hsteps, attempts_append_of_not h]
    exact ⟨rfl, fun hall => absurd hall.1 h, fun _ => rfl⟩

theorem Performs.andThen_stuck (hm : Performs sys m ps (-1) (-1)) :
    Performs sys (Etri.andThen m rest) ps (-1) (-1) := by
  intro c
  obtain ⟨hsteps, hresult, hfailed⟩ := hm c
  have hstuck : (m.run c).1 = -1 := by
    by_cases h : Succeed sys c.steps.length ps.length
    · exact hresult h
    · exact hfailed h
  rw [andThen_run, hstuck, if_pos rfl, hsteps]
  exact ⟨rfl, fun _ => rfl, fun _ => rfl⟩

/-! ### The two procedures -/

/-- The messages for the rows of `transducerinfo`: the last row comes first. -/
def transducers (message : ℕ → Packet) : ℕ → List Packet
  | 0 => []
  | n + 1 => message n :: transducers message n

theorem transducers_length (message : ℕ → Packet) (n : ℕ) :
    (transducers message n).length = n := by
  induction n with
  | zero => rfl
  | succ n ih => rw [transducers, List.length_cons, ih]

theorem mem_transducers {message : ℕ → Packet} {n : ℕ} {p : Packet} :
    p ∈ transducers message n ↔ ∃ row < n, message row = p := by
  induction n with
  | zero => simp [transducers]
  | succ n ih =>
      rw [transducers, List.mem_cons, ih]
      constructor
      · rintro (rfl | ⟨row, hrow, h⟩)
        · exact ⟨n, Nat.lt_succ_self n, rfl⟩
        · exact ⟨row, by omega, h⟩
      · rintro ⟨row, hrow, h⟩
        rcases Nat.lt_succ_iff_lt_or_eq.mp hrow with hrow | rfl
        · exact Or.inr ⟨row, hrow, h⟩
        · exact Or.inl h.symm

theorem nodup_transducers {message : ℕ → Packet} (hinj : Function.Injective message) (n : ℕ) :
    (transducers message n).Nodup := by
  induction n with
  | zero => exact List.nodup_nil
  | succ n ih =>
      refine List.nodup_cons.mpr ⟨fun h => ?_, ih⟩
      obtain ⟨row, hrow, heq⟩ := mem_transducers.mp h
      rw [hinj heq] at hrow
      omega

theorem performs_cons {p : Packet} {f : ℤ → StateM Conn ℤ} (hok : Performs sys (f 0) ps done failed)
    (hfail : f (-1) = return failed) :
    Performs sys (senderTo sys p >>= f) (p :: ps) done failed := by
  intro c
  obtain ⟨hsteps, hresult, hfailed⟩ := performs_senderTo sys p c
  rw [List.length_singleton, succeed_one] at hresult hfailed
  set r := (senderTo sys p).run c with hr
  have hrun : (senderTo sys p >>= f).run c = (f r.1).run r.2 := rfl
  rw [hrun, List.length_cons, succeed_succ]
  by_cases h : sender (sys.answers c.steps.length) = 0
  · have hlen : r.2.steps.length = c.steps.length + 1 := by
      rw [hsteps, List.length_append, attempts_length ((succeed_one _).mpr h),
        List.length_singleton]
    obtain ⟨hsteps', hresult', hfailed'⟩ := hok r.2
    rw [hlen] at hsteps' hresult' hfailed'
    rw [hresult h, hsteps', hsteps, List.append_assoc]
    refine ⟨?_, fun hall => hresult' hall.2, fun hnot => hfailed' (fun hps => hnot ⟨h, hps⟩)⟩
    simp only [attempts, h, if_true, List.singleton_append]
  · rw [hfailed h, hfail]
    refine ⟨?_, fun hall => absurd hall.1 h, fun _ => rfl⟩
    change r.2.steps = _
    rw [hsteps]
    simp only [attempts, h, if_false]

theorem performs_registerTransducers (sys : System) (n : ℕ) (rtrn : ℤ) :
    Performs sys (registerTransducers sys n rtrn) (transducers .transducerRegistration n)
      (if n = 0 then rtrn else 0) (-1) := by
  induction n generalizing rtrn with
  | zero => exact performs_nil _ (fun _ => rfl) (fun _ => rfl)
  | succ n ih =>
      have hrest := ih 0
      rw [ite_self] at hrest
      rw [if_neg n.succ_ne_zero]
      exact performs_cons hrest rfl

theorem performs_deregisterTransducers (sys : System) (n : ℕ) (rtrn : UInt16) :
    Performs sys (do
      let rtrn ← deregisterTransducers sys n rtrn
      return (rtrn.toNat : ℤ)) (transducers .transducerDeregistration n)
      (if n = 0 then rtrn.toNat else 0) 65535 := by
  induction n generalizing rtrn with
  | zero => exact performs_nil _ (fun _ => rfl) (fun _ => rfl)
  | succ n ih =>
      have hrest := ih 0
      rw [show ((0 : UInt16).toNat : ℤ) = 0 from rfl, ite_self] at hrest
      rw [if_neg n.succ_ne_zero]
      exact performs_cons (f := fun r => do
        let rtrn ← (if UInt16.ofInt r = 0 then deregisterTransducers sys n (UInt16.ofInt r)
          else return UInt16.ofInt (-1))
        return (rtrn.toNat : ℤ)) hrest rfl

/-- Rows that the registration of the transducers goes through. -/
def System.selected (sys : System) : ℕ := if sys.counted then sys.rows.getD 0 else 0

theorem steps_registration (sys : System) : stepsOf (transducerDescriptionRegistration sys) =
    attempts sys (transducers .transducerRegistration sys.selected) 0 :=
  (performs_registerTransducers sys sys.selected sys.uninitialised ⟨[], 0⟩).1

theorem steps_deregistration (sys : System) (handles : ℕ) :
    ((transducerDescriptionDeregistration sys).run ⟨[], handles⟩).2.steps =
      attempts sys (transducers .transducerDeregistration (sys.rows.getD 0)) 0 :=
  (performs_deregisterTransducers sys (sys.rows.getD 0) (UInt16.ofInt sys.uninitialised)
    ⟨[], handles⟩).1

/-- The messages before the transducers, in the order of the registration. -/
def nodes : List Packet := [.gateNodeRegistration, .panRegistration, .sensorNodeRegistration]

/-- The messages after the transducers, in the order of the deregistration. -/
def nodesBack : List Packet :=
  [.sensorNodeDeregistration, .panDeregistration, .gateNodeDeregistration]

variable (sys)

/-- What `ETRI_Registration` does once the database is open. -/
def registration : StateM Conn ℤ :=
  andThen (gateNodeDescriptionRegistration sys) <|
  andThen (panDescriptionRegistration sys) <|
  andThen (sensorNodeDescriptionRegistration sys) <|
  andThen (transducerDescriptionRegistration sys) (do
    sqlite3Close
    return 0)

/-- What `ETRI_Deregistration` does after the transducers. -/
def deregistration : StateM Conn ℤ :=
  andThen (sensorNodeDescriptionDeregistration sys) <|
  andThen (panDescriptionDeregistration sys) <|
  andThen (gateNodeDescriptionDeregistration sys) (do
    sqlite3Close
    return 0)

theorem sqlite3Open_run (c : Conn) : (sqlite3Open sys).run c =
    (sys.openRc, if sys.openRc = 0 then { c with handles := c.handles + 1 } else c) := by
  unfold sqlite3Open
  by_cases h : sys.openRc = 0
  · simp only [h, if_true]
    rfl
  · simp only [h, if_false]
    rfl

theorem opening_run (body : StateM Conn ℤ) (c : Conn) : (do
      let rc ← sqlite3Open sys
      if rc ≠ 0 then return -1
      body : StateM Conn ℤ).run c =
    if sys.openRc = 0 then body.run { c with handles := c.handles + 1 } else (-1, c) := by
  have hrun : (do
      let rc ← sqlite3Open sys
      if rc ≠ 0 then return -1
      body : StateM Conn ℤ).run c = (if ((sqlite3Open sys).run c).1 ≠ 0 then return -1
        else body : StateM Conn ℤ).run ((sqlite3Open sys).run c).2 := rfl
  rw [hrun, sqlite3Open_run]
  by_cases h : sys.openRc = 0
  · simp only [h, ne_eq, not_true_eq_false, if_false, if_true]
  · simp only [h, ne_eq, not_false_eq_true, if_true, if_false]
    rfl

theorem etriRegistration_run (c : Conn) : (etriRegistration sys).run c =
    if sys.openRc = 0 then (registration sys).run { c with handles := c.handles + 1 }
    else (-1, c) := opening_run sys (registration sys) c

theorem etriDeregistration_run (c : Conn) : (etriDeregistration sys).run c =
    if sys.openRc = 0 then (andThen (transducerDescriptionDeregistration sys)
      (deregistration sys)).run { c with handles := c.handles + 1 }
    else (-1, c) := opening_run sys _ c

/-- The registration of the transducers ends with `-1` although nothing failed: without rows
the variable `rtrn` still holds what it held before. -/
def Stray : Prop := sys.selected = 0 ∧ sys.uninitialised = -1

instance : Decidable (Stray sys) := inferInstanceAs (Decidable (_ ∧ _))

variable {sys}

theorem performs_registration_of_stray (h : Stray sys) :
    Performs sys (registration sys) nodes (-1) (-1) := by
  have htransducers := performs_registerTransducers sys 0 sys.uninitialised
  rw [if_pos rfl, h.2] at htransducers
  have hselected : transducerDescriptionRegistration sys = registerTransducers sys 0 (-1) := by
    have : transducerDescriptionRegistration sys =
      registerTransducers sys sys.selected sys.uninitialised := rfl
    rw [this, h.1, h.2]
  unfold registration
  rw [hselected]
  exact (performs_senderTo sys _).andThen (by decide) <|
    (performs_senderTo sys _).andThen (by decide) <|
    (performs_senderTo sys _).andThen (by decide) htransducers.andThen_stuck

theorem performs_registration (h : ¬ Stray sys) : Performs sys (registration sys)
    (nodes ++ transducers .transducerRegistration sys.selected) 0 (-1) := by
  have htransducers := performs_registerTransducers sys sys.selected sys.uninitialised
  have hdone : (if sys.selected = 0 then sys.uninitialised else 0) ≠ -1 := by
    split_ifs with hselected
    · exact fun huninitialised => h ⟨hselected, huninitialised⟩
    · decide
  have hlast := htransducers.andThen hdone performs_close
  rw [List.append_nil] at hlast
  exact (performs_senderTo sys _).andThen (by decide) <|
    (performs_senderTo sys _).andThen (by decide) <|
    (performs_senderTo sys _).andThen (by decide) hlast

theorem performs_deregistration (sys : System) :
    Performs sys (deregistration sys) nodesBack 0 (-1) :=
  (performs_senderTo sys _).andThen (by decide) <|
    (performs_senderTo sys _).andThen (by decide) <|
    (performs_senderTo sys _).andThen (by decide) performs_close

theorem etriRegistration_eq (c : Conn) :
    ((etriRegistration sys).run c).1 = 0 ∨ ((etriRegistration sys).run c).1 = -1 := by
  rw [etriRegistration_run]
  split_ifs with hopen
  · by_cases hstray : Stray sys
    · obtain ⟨-, hdone, hfailed⟩ := performs_registration_of_stray hstray
        { c with handles := c.handles + 1 }
      exact Or.inr ((em _).elim hdone hfailed)
    · obtain ⟨-, hdone, hfailed⟩ := performs_registration hstray
        { c with handles := c.handles + 1 }
      exact (em _).imp hdone hfailed
  · exact Or.inr rfl

/-- The transducers of the deregistration: whether or not one of them fails, the other
messages follow. -/
theorem andThen_transducers_run (c : Conn) :
    (andThen (transducerDescriptionDeregistration sys) (deregistration sys)).run c =
      (deregistration sys).run ((transducerDescriptionDeregistration sys).run c).2 := by
  have hresult : 0 ≤ ((transducerDescriptionDeregistration sys).run c).1 := by
    change 0 ≤ (((deregisterTransducers sys (sys.rows.getD 0)
      (UInt16.ofInt sys.uninitialised)).run c).1.toNat : ℤ)
    exact Int.natCast_nonneg _
  rw [andThen_run, if_neg (by omega)]

/-! ### When the result is right -/

/-- The result of a procedure on a new connection. -/
def resultOf (procedure : StateM Conn ℤ) : ℤ := (procedure.run ⟨[], 0⟩).1

/-- A procedure that is to send `ps` reports how that went: it returns `0` exactly when the
database was opened and every message was confirmed, and `-1` otherwise; and it sends nothing
after a message that failed. -/
structure Reports (sys : System) (ps : List Packet) (result : ℤ) (steps : List Step) : Prop where
  zero_iff : result = 0 ↔ sys.openRc = 0 ∧ ∀ p ∈ ps, Confirmed steps p
  otherwise : result = 0 ∨ result = -1
  stops : StopsAtFailure steps

/-- The messages of the registration when there are `n` transducers. -/
def registrationMessages (n : ℕ) : List Packet := nodes ++ transducers .transducerRegistration n

/-- The messages of the deregistration when there are `n` transducers. -/
def deregistrationMessages (n : ℕ) : List Packet :=
  transducers .transducerDeregistration n ++ nodesBack

theorem nodup_registrationMessages (n : ℕ) : (registrationMessages n).Nodup := by
  apply List.Nodup.append (by decide) (nodup_transducers (fun _ _ h => by cases h; rfl) n)
  intro p hp hp'
  obtain ⟨row, -, rfl⟩ := mem_transducers.mp hp'
  simp [nodes] at hp

theorem nodup_deregistrationMessages (n : ℕ) : (deregistrationMessages n).Nodup := by
  apply List.Nodup.append (nodup_transducers (fun _ _ h => by cases h; rfl) n) (by decide)
  intro p hp' hp
  obtain ⟨row, -, rfl⟩ := mem_transducers.mp hp'
  simp [nodesBack] at hp

theorem reports_of_not_open {ps : List Packet} (h : sys.openRc ≠ 0) : Reports sys ps (-1) [] where
  zero_iff := iff_of_false (by decide) (fun hall => h hall.1)
  otherwise := Or.inr rfl
  stops := fun pre step post hsteps => by simp at hsteps

/-- The calls of `sender` are those for `ps`; the result is `done` when all of them succeed and
`-1` otherwise. -/
def Performed (sys : System) (ps : List Packet) (done result : ℤ) (steps : List Step) : Prop :=
  steps = attempts sys ps 0 ∧ (Succeed sys 0 ps.length → result = done) ∧
    (¬ Succeed sys 0 ps.length → result = -1)

theorem Performs.performed (hm : Performs sys m ps done (-1)) {c : Conn} (hc : c.steps = []) :
    Performed sys ps done (m.run c).1 (m.run c).2.steps := by
  obtain ⟨hsteps, hdone, hfailed⟩ := hm c
  rw [hc] at hsteps hdone hfailed
  exact ⟨hsteps, hdone, hfailed⟩

variable {result : ℤ} {steps : List Step}

/-- A procedure that performs its list of messages reports how that went. -/
theorem reports_of_performed (hopen : sys.openRc = 0) (hps : ps.Nodup)
    (h : Performed sys ps 0 result steps) : Reports sys ps result steps := by
  obtain ⟨rfl, hdone, hfailed⟩ := h
  refine ⟨?_, (em _).imp hdone hfailed, stopsAtFailure_attempts ps 0⟩
  rw [confirmed_iff hps]
  refine ⟨fun h => ⟨hopen, ?_⟩, fun h => hdone h.2⟩
  by_contra hnot
  rw [hfailed hnot] at h
  exact absurd h (by decide)

theorem reports_iff_of_stuck (hopen : sys.openRc = 0) (hps : ps.Nodup)
    (h : Performed sys ps (-1) result steps) :
    Reports sys ps result steps ↔ ¬ Succeed sys 0 ps.length := by
  obtain ⟨rfl, hdone, hfailed⟩ := h
  obtain rfl : result = -1 := (em _).elim hdone hfailed
  rw [← confirmed_iff hps]
  constructor
  · intro hreports hall
    exact absurd (hreports.zero_iff.mpr ⟨hopen, hall⟩) (by decide)
  · intro hnot
    exact ⟨iff_of_false (by decide) (fun h => hnot h.2), Or.inr rfl, stopsAtFailure_attempts ps 0⟩

/-- Where some of the messages that are to be sent are not tried, only `-1` is right. -/
theorem reports_iff_of_lacking {wanted : List Packet} (hlack : ∃ p ∈ wanted, p ∉ ps)
    (h : Performed sys ps done result steps) :
    Reports sys wanted result steps ↔ (¬ Succeed sys 0 ps.length ∨ done = -1) := by
  obtain ⟨rfl, hdone, hfailed⟩ := h
  obtain ⟨p, hp, hnotin⟩ := hlack
  have hmissing : ¬ ∀ p ∈ wanted, Confirmed (attempts sys ps 0) p := by
    intro hall
    obtain ⟨step, hstep, hpacket, -⟩ := hall p hp
    exact hnotin (hpacket ▸ packet_mem_of_mem_attempts hstep)
  have hresult : result = -1 ↔ ¬ Succeed sys 0 ps.length ∨ done = -1 := by
    by_cases h : Succeed sys 0 ps.length
    · rw [hdone h]
      exact ⟨Or.inr, fun hor => hor.resolve_left (fun hnot => hnot h)⟩
    · exact iff_of_true (hfailed h) (Or.inl h)
  rw [← hresult]
  constructor
  · intro hreports
    exact hreports.otherwise.resolve_left (fun h => hmissing (hreports.zero_iff.mp h).2)
  · rintro rfl
    exact ⟨iff_of_false (by decide) (fun hall => hmissing hall.2), Or.inr rfl,
      stopsAtFailure_attempts ps 0⟩

/-- A list of messages that was not performed to its end ends with a failed call. -/
theorem attempts_of_not_succeed {k : ℕ} (h : ¬ Succeed sys k ps.length) :
    ∃ pre step, attempts sys ps k = pre ++ [step] ∧ step.rtrn ≠ 0 := by
  induction ps generalizing k with
  | nil => exact absurd (succeed_zero k) h
  | cons p ps ih =>
      rw [attempts]
      by_cases hp : sender (sys.answers k) = 0
      · obtain ⟨pre, step, heq, hrtrn⟩ :=
          ih (fun hps => h ((succeed_succ k ps.length).mpr ⟨hp, hps⟩))
        rw [if_pos hp, heq]
        exact ⟨_ :: pre, step, rfl, hrtrn⟩
      · rw [if_neg hp]
        exact ⟨[], _, rfl, hp⟩

/-- The condition for the registration: the database is not opened, or one of the three nodes
fails, or the transducers are handled well.  Without transducers the variable must not hold
`-1`; with some of them either both selects succeed or it must. -/
def System.RegistersWell (sys : System) (n : ℕ) : Prop :=
  sys.openRc ≠ 0 ∨ (∃ k < 3, sender (sys.answers k) ≠ 0) ∨
    if n = 0 then sys.uninitialised ≠ -1
    else (sys.counted = true ∧ sys.rows = some n) ∨ sys.uninitialised = -1

/-- The condition for the deregistration: the database is not opened; or the rows are selected
and no transducer fails; or they are not and a node fails. -/
def System.DeregistersWell (sys : System) (n : ℕ) : Prop :=
  sys.openRc ≠ 0 ∨
    if n = 0 ∨ sys.rows = some n then ∀ k < n, sender (sys.answers k) = 0
    else ∃ k < 3, sender (sys.answers k) ≠ 0

theorem succeed_from_zero (n : ℕ) : Succeed sys 0 n ↔ ∀ k < n, sender (sys.answers k) = 0 := by
  simp only [Succeed, Nat.zero_add]

theorem not_succeed_from_zero (n : ℕ) :
    ¬ Succeed sys 0 n ↔ ∃ k < n, sender (sys.answers k) ≠ 0 := by
  simp only [succeed_from_zero, not_forall, exists_prop, ne_eq]

theorem selected_of_counted {n : ℕ} (h : sys.counted = true ∧ sys.rows = some n) :
    sys.selected = n := by
  unfold System.selected
  rw [if_pos h.1, h.2]
  rfl

theorem selected_of_not_counted {n : ℕ} (hrows : sys.rows = some n ∨ sys.rows = none)
    (h : ¬ (sys.counted = true ∧ sys.rows = some n)) : sys.selected = 0 := by
  unfold System.selected
  split_ifs with hcounted
  · rw [hrows.resolve_left (fun hn => h ⟨hcounted, hn⟩)]
    rfl
  · rfl

/-- The transducers that the queries give are registered as they should be. -/
theorem reports_registration (hopen : sys.openRc = 0) (hstray : ¬ Stray sys) (handles : ℕ) :
    Reports sys (registrationMessages sys.selected) ((registration sys).run ⟨[], handles⟩).1
      ((registration sys).run ⟨[], handles⟩).2.steps :=
  reports_of_performed hopen (nodup_registrationMessages _)
    ((performs_registration hstray).performed rfl)

/-- Without transducers, a stray result hides that the nodes are registered. -/
theorem reports_registration_stray_iff (hopen : sys.openRc = 0) (hstray : Stray sys)
    (handles : ℕ) :
    Reports sys (registrationMessages 0) ((registration sys).run ⟨[], handles⟩).1
      ((registration sys).run ⟨[], handles⟩).2.steps ↔ ¬ Succeed sys 0 3 :=
  reports_iff_of_stuck hopen (nodup_registrationMessages 0)
    ((performs_registration_of_stray hstray).performed rfl)

/-- When the queries give none of the transducers there are, only a failure of a node is
reported, or anything is reported as one. -/
theorem reports_registration_lacking_iff (hselected : sys.selected = 0) {n : ℕ} (hn : n ≠ 0)
    (handles : ℕ) :
    Reports sys (registrationMessages n) ((registration sys).run ⟨[], handles⟩).1
      ((registration sys).run ⟨[], handles⟩).2.steps ↔
        ¬ Succeed sys 0 3 ∨ sys.uninitialised = -1 := by
  have hlack : ∃ p ∈ registrationMessages n, p ∉ nodes :=
    ⟨.transducerRegistration 0, List.mem_append_right _
      (mem_transducers.mpr ⟨0, Nat.pos_of_ne_zero hn, rfl⟩), by simp [nodes]⟩
  by_cases hu : sys.uninitialised = -1
  · have hm := performs_registration_of_stray ⟨hselected, hu⟩
    rw [reports_iff_of_lacking hlack (hm.performed rfl)]
    simp [hu]
  · have hm := performs_registration (fun h : Stray sys => hu h.2)
    rw [hselected, transducers, List.append_nil] at hm
    rw [reports_iff_of_lacking hlack (hm.performed rfl)]
    simp [hu, nodes]

theorem reports_registration_iff {n : ℕ} (hrows : sys.rows = some n ∨ sys.rows = none) :
    Reports sys (registrationMessages n) (resultOf (etriRegistration sys))
      (stepsOf (etriRegistration sys)) ↔ sys.RegistersWell n := by
  unfold resultOf stepsOf System.RegistersWell
  rw [etriRegistration_run, ← not_succeed_from_zero]
  by_cases hopen : sys.openRc = 0
  swap
  · rw [if_neg hopen]
    exact iff_of_true (reports_of_not_open hopen) (Or.inl hopen)
  rw [if_pos hopen]
  simp only [hopen, ne_eq, not_true_eq_false, false_or]
  by_cases hn : n = 0
  · subst hn
    have hselected : sys.selected = 0 := by
      rcases hrows with hrows | hrows <;> simp [System.selected, hrows]
    by_cases hu : sys.uninitialised = -1
    · rw [reports_registration_stray_iff hopen ⟨hselected, hu⟩]
      simp [hu]
    · have hreports := reports_registration hopen (fun h => hu h.2) (0 + 1)
      rw [hselected] at hreports
      exact iff_of_true hreports (Or.inr hu)
  · by_cases hcounted : sys.counted = true ∧ sys.rows = some n
    · have hselected := selected_of_counted hcounted
      have hreports := reports_registration hopen
        (fun h => hn (hselected.symm.trans h.1)) (0 + 1)
      rw [hselected] at hreports
      simp [hreports, hn, hcounted]
    · -- a select failed: the transducers are not sent
      rw [reports_registration_lacking_iff (selected_of_not_counted hrows hcounted) hn]
      simp [hn, hcounted]

section
variable {c : Conn} {n : ℕ}

/-- Behind the messages for all the transducers the nodes are deregistered as they should be; but
a transducer that failed does not stop them. -/
theorem reports_deregistration_selected_iff (hopen : sys.openRc = 0)
    (hc : c.steps = attempts sys (transducers .transducerDeregistration n) 0) :
    Reports sys (deregistrationMessages n) ((deregistration sys).run c).1
      ((deregistration sys).run c).2.steps ↔ Succeed sys 0 n := by
  obtain ⟨hsteps, hdone, hfailed⟩ := performs_deregistration sys c
  by_cases hok : Succeed sys 0 n
  · have hlen : c.steps.length = n := by
      rw [hc, attempts_length, transducers_length]
      rwa [transducers_length]
    rw [hlen] at hsteps hdone hfailed
    refine iff_of_true (reports_of_performed hopen (nodup_deregistrationMessages n) ?_) hok
    unfold Performed deregistrationMessages
    rw [attempts_append (by rwa [transducers_length]), List.length_append, transducers_length,
      succeed_add, Nat.zero_add, hsteps, hc]
    exact ⟨rfl, fun h => hdone h.2, fun h => hfailed (fun hback => h ⟨hok, hback⟩)⟩
  · refine iff_of_false (fun hreports => ?_) hok
    have hnot : ¬ Succeed sys 0 (transducers .transducerDeregistration n).length := by
      rwa [transducers_length]
    obtain ⟨pre, step, heq, hrtrn⟩ := attempts_of_not_succeed hnot
    rw [hc, heq, List.append_assoc, List.singleton_append] at hsteps
    exact absurd (hreports.stops pre step _ hsteps hrtrn) (by simp [nodesBack, attempts])

/-- When the query gives none of the transducers there are, only a failure of a node is
reported. -/
theorem reports_deregistration_lacking_iff (hc : c.steps = []) (hn : n ≠ 0) :
    Reports sys (deregistrationMessages n) ((deregistration sys).run c).1
      ((deregistration sys).run c).2.steps ↔ ¬ Succeed sys 0 3 := by
  have hlack : ∃ p ∈ deregistrationMessages n, p ∉ nodesBack :=
    ⟨.transducerDeregistration 0, List.mem_append_left _
      (mem_transducers.mpr ⟨0, Nat.pos_of_ne_zero hn, rfl⟩), by simp [nodesBack]⟩
  rw [reports_iff_of_lacking hlack ((performs_deregistration sys).performed hc)]
  simp [nodesBack]

end

theorem reports_deregistration_iff {n : ℕ} (hrows : sys.rows = some n ∨ sys.rows = none) :
    Reports sys (deregistrationMessages n) (resultOf (etriDeregistration sys))
      (stepsOf (etriDeregistration sys)) ↔ sys.DeregistersWell n := by
  unfold resultOf stepsOf System.DeregistersWell
  rw [etriDeregistration_run, ← not_succeed_from_zero, ← succeed_from_zero]
  by_cases hopen : sys.openRc = 0
  swap
  · rw [if_neg hopen]
    exact iff_of_true (reports_of_not_open hopen) (Or.inl hopen)
  rw [if_pos hopen, andThen_transducers_run]
  simp only [hopen, ne_eq, not_true_eq_false, false_or]
  have hsteps := steps_deregistration sys (0 + 1)
  by_cases hn : n = 0 ∨ sys.rows = some n
  · have hcount : sys.rows.getD 0 = n := by
      rcases hn with rfl | hn
      · rcases hrows with hrows | hrows <;> simp [hrows]
      · simp [hn]
    rw [hcount] at hsteps
    rw [if_pos hn, reports_deregistration_selected_iff hopen hsteps]
  · have hnone : sys.rows = none := hrows.resolve_left (fun h => hn (Or.inr h))
    rw [hnone] at hsteps
    rw [if_neg hn, reports_deregistration_lacking_iff hsteps (fun h => hn (Or.inl h))]

/-- **When the result of a registration is right**: for `n` transducers, both procedures return
`0` exactly when the database was opened and every message was confirmed, `-1` otherwise, and
send nothing after a failure, under the two conditions `RegistersWell` and `DeregistersWell`
and under no others. -/
theorem reports_iff (sys : System) (n : ℕ) (hrows : sys.rows = some n ∨ sys.rows = none) :
    (Reports sys (registrationMessages n) (resultOf (etriRegistration sys))
      (stepsOf (etriRegistration sys)) ↔ sys.RegistersWell n) ∧
    (Reports sys (deregistrationMessages n) (resultOf (etriDeregistration sys))
      (stepsOf (etriDeregistration sys)) ↔ sys.DeregistersWell n) :=
  ⟨reports_registration_iff hrows, reports_deregistration_iff hrows⟩

theorem select_ge_ready : (-1 : ℤ) ≤ 1 := by decide

/-- The middleware confirms a message. -/
def confirmed : Answer := ⟨12, 1, 12, select_ge_ready⟩

/-- The middleware does not answer in time. -/
def timedOut : Answer := ⟨12, 0, 0, by decide⟩

/-- One transducer, whose message is not answered. -/
def oneTransducer : System := ⟨0, true, some 1, 0, fun k => if k = 0 then timedOut else confirmed⟩

theorem reports_one_transducer :
    (Reports oneTransducer (registrationMessages 1) (resultOf (etriRegistration oneTransducer))
      (stepsOf (etriRegistration oneTransducer)) ↔ oneTransducer.RegistersWell 1) ∧
    (Reports oneTransducer (deregistrationMessages 1)
      (resultOf (etriDeregistration oneTransducer))
      (stepsOf (etriDeregistration oneTransducer)) ↔ oneTransducer.DeregistersWell 1) :=
  reports_iff oneTransducer 1 (Or.inl rfl)

/-- Only the transducer fails in the deregistration, and `0` is returned. -/
theorem reports_wrong : ¬ ∀ (sys : System) (n : ℕ), sys.rows = some n ∨ sys.rows = none →
    Reports sys (registrationMessages n) (resultOf (etriRegistration sys))
      (stepsOf (etriRegistration sys)) ∧
    Reports sys (deregistrationMessages n) (resultOf (etriDeregistration sys))
      (stepsOf (etriDeregistration sys)) := by
  intro h
  have hzero : resultOf (etriDeregistration oneTransducer) = 0 := by decide
  obtain ⟨-, hall⟩ := (h oneTransducer 1 (Or.inl rfl)).2.zero_iff.mp hzero
  obtain ⟨step, hstep, hpacket, hrtrn⟩ := hall (.transducerDeregistration 0) (by decide)
  have hfirst : ∀ step ∈ stepsOf (etriDeregistration oneTransducer),
      step.packet = .transducerDeregistration 0 → step.rtrn ≠ 0 := by decide
  exact hfirst step hstep hpacket hrtrn

end IdcuIot.Etri
