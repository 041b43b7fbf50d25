import IdcuIot.Etri.Result
import IdcuIot.TagServer

/-! # Reports go out on registered connections

The descriptor `tcp` is all that `main` remembers about its connection.  At the head of the
main loop it is negative, or `ETRI_Registration` returned `0` on it since it was opened and it
was not closed since.  `init` keeps this on every path: it closes the socket and sets `tcp` to
`-1` when the last try of the registration fails, so that its result need not be looked at. -/

namespace IdcuIot.TagServer

open Hoare

/-! ### Open and registered sockets -/

/-- The event neither opens nor closes a socket. -/
def SocketEvent.Quiet : SocketEvent → Prop
  | .connect _ => False
  | .close _ => False
  | _ => True

/-- The last socket that was opened is `tcp`, and it was not closed. -/
def Opened (trace : List SocketEvent) (tcp : ℤ) : Prop :=
  ∃ pre post, trace = pre ++ .connect tcp :: post ∧ ∀ e ∈ post, e.Quiet

/-- Since `tcp` was opened `ETRI_Registration` returned `0` on it, and it was not closed. -/
def Registered (trace : List SocketEvent) (tcp : ℤ) : Prop :=
  ∃ pre mid post, trace = pre ++ .connect tcp :: (mid ++ .register tcp 0 :: post) ∧
    (∀ e ∈ mid, e.Quiet) ∧ ∀ e ∈ post, e.Quiet

/-- Every report was given to a negative descriptor or to a registered socket. -/
def SentRegistered (trace : List SocketEvent) : Prop :=
  ∀ pre tcp pac rtrn post, trace = pre ++ .send tcp pac rtrn :: post →
    tcp < 0 ∨ Registered pre tcp

variable {trace : List SocketEvent} {tcp : ℤ} {e : SocketEvent}

theorem opened_connect (trace : List SocketEvent) (tcp : ℤ) :
    Opened (trace ++ [.connect tcp]) tcp :=
  ⟨trace, [], rfl, fun _ he => by cases he⟩

theorem Opened.append (h : Opened trace tcp) (he : e.Quiet) : Opened (trace ++ [e]) tcp := by
  obtain ⟨pre, post, rfl, hpost⟩ := h
  refine ⟨pre, post ++ [e], by simp, fun e' he' => ?_⟩
  rcases List.mem_append.mp he' with he' | he'
  · exact hpost e' he'
  · rwa [List.mem_singleton.mp he']

theorem Opened.register (h : Opened trace tcp) : Registered (trace ++ [.register tcp 0]) tcp := by
  obtain ⟨pre, post, rfl, hpost⟩ := h
  exact ⟨pre, post, [], by simp, hpost, fun _ he => by cases he⟩

theorem Registered.append (h : Registered trace tcp) (he : e.Quiet) :
    Registered (trace ++ [e]) tcp := by
  obtain ⟨pre, mid, post, rfl, hmid, hpost⟩ := h
  refine ⟨pre, mid, post ++ [e], by simp, hmid, fun e' he' => ?_⟩
  rcases List.mem_append.mp he' with he' | he'
  · exact hpost e' he'
  · rwa [List.mem_singleton.mp he']

theorem Registered.opened (h : Registered trace tcp) : Opened trace tcp := by
  obtain ⟨pre, mid, post, rfl, hmid, hpost⟩ := h
  refine ⟨pre, mid ++ .register tcp 0 :: post, rfl, fun e he => ?_⟩
  rcases List.mem_append.mp he with he | he
  · exact hmid e he
  · rcases List.mem_cons.mp he with rfl | he
    · trivial
    · exact hpost e he

/-- An event that is not a report, or one on a socket that may be used. -/
theorem SentRegistered.append (h : SentRegistered trace)
    (he : ∀ tcp pac rtrn, e = .send tcp pac rtrn → tcp < 0 ∨ Registered trace tcp) :
    SentRegistered (trace ++ [e]) := by
  intro pre tcp pac rtrn post heq
  rcases List.eq_nil_or_concat post with rfl | ⟨post, last, rfl⟩
  · obtain ⟨rfl, hlast⟩ := List.append_inj' heq rfl
    exact he tcp pac rtrn (List.singleton_inj.mp hlast)
  · rw [List.concat_eq_append, ← List.cons_append, ← List.append_assoc] at heq
    exact h pre tcp pac rtrn post (List.append_inj' heq rfl).1

/-! ### What `init` leaves behind -/

/-- `ETRI_Registration` returned what it can return. -/
def InitOutcome.Real (o : InitOutcome) : Prop :=
  ∀ reTry, ∃ sys c, o.registration reTry = ((Etri.etriRegistration sys).run c).1

theorem InitOutcome.Real.eq {o : InitOutcome} (h : o.Real) (reTry : ℕ) :
    o.registration reTry = 0 ∨ o.registration reTry = -1 := by
  obtain ⟨sys, c, heq⟩ := h reTry
  rw [heq]
  exact Etri.etriRegistration_eq c

/-- What holds where `init` is called: a positive descriptor is an open socket. -/
def Usable (s : State) : Prop := (0 < s.tcp → Opened s.trace s.tcp) ∧ SentRegistered s.trace

/-- What holds at the head of the main loop. -/
def Safe (s : State) : Prop :=
  (s.tcp < 0 ∨ Registered s.trace s.tcp) ∧ SentRegistered s.trace

theorem Safe.usable {s : State} (h : Safe s) : Usable s :=
  ⟨fun hpos => (h.1.resolve_left (by omega)).opened, h.2⟩

theorem safe_closeTcp : Triple (fun s => SentRegistered s.trace) closeTcp (fun _ => Safe) := by
  refine Triple.bind Triple.get (fun s => ?_)
  refine Triple.bind (Q := fun _ s => SentRegistered s.trace) ?_ (fun _ => ?_)
  · apply Triple.modify
    rintro s' ⟨-, hsent⟩
    exact hsent.append (fun _ _ _ h => by cases h)
  · exact Triple.modify fun s' hsent => ⟨Or.inl (by decide : (-1 : ℤ) < 0), hsent⟩

theorem safe_register {o : InitOutcome} (ho : o.Real) {reTry : ℕ}
    (hagain : reTry ≠ 0 → Triple Usable (initLoop o reTry) (fun _ => Safe)) :
    Triple (fun s => Opened s.trace s.tcp ∧ SentRegistered s.trace) (do
      record (.register (← get).tcp (o.registration reTry))
      if o.registration reTry = -1 then
        if reTry = 0 then
          closeTcp
          return -1
        else initLoop o reTry
      else return 0) (fun _ => Safe) := by
  refine Triple.bind Triple.get (fun s => ?_)
  refine Triple.bind (Q := fun _ s => Opened s.trace s.tcp ∧ SentRegistered s.trace ∧
    (o.registration reTry = 0 → Registered s.trace s.tcp)) ?_ (fun _ => ?_)
  · apply Triple.modify
    rintro s' ⟨rfl, hopen, hsent⟩
    refine ⟨hopen.append trivial, hsent.append (fun _ _ _ h => by cases h), fun hzero => ?_⟩
    rw [hzero]
    exact hopen.register
  · refine Triple.ite (fun _ => Triple.ite (fun _ => ?_) (fun hleft => ?_)) (fun hne => ?_)
    · exact Triple.bind (fun s' hs' => safe_closeTcp s' hs'.2.1) (fun _ => Triple.pure fun _ h => h)
    · exact fun s' hs' => hagain hleft s' ⟨fun _ => hs'.1, hs'.2.1⟩
    · exact Triple.pure fun s' hs' => ⟨Or.inr (hs'.2.2 ((ho.eq reTry).resolve_right hne)), hs'.2.1⟩

theorem safe_try {o : InitOutcome} (ho : o.Real) {reTry : ℕ}
    (hagain : reTry ≠ 0 → Triple Usable (initLoop o reTry) (fun _ => Safe)) :
    Triple Usable (initLoop o (reTry + 1)) (fun _ => Safe) := by
  refine Triple.bind Triple.get (fun s => ?_)
  refine Triple.ite (fun _ => ?_) (fun hopen => ?_)
  · refine Triple.bind (Q := fun _ s => s.tcp = o.tcpClient reTry ∧ SentRegistered s.trace)
      (Triple.modify fun s' hs' => ⟨rfl, hs'.2.2⟩) (fun _ => ?_)
    refine Triple.bind (Q := fun _ s => s.tcp = o.tcpClient reTry ∧
      Opened s.trace s.tcp ∧ SentRegistered s.trace) ?_ (fun _ => ?_)
    · apply Triple.modify
      rintro s' ⟨htcp, hsent⟩
      refine ⟨htcp, ?_, hsent.append (fun _ _ _ h => by cases h)⟩
      rw [← htcp]
      exact opened_connect _ _
    · refine Triple.ite (fun hneg => ?_) (fun _ => ?_)
      · refine Triple.pure fun s' hs' => ⟨Or.inl ?_, hs'.2.2⟩
        rw [hs'.1]
        exact hneg
      · exact fun s' hs' => safe_register ho hagain s' hs'.2
  · rintro s' ⟨rfl, husable⟩
    exact safe_register ho hagain s ⟨husable.1 (not_not.mp hopen), husable.2⟩

theorem safe_initLoop {o : InitOutcome} (ho : o.Real) (reTry : ℕ) :
    Triple Usable (initLoop o (reTry + 1)) (fun _ => Safe) := by
  induction reTry with
  | zero => exact safe_try ho (fun h => absurd rfl h)
  | succ reTry ih => exact safe_try ho (fun _ => ih)

theorem safe_init {o : InitOutcome} (ho : o.Real) : Triple Usable (init o) (fun _ => Safe) :=
  Triple.bind (Triple.modify fun _ h => h) (fun _ => safe_initLoop ho 2)

theorem safe_startUp {outcomes : ℕ → InitOutcome} (ho : ∀ k, (outcomes k).Real) (reTry : ℕ) :
    Triple Usable (startUp outcomes reTry) (fun reached s => reached = true → Safe s) := by
  induction reTry with
  | zero => exact Triple.pure fun _ _ h => by cases h
  | succ reTry ih =>
      refine Triple.bind (safe_init (ho reTry)) (fun rtrn => ?_)
      refine Triple.ite (fun _ => Triple.ite (fun _ => ?_) (fun _ => ?_)) (fun _ => ?_)
      · exact Triple.pure fun _ _ h => by cases h
      · exact fun s hs => ih s hs.usable
      · exact Triple.pure fun _ hs _ => hs

/-! ### The main loop -/

theorem safe_mainLoop {t : Turn} (ht : t.init.Real) : Triple Safe (mainLoop t) (fun _ => Safe) := by
  unfold mainLoop
  cases t.message with
  | none => exact Triple.pure fun _ h => h
  | some data =>
      refine Triple.ite (fun _ => ?_) (fun _ => Triple.pure fun _ h => h)
      refine Triple.bind Triple.get (fun s => ?_)
      refine Triple.bind (Q := fun _ => Safe) ?_ (fun _ => ?_)
      · apply Triple.modify
        rintro s' ⟨rfl, hsafe⟩
        refine ⟨hsafe.1.imp id (fun h => h.append trivial), hsafe.2.append ?_⟩
        rintro _ _ _ ⟨⟩
        exact hsafe.1
      · refine Triple.ite (fun _ => ?_) (fun _ => Triple.pure fun _ h => h)
        refine Triple.bind (Q := fun _ => Safe) (fun s' hs' => safe_closeTcp s' hs'.2) (fun _ => ?_)
        refine Triple.bind (Q := fun _ => Safe) (fun s' hs' => safe_init ht s' hs'.usable) ?_
        exact fun _ => Triple.pure fun _ h => h

theorem safe_run {turns : List Turn} (hturns : ∀ t ∈ turns, t.init.Real) {s : State} (hs : Safe s) :
    Safe (run s turns) := by
  induction turns generalizing s with
  | nil => exact hs
  | cons t turns ih =>
      rw [run, List.foldl_cons, ← run]
      exact ih (fun t' ht' => hturns t' (List.mem_cons_of_mem _ ht'))
        (safe_mainLoop (hturns t List.mem_cons_self) s hs)

theorem usable_start : Usable start := by
  refine ⟨fun h => absurd h (by decide), ?_⟩
  intro pre tcp pac rtrn post h
  simp [start] at h

theorem safe_main {outcomes : ℕ → InitOutcome} {turns : List Turn} {s : State}
    (ho : ∀ k, (outcomes k).Real) (hturns : ∀ t ∈ turns, t.init.Real)
    (h : main outcomes turns = some s) : Safe s := by
  have hstart := safe_startUp ho 3 start usable_start
  simp only [main] at h
  split_ifs at h with hreached
  rw [← Option.some.inj h]
  exact safe_run hturns (hstart hreached)

/-- The system refuses to send on a negative descriptor. -/
def RefusesNegative (trace : List SocketEvent) : Prop :=
  ∀ tcp pac rtrn, .send tcp pac rtrn ∈ trace → tcp < 0 → rtrn = -1

/-- **Reports go out on registered connections**: in every run of `main`, each report is given
to a negative descriptor or to a socket on which `ETRI_Registration` returned `0` since it was
opened and which was not closed since; a report that is sent is one of the latter. -/
theorem sent_registered (outcomes : ℕ → InitOutcome) (turns : List Turn) (s : State)
    (houtcomes : ∀ k, (outcomes k).Real) (hturns : ∀ t ∈ turns, t.init.Real)
    (hmain : main outcomes turns = some s) (hsend : RefusesNegative s.trace) :
    SentRegistered s.trace ∧
    ∀ pre tcp pac rtrn post, s.trace = pre ++ .send tcp pac rtrn :: post → rtrn ≠ -1 →
      Registered pre tcp := by
  have hsafe := safe_main houtcomes hturns hmain
  refine ⟨hsafe.2, ?_⟩
  intro pre tcp pac rtrn post htrace hrtrn
  refine (hsafe.2 pre tcp pac rtrn post htrace).resolve_left (fun hneg => hrtrn ?_)
  refine hsend tcp pac rtrn ?_ hneg
  rw [htrace]
  exact List.mem_append_right _ List.mem_cons_self

/-- A report that is sent at once. -/
def sentTurn : Turn := ⟨some (TData.ofBuffer 1 (fun _ => 7) 1), 0, 19, connects⟩

theorem connects_real : connects.Real := by
  intro reTry
  refine ⟨⟨0, true, some 1, 0, fun _ => Etri.confirmed⟩, ⟨[], 0⟩, ?_⟩
  change (0 : ℤ) = _
  decide

/-- The descriptors of the reports are not negative. -/
def nonNegative (trace : List SocketEvent) : Bool :=
  trace.all (fun
    | .send tcp _ _ => decide (0 ≤ tcp)
    | _ => true)

theorem refusesNegative_of {trace : List SocketEvent} (h : nonNegative trace = true) :
    RefusesNegative trace := by
  intro tcp pac rtrn hmem hneg
  have hge := of_decide_eq_true (List.all_eq_true.mp h _ hmem)
  omega

theorem sent_registered_once : ∃ s, main (fun _ => connects) [sentTurn] = some s ∧
    SentRegistered s.trace ∧
    ∀ pre tcp pac rtrn post, s.trace = pre ++ .send tcp pac rtrn :: post → rtrn ≠ -1 →
      Registered pre tcp := by
  refine ⟨_, rfl, sent_registered (fun _ => connects) [sentTurn] _ (fun _ => connects_real) ?_
    rfl (refusesNegative_of (by decide))⟩
  intro t ht
  rw [List.mem_singleton.mp ht]
  exact connects_real

end IdcuIot.TagServer
