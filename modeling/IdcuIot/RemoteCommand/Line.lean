import IdcuIot.RemoteCommand

/-! # What reaches the nodes

Every message on the queue with key 2222 is a command as its manager got it, and what CommManager
writes for it depends on the frame only (`writes_eq`).  `Conserved` holds between two steps: what
was written and what still waits are the commands that were queued, and each manager has made the
calls of `msgsnd` for its commands in their order. -/

namespace IdcuIot.RemoteCommand

open Memory Scan
open M2MManager (PackCall Queue)

/-! ### One command -/

section
variable {κ : Type*} {code : κ → UInt8} {kinds : List κ} {type : UInt8}

theorem code_of_find? {k : κ} (h : kinds.find? (fun k => code k == type) = some k) :
    code k = type := by
  have hk := List.find?_some (p := fun k => code k == type) h
  exact beq_iff_eq.mp hk

theorem code_ne_of_find? (h : kinds.find? (fun k => code k == type) = none) {k : κ}
    (hk : k ∈ kinds) : code k ≠ type :=
  fun heq => List.find?_eq_none.mp h k hk (beq_iff_eq.mpr heq)

end

/-- What `packCall_spec` says about a call of `Pack_Manager`. -/
def IsCommand (c : PackCall) : Prop :=
  c.len = c.start + c.size ∧ c.setBuffer 0 = 0xFE ∧ c.size = (c.setBuffer 1).toNat + 3 ∧
    c.setBuffer (c.size - 1) = 0xFF

theorem getD_frame {c : PackCall} {k : ℕ} (hk : k < c.size) : c.frame.getD k 0 = c.setBuffer k := by
  have hk' : k < c.frame.length := by rwa [PackCall.frame, Mem.length_slice]
  rw [List.getD_eq_getElem _ _ hk']
  exact (Mem.getElem_slice _ _ _ _ hk').trans (congrArg _ (Nat.zero_add k))

/-- The message of a command. -/
def message (c : PackCall) : TData := TData.ofBuffer 1 c.setBuffer c.len

/-- What CommManager writes for a message. -/
def writes (data : TData) : List (List UInt8) :=
  ((CommManager.receiveCommand data).map CommManager.CommandRun.writes).getD []

/-- What the nodes get for a frame: a restart as it came, a new configuration as the message of 29
bytes with bytes 4 to 6 of the frame. -/
def nodeWrites (frame : List UInt8) : List (List UInt8) :=
  let buffer := Mem.store (fun _ => 0) 0 frame
  match CommManager.Command.ofType (buffer 2) with
  | some .rebootNode => [frame]
  | some .changeNodeInfo => if 7 ≤ frame.length then [CommManager.nodeChangeBuf buffer] else []
  | some .deleteNode | none => []

/-- What the nodes get for a command: only a frame of at most 255 bytes at the start of the receive
buffer is passed on. -/
def nodeBytes (c : PackCall) : List (List UInt8) :=
  if c.start = 0 ∧ (c.setBuffer 1).toNat ≤ 252 then nodeWrites c.frame else []

/-- **What CommManager makes of a command** that keeps it in its arrays. -/
theorem writes_eq {c : PackCall} (h : IsCommand c) (hin : InArrays (message c)) :
    writes (message c) = nodeBytes c := by
  obtain ⟨hlen, h0, hsize, hlast⟩ := h
  have hbyte : ∀ k, k < c.len → (message c).dataBuff k = c.setBuffer k := fun k hk =>
    TData.dataBuff_ofBuffer 1 c.setBuffer hk
  have hnum : (message c).dataNum = c.len := rfl
  by_cases hwhole : c.start = 0 ∧ (c.setBuffer 1).toNat ≤ 252
  · obtain ⟨hstart, hle⟩ := hwhole
    have hlen' : c.len = c.size := by omega
    have hmem : (message c).dataBuff = Mem.store (fun _ => 0) 0 c.frame := by
      unfold message TData.ofBuffer PackCall.frame
      rw [hlen']
      rfl
    have hframe : (message c).dataBuff.slice 0 c.size = c.frame :=
      TData.slice_ofBuffer 1 c.setBuffer hlen'.ge
    have hsum : ((message c).dataBuff 1 + 3).toNat = c.len := by
      rw [hbyte 1 (by omega), hlen', hsize]
      exact (CommManager.toNat_add_three _).mpr hle
    have hframelen : c.frame.length = c.size := Mem.length_slice _ _ _
    have hends : (message c).dataBuff 0 = 0xFE ∧
        (message c).dataBuff ((message c).dataNum - 1) = 0xFF := by
      rw [hbyte 0 (by omega), hnum, hbyte (c.len - 1) (by omega), hlen']
      exact ⟨h0, hlast⟩
    have hrun := hin.2 _ (if_pos hends)
    rw [nodeBytes, if_pos ⟨hstart, hle⟩, writes, CommManager.receiveCommand, if_pos hends,
      Option.map_some, Option.getD_some, CommManager.remoteNodeCommand, hnum,
      if_neg (not_not.mpr hsum), nodeWrites, ← hmem]
    dsimp only
    cases hcommand : CommManager.Command.ofType ((message c).dataBuff 2) with
    | none => rfl
    | some command =>
        cases command with
        | rebootNode => rw [hlen', hframe]
        | changeNodeInfo =>
            have hcode : CommManager.Command.changeNodeInfo.code = (message c).dataBuff 2 :=
              code_of_find? hcommand
            have hseven := hrun.2
            rw [if_pos ⟨(CommManager.remoteNodeCommand_fst _ _).mpr hsum, hcode.symm⟩, hnum,
              hlen', ← hframelen] at hseven
            rw [if_pos hseven]
        | deleteNode => rfl
  · rw [nodeBytes, if_neg hwhole, writes, CommManager.receiveCommand]
    split_ifs
    · have hsum : ((message c).dataBuff 1 + 3).toNat ≠ c.len := by
        rw [hbyte 1 (by omega)]
        intro heq
        have hlt := (c.setBuffer 1 + 3).toNat_lt
        have hstart : (c.setBuffer 1 + 3).toNat = (c.setBuffer 1).toNat + 3 := by
          have hb := (c.setBuffer 1).toNat_lt
          rw [UInt8.toNat_add, show (3 : UInt8).toNat = 3 from rfl] at heq ⊢
          omega
        exact hwhole ⟨by omega, (CommManager.toNat_add_three _).mp hstart⟩
      rw [Option.map_some, Option.getD_some, CommManager.remoteNodeCommand, hnum, if_pos hsum]
    · rfl

/-- The commands that go to the nodes. -/
def Forwarded (c : PackCall) : Prop := c.setBuffer 2 = 0x01 ∨ c.setBuffer 2 = 0x12

instance (c : PackCall) : Decidable (Forwarded c) := inferInstanceAs (Decidable (_ ∨ _))

/-- The messages for the queue of CommManager. -/
def toNodes (l : List Sending) : List Sending := l.filter (fun x => x.queue = .m2mid)

/-- A manager whose commands have the codes `code`, by what it does for each of them. -/
theorem toNodes_of_find? {κ : Type*} (code : κ → UInt8) {kinds : List κ} {c : PackCall}
    {l : List Sending} {k : Option κ}
    (hk : kinds.find? (fun k => code k == c.setBuffer 2) = k)
    (hcodes : (∃ k ∈ kinds, code k = 0x01) ∧ ∃ k ∈ kinds, code k = 0x12) (hnone : k = none → l = [])
    (hsome : ∀ k', k = some k' →
      toNodes l = if code k' = 0x01 ∨ code k' = 0x12 then [⟨c, .m2mid, message c⟩] else []) :
    toNodes l = if Forwarded c then [⟨c, .m2mid, message c⟩] else [] := by
  cases k with
  | none =>
      obtain ⟨⟨k₁, hmem₁, hcode₁⟩, k₂, hmem₂, hcode₂⟩ := hcodes
      have hother : ¬ Forwarded c := fun h => h.elim
        (fun h => code_ne_of_find? hk hmem₁ (hcode₁.trans h.symm))
        (fun h => code_ne_of_find? hk hmem₂ (hcode₂.trans h.symm))
      rw [if_neg hother, hnone rfl]
      rfl
  | some k' =>
      rw [hsome k' rfl, code_of_find? hk]
      rfl

/-- A command that goes to the nodes is put on their queue once, as its manager got it. -/
theorem toNodes_sendings (answers : Answers) (m : Manager) (c : PackCall) :
    toNodes (sendings answers m c) = if Forwarded c then [⟨c, .m2mid, message c⟩] else [] := by
  cases m with
  | m2m =>
      have hsend : sendings answers .m2m c = (M2MManager.queuesOf
          (M2MManager.Command.ofType (c.setBuffer 2)) (c.setBuffer 4)).map
            (fun q => ⟨c, q, message c⟩) := by
        unfold sendings
        dsimp only
        rw [M2MManager.messages_packManager, List.map_map]
        rfl
      rw [hsend]
      refine toNodes_of_find? M2MManager.Command.code
        (show M2MManager.Command.ofType (c.setBuffer 2) = _ from rfl) ?_ (fun h => ?_)
        (fun k h => ?_)
      · exact ⟨⟨.rebootNode, by decide, rfl⟩, .changeNodeInfo, by decide, rfl⟩
      · rw [h]
        rfl
      · rw [h]
        cases k with
        | timeSync | getData | deleteNode | getNodeList | changeNodeInfo => rfl
        | rebootNode =>
            rw [if_pos (by decide), M2MManager.queuesOf]
            split_ifs <;> rfl
  | setup =>
      unfold sendings SetupManager.packManager
      dsimp only
      refine toNodes_of_find? SetupManager.Command.code
        (show SetupManager.Command.ofType (c.setBuffer 2) = _ from rfl) ?_ (fun h => ?_)
        (fun k h => ?_)
      · exact ⟨⟨.rebootNode, by decide, rfl⟩, .changeNodeInfo, by decide, rfl⟩
      · rw [h]
        rfl
      · rw [h]
        cases k with
        | timeSync | getNodeList | deleteNode | getLanInfo | changeNodeInfo => rfl
        | rebootNode =>
            rw [if_pos (show SetupManager.Command.code .rebootNode = 0x01 ∨ _ from Or.inl rfl)]
            dsimp only
            split_ifs <;> rfl
        | setLanInfo =>
            have hother : ¬ (SetupManager.Command.code .setLanInfo = 0x01 ∨
                SetupManager.Command.code .setLanInfo = 0x12) := by decide
            rw [if_neg hother]
            unfold SetupManager.setLanInfo
            dsimp only
            split_ifs <;> rfl

/-! ### One step -/

/-- The calls of `Pack_Manager` in one manager. -/
def callsOf (m : Manager) (calls : List (Manager × PackCall)) : List PackCall :=
  (calls.filter (fun p => p.1 = m)).map Prod.snd

/-- The commands of one manager for which the `msgsnd` was made, whatever it gave. -/
def sentOf (m : Manager) (sent : List Sent) : List PackCall :=
  (sent.filter (fun x => x.manager = m)).map Sent.call

/-- The commands that found a place. -/
def queued (sent : List Sent) : List PackCall := (sent.filter Sent.queued).map Sent.call

/-- What holds between two steps. -/
structure Conserved (s : State capacity) : Prop where
  sending : ∀ m, ∀ x ∈ s.sending m,
    IsCommand x.call ∧ (x.queue = .m2mid → x.data = message x.call)
  sent : ∀ x ∈ s.sent, IsCommand x.call
  order : ∀ m, sentOf m s.sent ++ (toNodes (s.sending m)).map Sending.call =
    (callsOf m s.calls).filter (fun c => Forwarded c)
  line : ∃ taken waiting, queued s.sent = taken ++ waiting ∧
    s.line = taken.flatMap nodeBytes ∧ (s.queues .m2mid).messages = waiting.map message

section
variable {s s' : State capacity} {m : Manager} {answers : Answers}

theorem conserved_start (receiveBuffer : Manager → Mem) :
    Conserved (State.start receiveBuffer : State capacity) where
  sending _ _ hx := absurd hx List.not_mem_nil
  sent _ hx := absurd hx List.not_mem_nil
  order _ := rfl
  line := ⟨[], [], rfl, rfl, rfl⟩

theorem callsOf_append (l l' : List (Manager × PackCall)) :
    callsOf m (l ++ l') = callsOf m l ++ callsOf m l' := by
  unfold callsOf
  rw [List.filter_append, List.map_append]

theorem callsOf_map (m' : Manager) (new : List PackCall) :
    callsOf m (new.map (fun c => (m', c))) = if m' = m then new else [] := by
  unfold callsOf
  rw [List.filter_map]
  split_ifs with h
  · rw [List.filter_eq_self.mpr (fun _ _ => by simp [h]), List.map_map]
    simp [Function.comp_def]
  · rw [List.filter_eq_nil_iff.mpr (fun _ _ => by simp [h])]
    rfl

theorem calls_of_receive {loop l : RecvState PackCall} {r : Read}
    (h : M2MManager.socketManager.receive loop r = some l) :
    ∃ new, l.calls = loop.calls ++ new ∧ ∀ c ∈ new, IsCommand c := by
  unfold RecvLoop.receive at h
  dsimp only at h
  split_ifs at h
  · obtain rfl := Option.some.inj h
    exact ⟨[], (List.append_nil _).symm, fun _ hc => absurd hc List.not_mem_nil⟩
  all_goals
    obtain rfl := Option.some.inj h
    exact ⟨_, rfl, fun c hc => CommManager.packCall_spec hc⟩

theorem toNodes_flatMap (new : List PackCall) :
    (toNodes (new.flatMap (sendings answers m))).map Sending.call =
      new.filter (fun c => Forwarded c) := by
  induction new with
  | nil => rfl
  | cons c new ih =>
      have happend : ∀ l l', toNodes (l ++ l') = toNodes l ++ toNodes l' := fun l l' =>
        List.filter_append ..
      rw [List.flatMap_cons, happend, List.map_append, ih, toNodes_sendings, List.filter_cons]
      by_cases hc : Forwarded c
      · simp [hc]
      · simp [hc]

theorem sending_flatMap {new : List PackCall} (hnew : ∀ c ∈ new, IsCommand c) :
    ∀ x ∈ new.flatMap (sendings answers m),
      IsCommand x.call ∧ (x.queue = .m2mid → x.data = message x.call) := by
  intro x hx
  obtain ⟨c, hc, hxc⟩ := List.mem_flatMap.mp hx
  have hcall : x.call = c := by
    obtain ⟨p, -, rfl⟩ := List.mem_map.mp hxc
    rfl
  refine ⟨hcall ▸ hnew c hc, fun hqueue => ?_⟩
  have hmem : x ∈ toNodes (sendings answers m c) :=
    List.mem_filter.mpr ⟨hxc, decide_eq_true hqueue⟩
  rw [toNodes_sendings] at hmem
  split_ifs at hmem
  · obtain rfl := List.mem_singleton.mp hmem
    rfl
  · cases hmem

theorem conserved_receive (h : Conserved s) {r : Read} (hs : s.receive m answers r = some s') :
    Conserved s' := by
  unfold State.receive at hs
  split_ifs at hs with hempty
  swap
  · exact Option.some.inj hs ▸ h
  have hloop : m.socketManager = M2MManager.socketManager := by
    cases m <;> rfl
  rw [hloop] at hs
  obtain ⟨l, hl, hs⟩ := Option.bind_eq_some_iff.mp hs
  obtain ⟨new, hcalls, hnew⟩ := calls_of_receive hl
  rw [hcalls, List.drop_left] at hs
  dsimp only at hs
  split_ifs at hs
  obtain rfl := Option.some.inj hs
  refine ⟨fun m' => ?_, h.sent, fun m' => ?_, h.line⟩
  · dsimp only
    by_cases hm : m' = m
    · subst hm
      rw [Function.update_self]
      exact sending_flatMap hnew
    · rw [Function.update_of_ne hm]
      exact h.sending m'
  · have horder := h.order m'
    dsimp only
    rw [callsOf_append, callsOf_map, List.filter_append, ← horder]
    by_cases hm : m' = m
    · subst hm
      rw [Function.update_self, toNodes_flatMap, hempty, if_pos rfl]
      simp [toNodes]
    · rw [Function.update_of_ne hm, if_neg (Ne.symm hm)]
      simp

theorem sentOf_append (l l' : List Sent) : sentOf m (l ++ l') = sentOf m l ++ sentOf m l' := by
  unfold sentOf
  rw [List.filter_append, List.map_append]

theorem queued_append (l l' : List Sent) : queued (l ++ l') = queued l ++ queued l' := by
  unfold queued
  rw [List.filter_append, List.map_append]

theorem forall_update_sending {P : Sending → Prop} (h : ∀ m, ∀ x ∈ s.sending m, P x)
    {x : Sending} {rest : List Sending} (hsending : s.sending m = x :: rest) (m' : Manager) :
    ∀ y ∈ Function.update s.sending m rest m', P y := by
  intro y hy
  by_cases hm : m' = m
  · subst hm
    rw [Function.update_self] at hy
    exact h m' y (by rw [hsending]; exact List.mem_cons_of_mem x hy)
  · rw [Function.update_of_ne hm] at hy
    exact h m' y hy

theorem order_update (h : Conserved s) {x : Sending} {rest : List Sending}
    (hsending : s.sending m = x :: rest) {new : List Sent}
    (hnew : ∀ m', sentOf m' new = if m' = m then (toNodes [x]).map Sending.call else [])
    (m' : Manager) :
    sentOf m' (s.sent ++ new) ++
        (toNodes (Function.update s.sending m rest m')).map Sending.call =
      (callsOf m' s.calls).filter (fun c => Forwarded c) := by
  have horder := h.order m'
  rw [sentOf_append, hnew, ← horder]
  by_cases hm : m' = m
  · subst hm
    have happend : toNodes (x :: rest) = toNodes [x] ++ toNodes rest :=
      List.filter_append [x] rest
    rw [Function.update_self, if_pos rfl, hsending, happend, List.map_append, List.append_assoc]
  · rw [Function.update_of_ne hm, if_neg hm, List.append_nil]

theorem conserved_msgsnd (h : Conserved s) (m : Manager) (allowed : Bool) :
    Conserved (s.msgsnd m allowed) := by
  obtain ⟨taken, waiting, hqueued, hline, hmessages⟩ := h.line
  unfold State.msgsnd
  cases hsending : s.sending m with
  | nil => exact h
  | cons x rest =>
      dsimp only
      obtain ⟨hcommand, hdata⟩ := h.sending m x (by rw [hsending]; exact List.mem_cons_self)
      have hrest := forall_update_sending h.sending hsending
      cases hqueue : x.queue with
      | eventid =>
          refine ⟨hrest, h.sent, fun m' => ?_, taken, waiting, hqueued, hline, ?_⟩
          · have hnone : ∀ m', sentOf m' [] =
                if m' = m then (toNodes [x]).map Sending.call else [] := by
              simp [toNodes, hqueue, sentOf]
            have horder := order_update h hsending hnone m'
            rwa [List.append_nil] at horder
          · -- the queue of CommManager is another one
            rw [← hmessages]
            dsimp only
            cases (if allowed = true then (s.queues .eventid).msgsnd x.data else none) with
            | none => rfl
            | some q =>
                dsimp only
                rw [Function.update_of_ne (show Queue.m2mid ≠ .eventid by decide)]
      | m2mid =>
          rw [hdata hqueue]
          refine ⟨hrest, fun y hy => ?_, order_update h hsending (fun m' => ?_), ?_⟩
          · rcases List.mem_append.mp hy with hy | hy
            · exact h.sent y hy
            · obtain rfl := List.mem_singleton.mp hy
              exact hcommand
          · by_cases hm : m' = m
            · simp [toNodes, hqueue, sentOf, hm]
            · simp [sentOf, hm, Ne.symm hm]
          · dsimp only
            rw [queued_append, hqueued]
            cases hr : if allowed then (s.queues .m2mid).msgsnd (message x.call) else none with
            | none =>
                refine ⟨taken, waiting, ?_, hline, hmessages⟩
                simp [queued]
            | some q =>
                have hsent : (s.queues .m2mid).msgsnd (message x.call) = some q := by
                  split_ifs at hr
                  exact hr
                refine ⟨taken, waiting ++ [x.call], ?_, hline, ?_⟩
                · simp [queued]
                · dsimp only
                  rw [Function.update_self, (MessageQueue.messages_of_msgsnd hsent).2, hmessages,
                    List.map_append]
                  rfl

theorem mem_of_queued {sent : List Sent} (h : ∀ x ∈ sent, IsCommand x.call) :
    ∀ c ∈ queued sent, IsCommand c := by
  intro c hc
  obtain ⟨x, hx, rfl⟩ := List.mem_map.mp hc
  exact h x (List.mem_filter.mp hx).1

theorem exists_call_of_queued (h : Conserved s) {c : PackCall} (hc : c ∈ queued s.sent) :
    Forwarded c ∧ ∃ p ∈ s.calls, p.2 = c := by
  obtain ⟨x, hx, rfl⟩ := List.mem_map.mp hc
  have hsent : x.call ∈ sentOf x.manager s.sent :=
    List.mem_map_of_mem (List.mem_filter.mpr ⟨(List.mem_filter.mp hx).1, decide_eq_true rfl⟩)
  have hcall := List.mem_append_left ((toNodes (s.sending x.manager)).map Sending.call) hsent
  rw [h.order x.manager] at hcall
  obtain ⟨hmem, hforward⟩ := List.mem_filter.mp hcall
  obtain ⟨p, hp, hpx⟩ := List.mem_map.mp hmem
  exact ⟨of_decide_eq_true hforward, p, (List.mem_filter.mp hp).1, hpx⟩

theorem conserved_command (h : Conserved s) (hs : s.command = some s') : Conserved s' := by
  obtain ⟨taken, waiting, hqueued, hline, hmessages⟩ := h.line
  have htype : ∀ d ∈ (s.queues .m2mid).messages, d.dataType = 1 := by
    intro d hd
    rw [hmessages] at hd
    obtain ⟨c, -, rfl⟩ := List.mem_map.mp hd
    rfl
  unfold State.command at hs
  cases hrcv : (s.queues .m2mid).msgrcv TData.dataType 1 with
  | none =>
      rw [hrcv] at hs
      exact Option.some.inj hs ▸ h
  | some p =>
      obtain ⟨data, q⟩ := p
      rw [hrcv] at hs
      dsimp only at hs
      have hfirst := MessageQueue.messages_of_msgrcv_of_forall htype hrcv
      rw [hmessages] at hfirst
      cases waiting with
      | nil => cases hfirst
      | cons c waiting =>
          obtain ⟨rfl, hrest⟩ := List.cons.inj hfirst
          split_ifs at hs with hin
          obtain rfl := Option.some.inj hs
          refine ⟨h.sending, h.sent, h.order, taken ++ [c], waiting, ?_, ?_, ?_⟩
          · rw [hqueued, List.append_assoc]
            rfl
          · have hc : IsCommand c := mem_of_queued h.sent c (by rw [hqueued]; simp)
            have hwrites := writes_eq hc hin
            unfold writes at hwrites
            dsimp only
            rw [hline, hwrites, List.flatMap_append, List.flatMap_singleton]
          · dsimp only
            rw [Function.update_self, ← hrest]

theorem conserved_step (h : Conserved s) (e : Event) (hs : s.step e = some s') :
    Conserved s' := by
  cases e with
  | connect receiveBuffer =>
      unfold State.step at hs
      dsimp only at hs
      split_ifs at hs
      · obtain rfl := Option.some.inj hs
        exact ⟨h.sending, h.sent, h.order, h.line⟩
      · exact Option.some.inj hs ▸ h
  | receive m answers r => exact conserved_receive h hs
  | msgsnd m allowed => exact Option.some.inj hs ▸ conserved_msgsnd h m allowed
  | command => exact conserved_command h hs

theorem conserved_run (h : Conserved s) : ∀ {events : List Event},
    s.run events = some s' → Conserved s' := by
  intro events
  induction events generalizing s with
  | nil => exact fun hs => Option.some.inj hs ▸ h
  | cons e events ih =>
      intro hs
      obtain ⟨s₁, hstep, hrun⟩ := Option.bind_eq_some_iff.mp hs
      exact ih (conserved_step h e hstep) hrun

/-- **What reaches the nodes**: in every order of the steps of the three programs in which none of
them leaves its defined behaviour, CommManager has written what belongs to the first of the commands
that found a place on the queue, in the order in which they were queued, and the others wait there;
each manager has made the calls of `msgsnd` for its commands that go to the nodes in their order,
each once. -/
theorem line_of_run {receiveBuffer : Manager → Mem} {events : List Event}
    (hs : (State.start receiveBuffer : State capacity).run events = some s) :
    (∃ taken waiting, queued s.sent = taken ++ waiting ∧ s.line = taken.flatMap nodeBytes ∧
        (s.queues .m2mid).messages = waiting.map message) ∧
      ∀ m, sentOf m s.sent ++ (toNodes (s.sending m)).map Sending.call =
        (callsOf m s.calls).filter (fun c => Forwarded c) :=
  have h := conserved_run (conserved_start receiveBuffer) hs
  ⟨h.line, h.order⟩

end

/-- What the system answers. -/
def noAnswers : Answers :=
  ⟨CommManager.noSystem, ⟨fun _ => -1, fun _ => 0, ⟨[], [], [], 0, 0⟩⟩⟩

/-- A restart from a client of M2MManager and a new configuration from one of SetupManager, which
CommManager takes in the order of their `msgsnd`; then a node is deleted, and byte 3 of this command
is more than `cmdTlv.value` has room for, but it does not go to the nodes. -/
def twoEvents : List Event :=
  [.connect (fun _ => 0), .receive .m2m noAnswers ⟨[0xFE, 2, 1, 5, 0xFF], fun _ => 0⟩,
    .receive .setup noAnswers ⟨[0xFE, 5, 0x12, 3, 7, 8, 1, 0xFF], fun _ => 0⟩,
    .msgsnd .setup true, .msgsnd .m2m true, .command, .msgsnd .setup true, .command,
    .receive .m2m noAnswers ⟨[0xFE, 4, 4, 0x11, 5, 0, 0xFF], fun _ => 0⟩, .msgsnd .m2m true,
    .command]

def two : State 2 :=
  ((State.start fun _ _ => 0).run twoEvents).getD (State.start fun _ _ => 0)

theorem run_two : (State.start fun _ _ => 0 : State 2).run twoEvents = some two := by
  have hsome : ((State.start fun _ _ => 0 : State 2).run twoEvents).isSome = true := by
    decide +kernel
  rw [two]
  cases hrun : (State.start fun _ _ => 0 : State 2).run twoEvents with
  | none =>
      rw [hrun] at hsome
      cases hsome
  | some s => rfl

theorem line_of_run_two :
    (∃ taken waiting, queued two.sent = taken ++ waiting ∧ two.line = taken.flatMap nodeBytes ∧
        (two.queues .m2mid).messages = waiting.map message) ∧
      two.line.map List.length = [29, 5] :=
  ⟨(line_of_run run_two).1, by decide +kernel⟩

/-- With the same byte 3 in a restart CommManager copies 17 bytes to `cmdTlv.value`, for a new
configuration of six bytes it looks behind `DataBuf`, and a command that sets the time makes its
manager run over `settime`. -/
example : ((State.start fun _ _ => 0 : State 2).run
    [.receive .m2m noAnswers ⟨[0xFE, 4, 1, 0x11, 5, 0, 0xFF], fun _ => 0⟩, .msgsnd .m2m true,
      .command]).isNone ∧
    ((State.start fun _ _ => 0 : State 2).run
      [.receive .setup noAnswers ⟨[0xFE, 3, 0x12, 2, 5, 0xFF], fun _ => 0⟩, .msgsnd .setup true,
        .command]).isNone ∧
    ((State.start fun _ _ => 0 : State 2).run
      [.receive .m2m noAnswers
        ⟨[0xFE, 9, 2, 7, 0, 13, 11, 15, 12, 30, 0, 0xFF], fun _ => 0⟩]).isNone := by
  decide +kernel

end IdcuIot.RemoteCommand
