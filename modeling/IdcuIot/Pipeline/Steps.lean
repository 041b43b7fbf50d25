import IdcuIot.Pipeline

/-! # The pipeline: what one step does

For each program, what it does with what it receives: IoTManager keeps one row in the table
(`save_oneRow`), answers the requests of the driver (`request_spec`), and the driver hands each reply
to `selectTag_iDCU_IoT` once (`reply_spec`). -/

namespace IdcuIot

open Memory Transaction SqliteManager Driver

/-! ### The table -/

namespace SqliteManager

/-- The table has one row, inside and outside the open transaction. -/
def OneRow (store : Store (List Row)) : Prop :=
  ∃ row, store.committed = [row] ∧ ∀ rows ∈ store.pending, ∃ row', rows = [row']

variable {store : Store (List Row)} {rows : List Row} {row : Row}

theorem oneRow_single (row : Row) : OneRow ⟨[row], none⟩ := ⟨row, rfl, by simp⟩

theorem OneRow.visible (h : OneRow store) : ∃ row, store.visible = [row] := by
  obtain ⟨row, hcommitted, hpending⟩ := h
  unfold Store.visible
  cases hp : store.pending with
  | none => exact ⟨row, hcommitted⟩
  | some rows => exact hpending rows hp

theorem OneRow.restart (h : OneRow store) : OneRow store.restart := by
  obtain ⟨row, hcommitted, -⟩ := h
  exact ⟨row, hcommitted, by simp [Store.restart]⟩

/-- The table has one row, which is one of two. -/
structure Between (old new : Row) (store : Store (List Row)) : Prop where
  committed : store.committed = [old] ∨ store.committed = [new]
  pending : ∀ rows ∈ store.pending, rows = [old] ∨ rows = [new]

variable {old new : Row}

theorem Between.visible (h : Between old new store) :
    store.visible = [old] ∨ store.visible = [new] := by
  unfold Store.visible
  cases hp : store.pending with
  | none => exact h.committed
  | some rows => exact h.pending rows hp

theorem Between.oneRow (h : Between old new store) : OneRow store := by
  have hpending : ∀ rows ∈ store.pending, ∃ row', rows = [row'] := fun rows hrows =>
    (h.pending rows hrows).elim (fun h => ⟨_, h⟩) (fun h => ⟨_, h⟩)
  exact h.committed.elim (fun h => ⟨_, h, hpending⟩) (fun h => ⟨_, h, hpending⟩)

end SqliteManager

namespace IoTManager

theorem fail_cases (store : Store (List Row)) (o : Outcome) :
    store.fail o = store ∨ store.fail o = store.restart := by
  unfold Store.fail
  split_ifs
  · exact Or.inr rfl
  · exact Or.inl rfl

/-- What `endLoop` makes of the store: it leaves it alone, gives the transaction up, or ends it. -/
theorem endLoop_cases (os : List Outcome) : ∀ {db db' : Db}, endLoop db os = some db' →
    db'.store = db.store ∨ db'.store = db.store.restart ∨
      ∃ rows ∈ db.store.pending, db'.store = ⟨rows, none⟩ := by
  induction os with
  | nil => intro db db' h; cases h
  | cons o os ih =>
      intro db db' h
      simp only [endLoop, sqlite3Transaction_end] at h
      cases hp : db.store.pending with
      | none =>
          rw [Store.commit_of_closed o hp, if_neg (by simp)] at h
          obtain rfl := Option.some.inj h
          exact Or.inl rfl
      | some rows =>
          by_cases hok : o.rc = .ok
          · rw [Store.commit_ok hp hok, if_neg (by simp)] at h
            obtain rfl := Option.some.inj h
            exact Or.inr (Or.inr ⟨rows, rfl, rfl⟩)
          · rw [Store.commit_of_ne hp hok] at h
            by_cases hother : o.rc = .other
            · -- END is tried again
              rw [hother, if_pos (by simp)] at h
              rcases fail_cases db.store o with hfail | hfail
              · have hrest := ih h
                rwa [hfail, hp] at hrest
              · rcases ih h with hrest | hrest | ⟨rows', hrows, -⟩
                · exact Or.inr (Or.inl (hrest.trans hfail))
                · exact Or.inr (Or.inl (hrest.trans (by rw [hfail]; rfl)))
                · rw [hfail] at hrows
                  cases hrows
            · rw [if_neg (by simp [hother])] at h
              obtain rfl := Option.some.inj h
              exact (fail_cases db.store o).imp id Or.inl

theorem endLoop_between {db db' : Db} {os : List Outcome} {old new : Row}
    (h : Between old new db.store) (hl : endLoop db os = some db') : Between old new db'.store := by
  rcases endLoop_cases os hl with hstore | hstore | ⟨rows, hrows, hstore⟩
  · rwa [hstore]
  · rw [hstore]
    exact ⟨h.committed, by simp [Store.restart]⟩
  · rw [hstore]
    exact ⟨h.pending rows hrows, by simp⟩

/-- A transaction leaves one row in the table, and it shows the row that was shown before or the
one that was to be saved. -/
theorem save_oneRow {db db' : Db} {node : MGData} {o : Outcomes} (h : OneRow db.store)
    (hs : save db node o = some db') : OneRow db'.store ∧
      (db'.store.visible = db.store.visible ∨ db'.store.visible = [rowOf node]) := by
  obtain ⟨row, hcommitted, hpending⟩ := h
  simp only [save, sqlite3Transaction_begin, sqlite3Update_snd] at hs
  cases hp : db.store.pending with
  | some rows =>
      -- no transaction can be opened inside another one
      have hrc : (db.store.start o.insertBegin) = (.error, db.store) := by
        unfold Store.start
        rw [if_pos (by rw [hp]; rfl)]
      rw [hrc, if_neg (by simp)] at hs
      obtain rfl := Option.some.inj hs
      exact ⟨⟨row, hcommitted, hpending⟩, Or.inl rfl⟩
  | none =>
      have hvisible : db.store.visible = [row] := (Store.visible_of_closed hp).trans hcommitted
      by_cases hbegin : o.insertBegin.rc = .ok
      · rw [Store.start_ok hp hbegin, if_pos rfl] at hs
        have hupdated : Between row (rowOf node) (Store.write
            { db.store with pending := some db.store.committed }
            (fun rows => rows.map (fun _ => rowOf node)) o.update).2 := by
          by_cases hupdate : o.update.rc = .ok
          · rw [Store.write_ok _ rfl hupdate, hcommitted]
            exact ⟨Or.inl rfl, by simp⟩
          · obtain ⟨hcom, hpen⟩ := Store.write_of_ne
              (s := { db.store with pending := some db.store.committed })
              (fun rows => rows.map (fun _ => rowOf node)) hupdate
            refine ⟨Or.inl (hcom.trans hcommitted), fun rows hrows => ?_⟩
            rcases hpen with hpen | hpen
            · rw [hpen] at hrows
              exact Or.inl ((Option.some.inj hrows).symm.trans hcommitted)
            · rw [hpen] at hrows
              cases hrows
        have hbetween := endLoop_between hupdated hs
        rw [hvisible]
        exact ⟨hbetween.oneRow, hbetween.visible⟩
      · have hrc : (db.store.start o.insertBegin).1 ≠ .ok := by
          rw [Store.rc_start hp]
          exact hbegin
        rw [if_neg hrc, if_neg (by decide)] at hs
        obtain rfl := Option.some.inj hs
        dsimp only
        rw [Store.start_of_ne hrc]
        exact ⟨⟨row, hcommitted, hpending⟩, Or.inl rfl⟩

/-- A report leaves one row in the table, which shows the counts it showed before or those of the
report. -/
theorem receiveEvent_oneRow {s s' : State} {r : Report} (h : OneRow s.db.store)
    (hr : receiveEvent s r = some s') : OneRow s'.db.store ∧
      (s'.db.store.visible = s.db.store.visible ∨
        r.Counts ∧ s'.db.store.visible = [rowOf (nodeOf r.buffer)]) := by
  rcases receiveEvent_cases hr with ⟨-, -, hdb⟩ | ⟨hcounts, -, ⟨-, hsave⟩ | ⟨-, hdb⟩⟩
  · rw [hdb]
    exact ⟨h, Or.inl rfl⟩
  · obtain ⟨hrow, hvisible⟩ := save_oneRow h hsave
    exact ⟨hrow, hvisible.imp_right (fun hnew => ⟨hcounts, hnew⟩)⟩
  · rw [hdb]
    exact ⟨h, Or.inl rfl⟩

theorem db_init (s : State) (rc : Rc) : (init s rc).2.db = s.db := by
  have hfold : ∀ (data : SQLite3Data) (rows : List ℕ) (s : State),
      (rows.foldl (initRow data) s).db = s.db := by
    intro data rows
    induction rows with
    | nil => exact fun _ => rfl
    | cons i rows ih => exact fun s => ih _
  unfold init
  dsimp only
  split_ifs
  · exact hfold _ _ s
  · rfl

/-! ### Requests and replies -/

theorem calls_request (setBuffer cvalue : Mem) (sendType : Bool) :
    ∃ c, (parsingReceiveValue setBuffer (cvalue.store 0 (Polling.idcuIot.sendBuf sendType))
        (Polling.idcuIot.sendBuf sendType).length 0).calls = [c] ∧
      commandProcess c.setBuffer =
        some (if sendType = true then .getCommStatus else .getIOStatus) := by
  obtain ⟨q, hq⟩ : ∃ q : Request, q.bytes = Polling.idcuIot.sendBuf sendType := by
    cases sendType with
    | false => exact ⟨⟨0, 0, 0, [0x01, 0x02, 0x00, 0x10, 0x00, 0x08], by decide⟩, rfl⟩
    | true => exact ⟨⟨0, 0, 0, [0x01, 0x04, 0x00, 0x10, 0x00, 0x10], by decide⟩, rfl⟩
  have hlen : q.bytes.length = 12 := by
    rw [hq]
    cases sendType <;> rfl
  have htype : ∀ h : 7 < q.bytes.length, q.bytes[7] = if sendType = true then 4 else 2 := by
    rw [hq]
    cases sendType <;> exact fun _ => rfl
  rw [← hq]
  have hm := Mem.slice_store cvalue 0 q.bytes
  have hscan : Scan.Scans (requestProbe (cvalue.store 0 q.bytes)) q.bytes.length 0
      [⟨0, q.bytes.length⟩] false :=
    .hit (by omega) (requestProbe_of_request hm) (.done (by omega))
  refine ⟨⟨0, q.bytes.length, setBuffer.memcpy 0 (cvalue.store 0 q.bytes) 0 q.bytes.length⟩, ?_, ?_⟩
  · unfold parsingReceiveValue
    rw [tcpParser.parsingReceiveValue_eq (requestProbe_advances _) hscan, if_neg Bool.false_ne_true]
    rfl
  · have hcopy := Mem.slice_memcpy setBuffer 0 (cvalue.store 0 q.bytes) 0 q.bytes.length
    rw [hm] at hcopy
    have hbyte := Mem.eq_getElem_of_slice hcopy (show 7 < q.bytes.length by omega)
    rw [htype, Nat.zero_add] at hbyte
    unfold commandProcess
    dsimp only
    rw [hbyte]
    cases sendType <;> rfl

/-- The counts of the row that the table shows. -/
def shown (row : Row) : MGData := ⟨fun k => count (row k)⟩

theorem getCommStatus_oneRow {db : Db} {row : Row} (h : db.store.visible = [row]) (rc : Rc) :
    getCommStatus db rc = none ∨
      getCommStatus db rc = some (replyBytes (4, channels (shown row))) := by
  by_cases hrc : rc = .ok
  · rw [hrc, getCommStatus_of_row h (show Holds row (shown row) from fun _ => rfl), replyBytes,
      length_channels]
    exact Or.inr rfl
  · unfold getCommStatus sqlite3Select
    rw [if_pos hrc]
    exact Or.inl rfl

end IoTManager

namespace Pipeline

variable {capacity : ℕ} {s : Pipeline capacity}

/-- A reply that IoTManager sends. -/
def IsReply (reply : List UInt8) : Prop := ∃ e, IsEvent e ∧ replyBytes e = reply

theorem countsIn_commStatus (node : MGData) :
    countsIn (replyBytes (4, channels node)) = [node.cnt 0] := by
  have hcount : ∀ k : Fin 4, (replyBytes (4, channels node)).getD (9 + k) 0 =
      (IoTManager.channel (node.cnt 0)).getD k 0 := fun k => getD_reply node 0 k
  have htype : (replyBytes (4, channels node)).getD 7 0 = 4 := rfl
  unfold countsIn
  rw [if_pos htype, funext hcount, countOf_channel]

/-- A report that is handled leaves one row in the table, which shows the count it showed before or
that of the report. -/
theorem step_report (h : OneRow s.manager.db.store) (r : IoTManager.Report) :
    s.step (.report r) = s ∨ ∃ manager new, s.step (.report r) =
        { s with manager := manager, known := s.known ++ new } ∧ OneRow manager.db.store ∧
      (manager.db.store.visible = s.manager.db.store.visible ∨
        counts manager.db.store.visible = new) := by
  simp only [step]
  cases hr : IoTManager.receiveEvent s.manager r with
  | none => exact Or.inl rfl
  | some manager =>
      obtain ⟨htable, hvisible⟩ := IoTManager.receiveEvent_oneRow h hr
      refine Or.inr ⟨manager, _, rfl, htable, hvisible.imp_right ?_⟩
      rintro ⟨hcounts, hnew⟩
      rw [hnew, if_pos hcounts, counts_singleton, rowOf, count_port]
      rfl

theorem step_restart (h : OneRow s.manager.db.store) (rc : Rc) : ∃ manager, s.step (.restart rc) =
      { s with
        manager := manager
        known := s.known ++ counts s.manager.db.store.committed } ∧
    OneRow manager.db.store ∧ manager.db.store.visible = s.manager.db.store.committed := by
  refine ⟨_, rfl, ?_, ?_⟩
  · rw [IoTManager.db_init]
    exact h.restart
  · rw [IoTManager.db_init]
    exact Store.visible_of_closed rfl

/-- A request leaves one reply on the connection, which carries no count or the one that the table
shows, or none. -/
theorem step_request (h : OneRow s.manager.db.store) (setBuffer cvalue : Mem) (sendType : Bool)
    (rc : Rc) : ∃ replies, s.step (.request setBuffer cvalue sendType rc) =
        { s with inFlight := s.inFlight ++ replies } ∧ (∀ reply ∈ replies, IsReply reply) ∧
      (replies.flatMap countsIn = [] ∨
        replies.flatMap countsIn = counts s.manager.db.store.visible) := by
  obtain ⟨c, hcalls, hcommand⟩ := IoTManager.calls_request setBuffer cvalue sendType
  obtain ⟨row, hrow⟩ := h.visible
  refine ⟨answer s.manager rc (if sendType = true then .getCommStatus else .getIOStatus), ?_, ?_⟩
  · simp only [step, hcalls, List.flatMap_singleton, hcommand, Option.elim_some]
  · cases sendType with
    | false =>
        refine ⟨fun reply hreply => ⟨(2, [IoTManager.ioStatus s.manager.io]), ⟨.ioStatus _, rfl⟩, ?_⟩,
          Or.inl rfl⟩
        exact (List.mem_singleton.mp hreply).symm
    | true =>
        change (∀ reply ∈ (IoTManager.getCommStatus s.manager.db rc).toList, IsReply reply) ∧ _
        rcases IoTManager.getCommStatus_oneRow hrow rc with hnone | hsome
        · simp [answer, hnone]
        · simp only [answer, hsome, hrow, Option.toList_some, List.mem_singleton, forall_eq,
            List.flatMap_singleton, if_true]
          exact ⟨⟨_, ⟨.commStatus _ (length_channels _), rfl⟩, rfl⟩,
            Or.inr (countsIn_commStatus _)⟩

/-- A reply is handed to `selectTag_iDCU_IoT` once, with the count that it carries. -/
theorem step_reply {e : UInt8 × List UInt8} {inFlight : List (List UInt8)} (he : IsEvent e)
    (h : s.inFlight = replyBytes e :: inFlight) (byteBuffer cvalue : Mem) (sensingTime : UInt32) :
    ∃ c : SelectCall, s.step (.reply byteBuffer cvalue sensingTime) =
        select sensingTime { s with inFlight := inFlight } c ∧
      (if c.type = 4 then [countOf (fun k => c.byteBuffer k)] else []) = countsIn (replyBytes e) := by
  obtain ⟨c, hcalls, hevent, -⟩ := parsingReceiveValue_alone byteBuffer
    (cvalue.store 0 (replyBytes e)) 0 he.length_le (Mem.slice_store cvalue 0 (replyBytes e))
  refine ⟨c, ?_, ?_⟩
  · simp only [step, h, hcalls, List.foldl_cons, List.foldl_nil]
  · obtain ⟨r, rfl⟩ := he
    obtain ⟨htype, hbytes⟩ := Prod.mk.inj hevent
    cases r with
    | ioStatus io =>
        rw [show c.type = 2 from htype]
        rfl
    | commStatus channel whole =>
        have hbyte : ∀ k : Fin 4, (replyBytes (4, channel)).getD (9 + k) 0 = c.byteBuffer k := by
          intro k
          have hk : (k : ℕ) < channel.length := by omega
          have hget := Mem.eq_getElem_of_slice hbytes hk
          rw [Nat.zero_add] at hget
          rw [hget, replyBytes, List.getD_append_right _ _ _ _ (by simp),
            List.getD_eq_getElem _ _ (by simpa using hk)]
          simp
        have hfour : (replyBytes (4, channel)).getD 7 0 = 4 := rfl
        unfold countsIn Reply.event
        rw [if_pos (show c.type = 4 from htype), if_pos hfour, funext hbyte]

/-! ### The queue -/

/-- What `put` does: the message is put behind the others when there is room. -/
theorem put_spec (s : Pipeline capacity) (data : TData) : ∃ queue new,
    s.put data = { s with queue := queue, queued := s.queued ++ new } ∧
      queue.messages = s.queue.messages ++ new ∧ new.Sublist [data] ∧
      (s.queue.HasRoom → new = [data]) := by
  unfold put
  cases hsend : s.queue.msgsnd data with
  | none =>
      refine ⟨s.queue, [], by simp, by simp, List.nil_sublist _, fun hroom => ?_⟩
      obtain ⟨queue, hqueue, -⟩ := MessageQueue.msgsnd_of_hasRoom hroom data
      rw [hsend] at hqueue
      cases hqueue
  | some queue =>
      exact ⟨queue, [data], rfl, (MessageQueue.messages_of_msgsnd hsend).2, List.Sublist.refl _,
        fun _ => rfl⟩

theorem select_spec (s : Pipeline capacity) (sensingTime : UInt32) (c : SelectCall) :
    ∃ queue new, select sensingTime s c =
        { s with
          tag := s.tag.next (s.reading sensingTime c)
          seen := s.seen ++ if c.type = 4 then [countOf (fun k => c.byteBuffer k)] else []
          queue := queue
          queued := s.queued ++ new } ∧
      queue.messages = s.queue.messages ++ new ∧
      new.Sublist (s.tag.message (s.reading sensingTime c)).toList ∧
      (s.queue.HasRoom → new = (s.tag.message (s.reading sensingTime c)).toList) := by
  unfold select
  dsimp only
  cases s.tag.message (s.reading sensingTime c) with
  | none =>
      refine ⟨s.queue, [], ?_, by simp, List.nil_sublist _, fun _ => rfl⟩
      rw [List.append_nil]
      rfl
  | some data => exact put_spec _ data

/-- What a turn of tagServer does: it delivers the first message, or nothing. -/
theorem step_turn (s : Pipeline capacity) (t : TagServer.Turn) :
    (s.step (.turn t) = s ∧ s.queue.msgrcvFirst = none) ∨ ∃ data queue server,
      s.step (.turn t) =
        { s with queue := queue, taken := s.taken ++ [data], server := server } ∧
      s.queue.messages = data :: queue.messages ∧
      TagServer.delivered server.trace = s.delivered ++
        if data.dataType = 1 ∧ t.send ≠ -1 then [data.bytes] else [] := by
  cases hfirst : s.queue.msgrcvFirst with
  | none => exact Or.inl ⟨by simp only [step, hfirst], rfl⟩
  | some r =>
      obtain ⟨data, queue⟩ := r
      refine Or.inr ⟨data, queue,
        ((TagServer.mainLoop { t with message := some data }).run s.server).2,
        by simp only [step, hfirst], MessageQueue.messages_of_msgrcvFirst hfirst, ?_⟩
      rw [TagServer.delivered_mainLoop, TagServer.Turn.delivery, delivered, Option.bind_some]
      by_cases htype : data.dataType = 1 <;> by_cases hsend : t.send = -1 <;> simp [htype, hsend]

end Pipeline

end IdcuIot
