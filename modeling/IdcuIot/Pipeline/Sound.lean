import IdcuIot.Pipeline.Quantities
import IdcuIot.Pipeline.Steps

/-! # The pipeline: what holds whatever fails

The counts that the driver is given are samples of those that IoTManager has taken in, and the
quantities that it puts on the queue are at most what is counted between the samples (`Sound`).  So
the middleware is never told of more than was counted, whatever fails and in whatever order things
happen (`told_le_increments`), and what it is told comes in order (`delivered_in_order`). -/

namespace IdcuIot

open Memory Transaction SqliteManager Driver Sampling

namespace Pipeline

variable {capacity : ℕ} {s : Pipeline capacity}

/-- What holds whatever fails.  The counts that the driver was given, those on their way to it and
the one that the table shows are samples of the counts that IoTManager has taken in. -/
structure Sound (s : Pipeline capacity) : Prop where
  table : OneRow s.manager.db.store
  replies : ∀ reply ∈ s.inFlight, IsReply reply
  samples : Samples
    (s.seen ++ (s.inFlight.flatMap countsIn ++ counts s.manager.db.store.visible)) s.known
  last : ∃ a, s.tag.Counts a ∧ (a ≠ 0 → s.seen.getLast? = some a)
  queue : s.queued = s.taken ++ s.queue.messages
  types : ∀ data ∈ s.queued, data.dataType = 1 ∨ payloadQuantity data.bytes = 0
  delivered : s.delivered.Sublist (s.taken.map TData.bytes)
  gains : gains s.queued ≤ increments s.seen

theorem sound_start {row : Row} {outcomes : ℕ → TagServer.InitOutcome}
    (h : start capacity row outcomes = some s) : Sound s := by
  unfold start at h
  dsimp only at h
  split_ifs at h with hup
  obtain rfl := Option.some.inj h
  have hdb : (IoTManager.init (IoTManager.boot ⟨⟨[row], none⟩, []⟩) .ok).2.db =
      ⟨⟨[row], none⟩, []⟩ := IoTManager.db_init _ _
  constructor
  · dsimp only
    rw [hdb]
    exact oneRow_single row
  · simp
  · dsimp only
    rw [hdb]
    exact Samples.refl (counts [row])
  · exact ⟨0, counts_start, fun h => absurd rfl h⟩
  · rfl
  · simp
  · have hnone := TagServer.keeps_startUp outcomes 3 TagServer.start (d := []) rfl
    change List.Sublist (TagServer.delivered _) []
    rw [hnone]
  · exact le_rfl

theorem Sound.put (h : Sound s) {data : TData}
    (hdata : payloadQuantity data.bytes = 0) : Sound (s.put data) := by
  obtain ⟨queue, new, heq, hqueue, hnew, -⟩ := s.put_spec data
  have hquiet : ∀ d ∈ new, payloadQuantity d.bytes = 0 := fun d hd => by
    rw [List.mem_singleton.mp (hnew.subset hd)]
    exact hdata
  rw [heq]
  refine { h with queue := ?_, types := ?_, gains := ?_ }
  · dsimp only
    rw [h.queue, hqueue, List.append_assoc]
  · exact List.forall_mem_append.mpr ⟨h.types, fun d hd => Or.inr (hquiet d hd)⟩
  · have hzero := gains_le_of_sublist hnew
    have hone : IdcuIot.gains [data] = 0 := by simp [IdcuIot.gains, gain, hdata]
    have hold := h.gains
    dsimp only
    rw [gains_append]
    omega

theorem Sound.select {inFlight : List (List UInt8)} {c : SelectCall} {reply : List UInt8}
    (h : Sound s) (hin : s.inFlight = reply :: inFlight)
    (hc : (if c.type = 4 then [countOf (fun k => c.byteBuffer k)] else []) = countsIn reply)
    (sensingTime : UInt32) :
    Sound (Pipeline.select sensingTime { s with inFlight := inFlight } c) := by
  obtain ⟨queue, new, heq, hqueue, hnew, -⟩ :=
    select_spec { s with inFlight := inFlight } sensingTime c
  obtain ⟨a, ha, hlast⟩ := h.last
  set r := reading { s with inFlight := inFlight } sensingTime c
  have hgains := (gains_le_of_sublist hnew).trans (TagState.gains_message_le ha (r := r))
  have hold := h.gains
  rw [heq]
  refine ⟨h.table, ?_, ?_, ?_, ?_, ?_, h.delivered, ?_⟩
  · exact fun reply hreply => h.replies reply (hin ▸ List.mem_cons_of_mem _ hreply)
  · have hsamples := h.samples
    rw [hin, List.flatMap_cons, ← hc] at hsamples
    simpa only [List.append_assoc] using hsamples
  · by_cases h4 : c.type = 4
    · refine ⟨r.count, (next_count (r := r) h4).1, fun _ => ?_⟩
      dsimp only
      rw [if_pos h4, List.getLast?_concat]
      rfl
    · refine ⟨a, ha.next_other (r := r) h4, fun hne => ?_⟩
      dsimp only
      rw [if_neg h4, List.append_nil]
      exact hlast hne
  · dsimp only
    rw [h.queue, hqueue, List.append_assoc]
  · refine List.forall_mem_append.mpr ⟨h.types, fun data hdata => Or.inl ?_⟩
    rcases TagState.message_cases ha (Option.mem_toList.mp (hnew.subset hdata)) with
      ⟨-, wo, rfl⟩ | ⟨-, -, -, rfl⟩ <;> rfl
  · dsimp only
    rw [gains_append]
    by_cases h4 : c.type = 4
    · rw [if_pos h4, increments_append_singleton]
      by_cases hzero : a = 0
      · rw [if_neg (fun h => h.2 hzero)] at hgains
        have hnonneg : 0 ≤ (s.seen.getLast?.map
            (fun b => rise b (countOf (fun k => c.byteBuffer k)))).getD 0 := by
          cases s.seen.getLast? with
          | none => exact le_rfl
          | some b => exact rise_distance.nonneg b _
        omega
      · rw [if_pos ⟨h4, hzero⟩] at hgains
        rw [hlast hzero]
        exact add_le_add hold hgains
    · rw [if_neg (fun h => h4 h.1)] at hgains
      rw [if_neg h4, List.append_nil]
      omega

/-- What the driver was given and what is on its way to it are samples without the table. -/
theorem Sound.before_table (h : Sound s) :
    Samples (s.seen ++ s.inFlight.flatMap countsIn) s.known := by
  apply h.samples.of_sublist
  rw [← List.append_assoc]
  exact List.sublist_append_left _ _

theorem Sound.dropped (h : Sound s) : Samples (s.seen ++ (([] : List (List UInt8)).flatMap countsIn ++
    counts s.manager.db.store.visible)) s.known := by
  refine h.samples.of_sublist ((List.Sublist.refl _).append ?_)
  exact (List.nil_sublist _).append (List.Sublist.refl _)

theorem Sound.report (h : Sound s) (r : IoTManager.Report) : Sound (s.step (.report r)) := by
  rcases step_report h.table r with heq | ⟨manager, new, heq, htable, hvisible⟩
  · rwa [heq]
  · rw [heq]
    refine { h with table := htable, samples := ?_ }
    dsimp only
    rcases hvisible with hsame | hnew
    · rw [hsame]
      exact h.samples.append_right new
    · rw [hnew, ← List.append_assoc]
      exact h.before_table.append (Samples.refl new)

theorem Sound.request (h : Sound s) (setBuffer cvalue : Mem) (sendType : Bool)
    (rc : Transaction.Rc) : Sound (s.step (.request setBuffer cvalue sendType rc)) := by
  obtain ⟨replies, heq, hreplies, hcounts⟩ := step_request h.table setBuffer cvalue sendType rc
  rw [heq]
  refine { h with replies := List.forall_mem_append.mpr ⟨h.replies, hreplies⟩, samples := ?_ }
  dsimp only
  rw [List.flatMap_append]
  rcases hcounts with hnone | hshown
  · rw [hnone, List.append_nil]
    exact h.samples
  · -- the count that the table shows is looked at once more
    obtain ⟨row, hrow⟩ := h.table.visible
    have hsamples := h.samples
    rw [hshown]
    rw [hrow] at hsamples ⊢
    rw [← List.append_assoc] at hsamples
    have hagain := hsamples.again
    simpa only [counts, List.map_cons, List.map_nil, List.append_assoc, List.singleton_append]
      using hagain

theorem Sound.turn (h : Sound s) (t : TagServer.Turn) : Sound (s.step (.turn t)) := by
  rcases step_turn s t with ⟨heq, -⟩ | ⟨data, queue, server, heq, hqueue, hserver⟩
  · rwa [heq]
  · rw [heq]
    refine { h with queue := ?_, delivered := ?_ }
    · dsimp only
      rw [h.queue, hqueue, List.append_assoc, List.singleton_append]
    · change (TagServer.delivered server.trace).Sublist _
      rw [hserver, List.map_append]
      apply h.delivered.append
      split_ifs
      · exact List.Sublist.refl _
      · exact List.nil_sublist _

theorem Sound.step (h : Sound s) (e : Event) : Sound (s.step e) := by
  cases e with
  | report r => exact h.report r
  | restart rc =>
      obtain ⟨manager, heq, htable, hvisible⟩ := step_restart h.table rc
      rw [heq]
      refine { h with table := htable, samples := ?_ }
      dsimp only
      rw [hvisible, ← List.append_assoc]
      exact h.before_table.append (Samples.refl _)
  | request setBuffer cvalue sendType rc => exact h.request setBuffer cvalue sendType rc
  | reply byteBuffer cvalue sensingTime =>
      cases hin : s.inFlight with
      | nil =>
          have heq : s.step (.reply byteBuffer cvalue sensingTime) = s := by
            simp only [Pipeline.step, hin]
          rwa [heq]
      | cons reply inFlight =>
          obtain ⟨e, he, rfl⟩ := h.replies reply (hin ▸ List.mem_cons_self)
          obtain ⟨c, heq, hc⟩ := step_reply he hin byteBuffer cvalue sensingTime
          rw [heq]
          exact h.select hin hc sensingTime
  | reconnect =>
      exact { h with replies := List.forall_mem_nil _, samples := h.dropped }
  | driverStart =>
      exact { h with
        replies := List.forall_mem_nil _
        samples := h.dropped
        last := ⟨0, counts_start, fun hne => absurd rfl hne⟩ }
  | other data quiet => exact h.put quiet
  | turn t => exact h.turn t

theorem sound_run (h : Sound s) (events : List Event) : Sound (run s events) := by
  induction events generalizing s with
  | nil => exact h
  | cons e events ih => exact ih (h.step e)

/-- **The middleware is never told of more than was counted**, whatever fails and in whatever order
things happen: what the payloads that it received tell it to add is at most what is counted between
the counts that IoTManager has taken in. -/
theorem told_le_increments (row : Row) (outcomes : ℕ → TagServer.InitOutcome)
    (h : start capacity row outcomes = some s) (events : List Event) :
    (run s events).told ≤ increments (run s events).known := by
  have hsound := sound_run (sound_start h) events
  have hpayloads : ∀ payloads : List (List UInt8),
      (payloads.map payloadQuantity).sum ≤ (payloads.map (fun p => max 0 (payloadQuantity p))).sum :=
    fun payloads => List.sum_le_sum (fun p _ => le_max_right 0 _)
  have hnonneg : ∀ x ∈ ((run s events).taken.map TData.bytes).map
      (fun p => max 0 (payloadQuantity p)), (0 : ℤ) ≤ x := by
    intro x hx
    obtain ⟨p, -, rfl⟩ := List.mem_map.mp hx
    exact le_max_left 0 _
  calc (run s events).told
      ≤ ((run s events).delivered.map (fun p => max 0 (payloadQuantity p))).sum := hpayloads _
    _ ≤ (((run s events).taken.map TData.bytes).map (fun p => max 0 (payloadQuantity p))).sum :=
        (hsound.delivered.map _).sum_le_sum hnonneg
    _ = gains (run s events).taken := by rw [List.map_map]; rfl
    _ ≤ gains (run s events).queued := by
        apply gains_le_of_sublist
        rw [hsound.queue]
        exact List.sublist_append_left _ _
    _ ≤ increments (run s events).seen := hsound.gains
    _ ≤ increments (run s events).known :=
        increments_le_of_samples (hsound.samples.of_sublist (List.sublist_append_left _ _))

/-- A report that the first port has counted eight, saved at once. -/
def eightReport : IoTManager.Report :=
  { buffer := Mem.store (fun _ => 0) 4 [0, 0, 0, 8]
    outcomes := ⟨⟨.ok, false⟩, ⟨.ok, false⟩, [⟨.ok, false⟩]⟩ }

/-- The driver asks before and after the report, and tagServer reports the difference. -/
def eightEvents : List Event :=
  [.request (fun _ => 0) (fun _ => 0) true .ok, .reply (fun _ => 0) (fun _ => 0) 0,
    .report eightReport, .request (fun _ => 0) (fun _ => 0) true .ok,
    .reply (fun _ => 0) (fun _ => 0) 0, .turn ⟨none, 0, 27, TagServer.connects⟩]

/-- The programs when three have been counted before. -/
def eight : Pipeline 16 := (start 16 (fun _ => ['3']) (fun _ => TagServer.connects)).get rfl

theorem start_eight : start 16 (fun _ => ['3']) (fun _ => TagServer.connects) = some eight := rfl

theorem told_le_increments_eight : (run eight eightEvents).told ≤ increments [3, 8] := by
  have hknown : (run eight eightEvents).known = [3, 8] := by decide +kernel
  rw [← hknown]
  exact told_le_increments (fun _ => ['3']) (fun _ => TagServer.connects) start_eight eightEvents

/-- **In order, and each at most once**: the payloads that the middleware received are those of
messages that were put on the queue, in their order; what was put on the queue was taken from it in
that order, or is still there. -/
theorem delivered_in_order (row : Row) (outcomes : ℕ → TagServer.InitOutcome)
    (h : start capacity row outcomes = some s) (events : List Event) :
    (run s events).delivered.Sublist ((run s events).queued.map TData.bytes) ∧
      (run s events).queued = (run s events).taken ++ (run s events).queue.messages := by
  have hsound := sound_run (sound_start h) events
  refine ⟨hsound.delivered.trans ?_, hsound.queue⟩
  rw [hsound.queue, List.map_append]
  exact List.sublist_append_left _ _

theorem delivered_in_order_eight :
    (run eight eightEvents).delivered.Sublist ((run eight eightEvents).queued.map TData.bytes) :=
  (delivered_in_order (fun _ => ['3']) (fun _ => TagServer.connects) start_eight eightEvents).1

end Pipeline

end IdcuIot
