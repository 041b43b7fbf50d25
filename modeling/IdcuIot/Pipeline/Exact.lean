import IdcuIot.Pipeline.Sound

/-! # The pipeline: a run without losses

If the driver finds room in the queue, no `send` fails and the driver is not started again, the
middleware is told of everything that was counted, but what is still on the queue (`told_exactly`).
What else goes wrong does no harm: a transaction that fails, a reply that is lost with its connection
and a restart of IoTManager leave a difference that the next count makes up for. -/

namespace IdcuIot

open Memory SqliteManager Driver Sampling

namespace Pipeline

variable {capacity : ℕ} {s : Pipeline capacity}

/-- A step at which no quantity is lost: the driver finds room in the queue, no `send` fails, and the
driver does not start again. -/
def Lossless (s : Pipeline capacity) : Event → Prop
  | .reply _ _ _ => s.queue.HasRoom
  | .turn t => t.send ≠ -1
  | .driverStart => False
  | _ => True

/-- Counts that never decrease, none of them 0, and no two too far apart for a signed number. -/
structure Regular (known : List UInt32) : Prop where
  sorted : known.Pairwise (· ≤ ·)
  pos : ∀ a ∈ known, a ≠ 0
  span : ∀ a ∈ known, ∀ b ∈ known, a ≤ b → (b - a).toNat < 2 ^ 31

theorem Regular.of_isPrefix {l l' : List UInt32} (h : Regular l') (hl : l <+: l') : Regular l where
  sorted := h.sorted.sublist hl.sublist
  pos a ha := h.pos a (hl.subset ha)
  span a ha b hb := h.span a (hl.subset ha) b (hl.subset hb)

/-- Everything that was counted between the counts that the driver was given is on the queue or has
reached the middleware. -/
structure Exact (s : Pipeline capacity) : Prop extends Sound s where
  total : quantities s.queued = increments s.seen
  told : s.told = quantities s.taken
  count : s.tag.Counts (s.seen.getLast?.getD 0)

theorem exact_start {row : Row} {outcomes : ℕ → TagServer.InitOutcome}
    (h : start capacity row outcomes = some s) : Exact s := by
  have hsound := sound_start h
  have hdelivered := hsound.delivered
  unfold start at h
  dsimp only at h
  split_ifs at h with hup
  obtain rfl := Option.some.inj h
  refine ⟨hsound, rfl, ?_, counts_start⟩
  unfold Pipeline.told
  rw [List.sublist_nil.mp hdelivered]
  rfl

theorem Sound.known_isPrefix (h : Sound s) (e : Event) : s.known <+: (s.step e).known := by
  cases e with
  | report r =>
      rcases step_report h.table r with heq | ⟨manager, new, heq, -, -⟩
      · rw [heq]
      · rw [heq]
        exact List.prefix_append _ _
  | restart rc => exact List.prefix_append _ _
  | request setBuffer cvalue sendType rc => exact List.prefix_refl _
  | reply byteBuffer cvalue sensingTime =>
      cases hin : s.inFlight with
      | nil => simp only [Pipeline.step, hin, List.prefix_refl]
      | cons reply inFlight =>
          obtain ⟨e, he, rfl⟩ := h.replies reply (hin ▸ List.mem_cons_self)
          obtain ⟨c, heq, -⟩ := step_reply he hin byteBuffer cvalue sensingTime
          obtain ⟨queue, new, hselect, -⟩ :=
            select_spec { s with inFlight := inFlight } sensingTime c
          rw [heq, hselect]
  | reconnect | driverStart => exact List.prefix_refl _
  | other data quiet =>
      obtain ⟨queue, new, heq, -⟩ := s.put_spec data
      simp only [Pipeline.step, heq, List.prefix_refl]
  | turn t =>
      rcases step_turn s t with ⟨heq, -⟩ | ⟨data, queue, server, heq, -⟩ <;> rw [heq]

/-- The driver is given the next count, and there is room in the queue. -/
theorem Exact.select {inFlight : List (List UInt8)} {c : SelectCall} {reply : List UInt8}
    (h : Exact s) (hin : s.inFlight = reply :: inFlight)
    (hc : (if c.type = 4 then [countOf (fun k => c.byteBuffer k)] else []) = countsIn reply)
    (hreg : Regular s.known) (hroom : s.queue.HasRoom) (sensingTime : UInt32) :
    Exact (Pipeline.select sensingTime { s with inFlight := inFlight } c) := by
  have hsound := h.toSound.select hin hc sensingTime
  obtain ⟨queue, new, heq, -, -, hnew⟩ := select_spec { s with inFlight := inFlight } sensingTime c
  set r := reading { s with inFlight := inFlight } sensingTime c
  have hcounts := h.count
  rw [heq] at hsound ⊢
  rw [hnew hroom] at hsound ⊢
  refine ⟨hsound, ?_, h.told, ?_⟩
  · dsimp only
    rw [quantities_append, h.total]
    by_cases h4 : c.type = 4
    · rw [if_pos h4, increments_append_singleton]
      refine congrArg (_ + ·) ?_
      cases hlast : s.seen.getLast? with
      | none =>
          rw [hlast] at hcounts
          exact TagState.quantities_message_zero (r := r) hcounts (fun _ => rfl)
      | some a =>
          rw [hlast] at hcounts
          -- both counts have been taken in, in this order
          have hmem : a ∈ s.seen := List.mem_of_getLast? hlast
          have hsamples := h.samples
          rw [hin, List.flatMap_cons, ← hc, if_pos h4, List.singleton_append,
            List.cons_append] at hsamples
          have hsorted := hsamples.pairwise (fun _ => UInt32.le_rfl) hreg.sorted
          have hle : a ≤ r.count :=
            (List.pairwise_append.mp hsorted).2.2 a hmem _ List.mem_cons_self
          have ha := hsamples.subset (List.mem_append_left _ hmem)
          have hcount := hsamples.subset (List.mem_append_right _ List.mem_cons_self)
          exact TagState.quantities_message (r := r) hcounts h4 (hreg.pos a ha) hle
            (hreg.span a ha _ hcount hle)
    · rw [if_neg h4, List.append_nil]
      have hzero := TagState.quantities_message_zero (r := r) hcounts (fun h => absurd h h4)
      exact (congrArg (_ + ·) hzero).trans (add_zero _)
  · dsimp only
    by_cases h4 : c.type = 4
    · rw [if_pos h4, List.getLast?_concat]
      exact (next_count (r := r) h4).1
    · rw [if_neg h4, List.append_nil]
      exact hcounts.next_other (r := r) h4

theorem Exact.step (h : Exact s) {e : Event} (hl : Lossless s e) (hreg : Regular s.known) :
    Exact (s.step e) := by
  have hsound := h.toSound.step e
  cases e with
  | report r =>
      rcases step_report h.table r with heq | ⟨manager, new, heq, -, -⟩
      · rwa [heq]
      · rw [heq] at hsound ⊢
        exact ⟨hsound, h.total, h.told, h.count⟩
  | restart rc => exact ⟨hsound, h.total, h.told, h.count⟩
  | request setBuffer cvalue sendType rc => exact ⟨hsound, h.total, h.told, h.count⟩
  | reply byteBuffer cvalue sensingTime =>
      cases hin : s.inFlight with
      | nil =>
          have heq : s.step (.reply byteBuffer cvalue sensingTime) = s := by
            simp only [Pipeline.step, hin]
          rwa [heq]
      | cons reply inFlight =>
          obtain ⟨e, he, rfl⟩ := h.replies reply (hin ▸ List.mem_cons_self)
          obtain ⟨c, heq, hc⟩ := step_reply he hin byteBuffer cvalue sensingTime
          rw [heq]
          exact h.select hin hc hreg hl sensingTime
  | reconnect => exact ⟨hsound, h.total, h.told, h.count⟩
  | driverStart => exact hl.elim
  | other data quiet =>
      obtain ⟨queue, new, heq, -, hnew, -⟩ := s.put_spec data
      have hzero : quantities new = 0 := by
        rcases List.sublist_singleton.mp hnew with rfl | rfl
        · exact quantities_nil
        · rw [quantities_singleton, quiet]
      simp only [Pipeline.step] at hsound ⊢
      rw [heq] at hsound ⊢
      refine ⟨hsound, ?_, h.told, h.count⟩
      dsimp only
      rw [quantities_append, h.total, hzero, add_zero]
  | turn t =>
      rcases step_turn s t with ⟨heq, -⟩ | ⟨data, queue, server, heq, hqueue, hserver⟩
      · rwa [heq]
      · rw [heq] at hsound ⊢
        refine ⟨hsound, h.total, ?_, h.count⟩
        have htold : (TagServer.delivered server.trace).map payloadQuantity =
            s.delivered.map payloadQuantity ++
              if data.dataType = 1 then [payloadQuantity data.bytes] else [] := by
          rw [hserver, List.map_append]
          by_cases htype : data.dataType = 1 <;> simp [htype, show t.send ≠ -1 from hl]
        have hquiet : data.dataType = 1 ∨ payloadQuantity data.bytes = 0 := by
          apply h.types data
          rw [h.queue, hqueue]
          exact List.mem_append_right _ List.mem_cons_self
        change ((TagServer.delivered server.trace).map payloadQuantity).sum = _
        dsimp only
        rw [htold, List.sum_append, quantities_append, quantities_singleton, ← h.told]
        refine congrArg (_ + ·) ?_
        split_ifs with htype
        · simp
        · exact (hquiet.resolve_left htype).symm

theorem run_append_singleton (s : Pipeline capacity) (events : List Event) (e : Event) :
    run s (events ++ [e]) = (run s events).step e := by
  unfold run
  rw [List.foldl_append, List.foldl_cons, List.foldl_nil]

/-- **In a run without losses the middleware is told of everything**: when the counts never decrease,
what it was told to add and what is still on the queue are together the difference of the last and
the first count that the driver was given. -/
theorem told_exactly (row : Row) (outcomes : ℕ → TagServer.InitOutcome)
    (h : start capacity row outcomes = some s) (events : List Event)
    (hlossless : History.AtEvery (fun before e => Lossless (run s before) e) events)
    (hreg : Regular (run s events).known) :
    ∀ a ∈ (run s events).seen.head?, ∀ b ∈ (run s events).seen.getLast?,
      (run s events).told + quantities (run s events).queue.messages = (b.toNat : ℤ) - a.toNat := by
  have hexact : Regular (run s events).known → Exact (run s events) := by
    refine hlossless.invariant (I := fun l => Regular (run s l).known → Exact (run s l))
      (fun _ => exact_start h) (fun l e hl he hreg => ?_)
    rw [run_append_singleton] at hreg ⊢
    have hbefore := hreg.of_isPrefix ((sound_run (sound_start h) l).known_isPrefix e)
    exact (hl hbefore).step he hbefore
  have hrun := hexact hreg
  intro a ha b hb
  have hqueue := congrArg quantities hrun.queue
  rw [quantities_append, ← hrun.told, hrun.total] at hqueue
  rw [← hqueue]
  have hsorted := (hrun.samples.pairwise (fun _ => UInt32.le_rfl) hreg.sorted).sublist
    (List.sublist_append_left _ _)
  obtain ⟨counts, hcounts⟩ : ∃ counts, (run s events).seen = a :: counts :=
    List.head?_eq_some_iff.mp ha
  rw [hcounts] at hsorted hb ⊢
  rw [increments_of_sorted counts hsorted.isChain]
  rw [List.getLast?_eq_getLast_of_ne_nil (List.cons_ne_nil a counts)] at hb
  rw [Option.some.inj hb]

theorem told_exactly_eight :
    (run eight eightEvents).told + quantities (run eight eightEvents).queue.messages = 5 := by
  have hknown : (run eight eightEvents).known = [3, 8] := by decide +kernel
  have hseen : (run eight eightEvents).seen = [3, 8] := by decide +kernel
  have hroom : ∀ n < 6, (run eight (eightEvents.take n)).queue.messages.length < 16 := by
    decide +kernel
  refine told_exactly (fun _ => ['3']) (fun _ => TagServer.connects) start_eight eightEvents ?_ ?_ 3
    (by rw [hseen]; rfl) 8 (by rw [hseen]; rfl)
  · intro before e after heq
    have hbefore : before = eightEvents.take before.length := by rw [heq, List.take_left]
    have hlt : before.length < 6 := by
      have hlen := congrArg List.length heq
      rw [List.length_append, List.length_cons, show eightEvents.length = 6 from rfl] at hlen
      omega
    have hmem : e ∈ eightEvents := heq ▸ List.mem_append_right _ List.mem_cons_self
    have hempty := hroom before.length hlt
    rw [← hbefore] at hempty
    simp only [eightEvents, List.mem_cons, List.not_mem_nil, or_false] at hmem
    rcases hmem with rfl | rfl | rfl | rfl | rfl | rfl
    · trivial
    · exact hempty
    · trivial
    · trivial
    · exact hempty
    · exact show (27 : ℤ) ≠ -1 by decide
  · rw [hknown]
    exact ⟨by simp, by simp, by simp⟩

end Pipeline

end IdcuIot
