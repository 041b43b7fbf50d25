import IdcuIot.Lib.History
import IdcuIot.SfSource.Clients

/-! # sf: from the clients to the serial line

Between two turns of the loop, what a connection has contributed to the packets for the serial line
and what its client would still give are together what its end gives in as many reads as it had
turns (`Fair`).  `packetsFrom_run` is the consequence for one connection, and `packetsFrom_peer`
for a program that uses the connection. -/

namespace IdcuIot.SfSource

/-! ### What one connection contributes -/

/-- The packets of one connection among those that `write_serial_packet` got. -/
def packetsFrom (id : ℕ) (forwarded : List (ℕ × List UInt8)) : List (List UInt8) :=
  (forwarded.filter (fun p => p.1 = id)).map Prod.snd

/-- What `m` more reads of the client with this `id` would give. -/
def remaining (id m : ℕ) (clients : List Client) : List (List UInt8) :=
  (clients.filter (fun c => c.id = id)).flatMap (fun c => readSfPackets m c.script)

/-- The packets that `n` reads from a connection give, behind `init_sf_source`. -/
def packetsOf (charSigned : Bool) (c : Connection) (n : ℕ) : List (List UInt8) :=
  let i := initSfSource charSigned telos c.room c.script
  if i.result < 0 then [] else readSfPackets n i.script

section
variable {isSet : ℕ → Bool} {id : ℕ}

theorem packetsFrom_append (l l' : List (ℕ × List UInt8)) :
    packetsFrom id (l ++ l') = packetsFrom id l ++ packetsFrom id l' := by
  rw [packetsFrom, List.filter_append, List.map_append]
  rfl

theorem remaining_append (m : ℕ) (l l' : List Client) :
    remaining id m (l ++ l') = remaining id m l ++ remaining id m l' := by
  rw [remaining, List.filter_append, List.flatMap_append]
  rfl

theorem remaining_of_notMem (m : ℕ) {l : List Client} (h : ∀ c ∈ l, c.id ≠ id) :
    remaining id m l = [] := by
  rw [remaining, List.filter_eq_nil_iff.mpr (fun c hc => by simpa using h c hc), List.flatMap_nil]

theorem packetsFrom_of_notMem {l : List (ℕ × List UInt8)} (h : ∀ p ∈ l, p.1 ≠ id) :
    packetsFrom id l = [] := by
  rw [packetsFrom, List.filter_eq_nil_iff.mpr (fun p hp => by simpa using h p hp), List.map_nil]

/-- A client that is served keeps its `id` and its descriptor, and its packet has its `id`. -/
theorem serve_same (c : Client) :
    (∀ c' ∈ (serve isSet c).1, c'.id = c.id ∧ c'.fd = c.fd) ∧
      ∀ p ∈ (serve isSet c).2, p.1 = c.id := by
  unfold serve
  split
  · split <;> simp
  · simp

theorem serve_eq (isSet : ℕ → Bool) (c : Client) (m : ℕ) :
    packetsFrom c.id (serve isSet c).2 ++ remaining c.id m (serve isSet c).1 =
      readSfPackets (m + if isSet c.fd then 1 else 0) c.script := by
  unfold serve
  cases isSet c.fd with
  | false => simp [packetsFrom, remaining]
  | true =>
      rw [if_pos rfl, if_pos rfl, readSfPackets]
      rcases readSfPacket c.script with ⟨_ | packet, script⟩
      · simp [packetsFrom, remaining]
      · simp [packetsFrom, remaining]

theorem serve_other (m : ℕ) {l : List Client} (h : ∀ c ∈ l, c.id ≠ id) :
    packetsFrom id (l.flatMap (fun c => (serve isSet c).2)) = [] ∧
      remaining id m (l.flatMap (fun c => (serve isSet c).1)) = [] := by
  constructor
  · apply packetsFrom_of_notMem
    intro p hp
    obtain ⟨c, hc, hp⟩ := List.mem_flatMap.mp hp
    rw [(serve_same c).2 p hp]
    exact h c hc
  · apply remaining_of_notMem
    intro c' hc'
    obtain ⟨c, hc, hc'⟩ := List.mem_flatMap.mp hc'
    rw [((serve_same c).1 c' hc').1]
    exact h c hc

/-- What the loop takes from one connection: one packet if its client is reached and ready. -/
theorem serve_clients (isSet : ℕ → Bool) (id : ℕ) {pre post : List Client}
    (hnodup : ((pre ++ post).map Client.id).Nodup)
    {d : ℕ} (hd : ∀ c ∈ pre ++ post, c.id = id → d = if isSet c.fd then 1 else 0) :
    ∃ k ≤ d, (post = [] → k = d) ∧ ∀ m,
      packetsFrom id (pre.flatMap (fun c => (serve isSet c).2)) ++
          remaining id m (pre.flatMap (fun c => (serve isSet c).1) ++ post) =
        remaining id (m + k) (pre ++ post) := by
  by_cases hmem : ∃ c ∈ pre, c.id = id
  · obtain ⟨c, hc, rfl⟩ := hmem
    obtain ⟨a, b, rfl⟩ := List.append_of_mem hc
    rw [List.append_assoc, List.cons_append, List.map_append, List.map_cons,
      List.nodup_middle, List.nodup_cons, ← List.map_append, List.mem_map] at hnodup
    have hother : ∀ c' ∈ a ++ (b ++ post), c'.id ≠ c.id := fun c' hc' heq =>
      hnodup.1 ⟨c', hc', heq⟩
    simp only [List.forall_mem_append] at hother
    obtain ⟨ha, hb, hpost⟩ := hother
    refine ⟨d, Nat.le_refl _, fun _ => rfl, fun m => ?_⟩
    have hself := serve_eq isSet c m
    rw [← hd c (by simp) rfl] at hself
    have hc : remaining c.id (m + d) [c] = readSfPackets (m + d) c.script := by
      simp [remaining]
    simp only [List.flatMap_append, List.flatMap_cons, packetsFrom_append, remaining_append,
      serve_other m ha, serve_other m hb, remaining_of_notMem _ hpost,
      remaining_of_notMem _ ha, List.nil_append, List.append_nil, hself]
    rw [← List.singleton_append, remaining_append, remaining_of_notMem _ hb, hc, List.append_nil]
  · have hpre : ∀ c ∈ pre, c.id ≠ id := fun c hc heq => hmem ⟨c, hc, heq⟩
    by_cases hpost : ∃ c ∈ post, c.id = id
    · obtain ⟨c, hc, -⟩ := hpost
      refine ⟨0, Nat.zero_le _, fun h => absurd hc (h ▸ List.not_mem_nil), fun m => ?_⟩
      rw [remaining_append, remaining_append, (serve_other m hpre).1, (serve_other m hpre).2,
        remaining_of_notMem _ hpre]
      rfl
    · have hpost' : ∀ c ∈ post, c.id ≠ id := fun c hc heq => hpost ⟨c, hc, heq⟩
      refine ⟨d, Nat.le_refl _, fun _ => rfl, fun m => ?_⟩
      rw [remaining_append, remaining_append, (serve_other m hpre).1, (serve_other m hpre).2,
        remaining_of_notMem _ hpre, remaining_of_notMem _ hpost', remaining_of_notMem _ hpost']
      rfl

end

/-! ### A run -/

/-- One turn more for the connections so far, and a new one. -/
def chance (l : List (Connection × ℕ)) (t : Forwarder.Turn) : List (Connection × ℕ) :=
  l.map (fun p => (p.1, p.2 + if t.ready p.1.fd then 1 else 0)) ++
    t.accepted.toList.map (fun c => (c, 0))

/-- The connections in the order of their acceptance, each with the number of later turns that
found its descriptor ready. -/
def chances (turns : List Forwarder.Turn) : List (Connection × ℕ) := turns.foldl chance []

/-- What holds between two turns. -/
structure Fair (charSigned : Bool) (s : Forwarder) (l : List (Connection × ℕ)) : Prop where
  nodup : (s.clients.map Client.id).Nodup
  client : ∀ c ∈ s.clients, ∃ conn, s.connections[c.id]? = some conn ∧ c.fd = conn.fd
  packet : ∀ p ∈ s.forwarded, p.1 < s.connections.length
  numClients : s.numClients = s.clients.length
  packetsWritten : s.packetsWritten = s.forwarded.length
  connections : s.connections <+: l.map Prod.fst
  alive : s.exited = false → s.connections = l.map Prod.fst
  served : ∀ id conn n, l[id]? = some (conn, n) → id < s.connections.length →
    ∃ k ≤ n, (s.exited = false → k = n) ∧ ∀ m,
      packetsFrom id s.forwarded ++ remaining id m s.clients = packetsOf charSigned conn (k + m)

section
variable {charSigned : Bool} {serial : ℕ → ℤ} {s : Forwarder} {l : List (Connection × ℕ)}

theorem fair_start : Fair charSigned Forwarder.start [] where
  nodup := List.nodup_nil
  client _ h := absurd h List.not_mem_nil
  packet _ h := absurd h List.not_mem_nil
  numClients := rfl
  packetsWritten := rfl
  connections := List.prefix_rfl
  alive _ := rfl
  served _ _ _ h := by simp at h

theorem client_lt (h : Fair charSigned s l) {c : Client} (hc : c ∈ s.clients) :
    c.id < s.connections.length := by
  obtain ⟨conn, hconn, -⟩ := h.client c hc
  exact (List.getElem?_eq_some_iff.mp hconn).1

theorem length_alive (h : Fair charSigned s l) (hexited : s.exited = false) :
    l.length = s.connections.length := by
  rw [h.alive hexited, List.length_map]

/-- What a new connection contributes; `clients` are the clients behind `new_client`. -/
theorem served_newClient (h : Fair charSigned s l) (hexited : s.exited = false) (c : Connection)
    {clients : List Client}
    (hsame : ∀ id, id < s.connections.length → ∀ m,
      remaining id m clients = remaining id m s.clients)
    (hfirst : ∀ m, remaining s.connections.length m clients = packetsOf charSigned c m)
    (id : ℕ) (conn : Connection) (n : ℕ) (hid : (l ++ [(c, 0)])[id]? = some (conn, n))
    (hlt : id < (s.connections ++ [c]).length) :
    ∃ k ≤ n, (s.exited = false → k = n) ∧ ∀ m,
      packetsFrom id s.forwarded ++ remaining id m clients = packetsOf charSigned conn (k + m) := by
  have hlength := length_alive h hexited
  rw [List.length_append, List.length_singleton] at hlt
  by_cases hid' : id < s.connections.length
  · rw [List.getElem?_append_left (by omega)] at hid
    obtain ⟨k, hk, halive, heq⟩ := h.served id conn n hid hid'
    exact ⟨k, hk, halive, fun m => by rw [hsame id hid', heq]⟩
  · obtain rfl : id = s.connections.length := by omega
    rw [← hlength, List.getElem?_concat_length, Option.some.injEq, Prod.mk.injEq] at hid
    obtain ⟨rfl, rfl⟩ := hid
    have hnew : packetsFrom s.connections.length s.forwarded = [] :=
      packetsFrom_of_notMem (fun p hp => (h.packet p hp).ne)
    exact ⟨0, Nat.le_refl _, fun _ => rfl, fun m => by
      rw [hnew, hfirst, Nat.zero_add]
      rfl⟩

theorem fair_newClient (h : Fair charSigned s l) (hexited : s.exited = false) (c : Connection) :
    Fair charSigned (Forwarder.newClient charSigned s c) (l ++ [(c, 0)]) := by
  have hclients : ∀ m, remaining s.connections.length m s.clients = [] := fun m =>
    remaining_of_notMem m (fun c hc => (client_lt h hc).ne)
  have hold : ∀ c' ∈ s.clients, ∃ conn,
      (s.connections ++ [c])[c'.id]? = some conn ∧ c'.fd = conn.fd := by
    intro c' hc'
    obtain ⟨conn, hconn, hfd⟩ := h.client c' hc'
    exact ⟨conn, by rw [List.getElem?_append_left (client_lt h hc'), hconn], hfd⟩
  have hpacket : ∀ p ∈ s.forwarded, p.1 < (s.connections ++ [c]).length := by
    intro p hp
    have := h.packet p hp
    rw [List.length_append]
    omega
  have hprefix : s.connections ++ [c] = (l ++ [(c, 0)]).map Prod.fst := by
    rw [h.alive hexited, List.map_append]
    rfl
  unfold Forwarder.newClient
  dsimp only
  by_cases hinit : (initSfSource charSigned telos c.room c.script).result < 0
  · rw [if_pos hinit]
    refine ⟨h.nodup, hold, hpacket, h.numClients, h.packetsWritten, hprefix ▸ List.prefix_rfl,
      fun _ => hprefix, served_newClient h hexited c (fun _ _ _ => rfl) (fun m => ?_)⟩
    rw [hclients, packetsOf, if_pos hinit]
  · rw [if_neg hinit]
    refine ⟨?_, ?_, hpacket, ?_, h.packetsWritten, hprefix ▸ List.prefix_rfl, fun _ => hprefix,
      served_newClient h hexited c (fun id hid m => ?_) (fun m => ?_)⟩
    · rw [List.map_cons, List.nodup_cons, List.mem_map]
      refine ⟨?_, h.nodup⟩
      rintro ⟨c', hc', heq⟩
      exact (client_lt h hc').ne heq
    · intro c' hc'
      rcases List.mem_cons.mp hc' with rfl | hc'
      · exact ⟨c, List.getElem?_concat_length, rfl⟩
      · exact hold c' hc'
    · rw [List.length_cons, h.numClients]
    · rw [← List.singleton_append, remaining_append, remaining_of_notMem m (by simp; omega)]
      rfl
    · rw [← List.singleton_append, remaining_append, hclients, packetsOf, if_neg hinit]
      simp [remaining]

/-- The clients that are served come from the clients before, in the same order. -/
theorem map_id_serve (isSet : ℕ → Bool) (clients : List Client) :
    ((clients.flatMap (fun c => (serve isSet c).1)).map Client.id).Sublist
      (clients.map Client.id) := by
  induction clients with
  | nil => exact List.Sublist.refl []
  | cons c clients ih =>
      rw [List.flatMap_cons, List.map_append, List.map_cons, ← List.singleton_append]
      refine List.Sublist.append ?_ ih
      unfold serve
      split
      · split <;> simp
      · simp

/-- `check_clients` gives a turn to each connection whose descriptor is set. -/
theorem fair_checkClients (h : Fair charSigned s l) (hexited : s.exited = false)
    {isSet : ℕ → Bool} {l' : List (Connection × ℕ)} (hfst : l'.map Prod.fst = l.map Prod.fst)
    (hcount : ∀ id conn n', l'[id]? = some (conn, n') → ∃ n, l[id]? = some (conn, n) ∧
      ∃ d, n' = n + d ∧ ∀ c ∈ s.clients, c.id = id → d = if isSet c.fd then 1 else 0) :
    Fair charSigned (Forwarder.checkClients serial isSet [] s.clients s) l' := by
  have hspec := checkClients_spec serial isSet s.clients [] s hexited
  obtain ⟨pre, post, hsplit, hpost, hclients, hforwarded⟩ := hspec.served
  rw [List.nil_append] at hclients
  have hmem : ∀ c ∈ pre ++ post, c ∈ s.clients := fun c hc => hsplit ▸ hc
  refine ⟨?_, ?_, ?_, hspec.numClients (by simpa using h.numClients),
    hspec.packetsWritten h.packetsWritten, ?_, fun _ => ?_, ?_⟩
  · rw [hclients, List.map_append]
    refine List.Nodup.sublist ?_ (hsplit ▸ h.nodup)
    rw [List.map_append]
    exact (map_id_serve isSet pre).append (List.Sublist.refl _)
  · intro c hc
    rw [hspec.connections]
    rw [hclients, List.mem_append, List.mem_flatMap] at hc
    rcases hc with ⟨c₀, hc₀, hc⟩ | hc
    · obtain ⟨hid, hfd⟩ := (serve_same c₀).1 c hc
      rw [hid, hfd]
      exact h.client c₀ (hmem c₀ (List.mem_append_left post hc₀))
    · exact h.client c (hmem c (List.mem_append_right pre hc))
  · intro p hp
    rw [hspec.connections]
    rw [hforwarded, List.mem_append, List.mem_flatMap] at hp
    rcases hp with hp | ⟨c, hc, hp⟩
    · exact h.packet p hp
    · rw [(serve_same c).2 p hp]
      exact client_lt h (hmem c (List.mem_append_left post hc))
  · rw [hspec.connections, hfst]
    exact h.connections
  · rw [hspec.connections, hfst]
    exact h.alive hexited
  · intro id conn n' hid hlt
    rw [hspec.connections] at hlt
    obtain ⟨n, hn, d, rfl, hd⟩ := hcount id conn n' hid
    obtain ⟨k, -, halive, heq⟩ := h.served id conn n hn hlt
    obtain rfl := halive hexited
    obtain ⟨k', hk', hall, hserve⟩ := serve_clients isSet id
      (hsplit ▸ h.nodup) (fun c hc => hd c (hmem c hc))
    refine ⟨k + k', Nat.add_le_add_left hk' k, fun hr => ?_, fun m => ?_⟩
    · rw [hall (hpost hr)]
    · rw [hforwarded, hclients, packetsFrom_append, List.append_assoc, hserve, ← hsplit, heq,
        Nat.add_assoc, Nat.add_comm m]

theorem getElem?_chance {t : Forwarder.Turn} {id n' : ℕ} {conn : Connection}
    (h : (chance l t)[id]? = some (conn, n')) :
    (∃ n, l[id]? = some (conn, n) ∧ n' = n + if t.ready conn.fd then 1 else 0) ∨
      (l.length ≤ id ∧ n' = 0 ∧ (t.accepted.toList.map (fun c => (c, 0)))[id - l.length]? =
        some (conn, 0)) := by
  unfold chance at h
  by_cases hid : id < l.length
  · rw [List.getElem?_append_left (by rwa [List.length_map]), List.getElem?_map,
      Option.map_eq_some_iff] at h
    obtain ⟨⟨conn', n⟩, hget, heq⟩ := h
    obtain ⟨rfl, rfl⟩ := Prod.mk.inj heq
    exact Or.inl ⟨n, hget, rfl⟩
  · rw [List.getElem?_append_right (by rw [List.length_map]; omega), List.length_map] at h
    have hmem := List.mem_of_getElem? h
    obtain ⟨c, -, heq⟩ := List.mem_map.mp hmem
    obtain ⟨rfl, rfl⟩ := Prod.mk.inj heq
    exact Or.inr ⟨by omega, rfl, h⟩

theorem map_fst_chance (t : Forwarder.Turn) :
    (chance l t).map Prod.fst = l.map Prod.fst ++ t.accepted.toList := by
  simp [chance, List.map_map, Function.comp_def]

/-- The clients behind `check_new_client`: those that were waited for, and the new one. -/
theorem fair_accept (h : Fair charSigned s l) (hexited : s.exited = false) {t : Forwarder.Turn}
    (hfresh : Forwarder.Fresh s t) {s' : Forwarder}
    (hs' : s' = match t.accepted with
      | none => s
      | some c => Forwarder.newClient charSigned s c) :
    Fair charSigned s' (l ++ t.accepted.toList.map (fun c => (c, 0))) ∧ s'.exited = false ∧
      ∀ c ∈ s'.clients, (c.id < l.length ∧ c.fd ∈ s.clients.map Client.fd) ∨
        (l.length ≤ c.id ∧ c.fd ∉ s.clients.map Client.fd) := by
  have hlength := length_alive h hexited
  have hold : ∀ c ∈ s.clients, c.id < l.length ∧ c.fd ∈ s.clients.map Client.fd := fun c hc =>
    ⟨hlength ▸ client_lt h hc, List.mem_map_of_mem hc⟩
  cases haccepted : t.accepted with
  | none =>
      rw [haccepted] at hs'
      subst hs'
      exact ⟨by simpa using h, hexited, fun c hc => Or.inl (hold c hc)⟩
  | some c =>
      rw [haccepted] at hs'
      subst hs'
      refine ⟨fair_newClient h hexited c, ?_, fun c' hc' => ?_⟩
      · unfold Forwarder.newClient
        dsimp only
        split <;> exact hexited
      · unfold Forwarder.newClient at hc'
        dsimp only at hc'
        split at hc'
        · exact Or.inl (hold c' hc')
        · rcases List.mem_cons.mp hc' with rfl | hc'
          · exact Or.inr ⟨hlength.le, hfresh c haccepted⟩
          · exact Or.inl (hold c' hc')

theorem fair_turn (h : Fair charSigned s l) {t : Forwarder.Turn} (hfresh : Forwarder.Fresh s t) :
    Fair charSigned (Forwarder.turn charSigned serial s t) (chance l t) := by
  unfold Forwarder.turn
  by_cases hexited : s.exited = true
  · rw [if_pos hexited]
    have hlength := h.connections.length_le
    rw [List.length_map] at hlength
    refine ⟨h.nodup, h.client, h.packet, h.numClients, h.packetsWritten, ?_, ?_, ?_⟩
    · rw [map_fst_chance]
      exact h.connections.trans (List.prefix_append _ _)
    · intro hs
      rw [hexited] at hs
      cases hs
    · intro id conn n' hid hlt
      rcases getElem?_chance hid with ⟨n, hn, rfl⟩ | ⟨hle, -⟩
      · obtain ⟨k, hk, -, heq⟩ := h.served id conn n hn hlt
        refine ⟨k, Nat.le_add_right_of_le hk, fun hs => ?_, heq⟩
        rw [hexited] at hs
        cases hs
      · omega
  · rw [if_neg hexited]
    dsimp only
    obtain ⟨hfair, hexited', hclients⟩ :=
      fair_accept h (Bool.eq_false_iff.mpr hexited) hfresh rfl
    refine fair_checkClients hfair hexited' ?_ ?_
    · rw [map_fst_chance, List.map_append, List.map_map]
      simp [Function.comp_def]
    · intro id conn n' hid
      rcases getElem?_chance hid with ⟨n, hn, rfl⟩ | ⟨hle, rfl, hget⟩
      · have hlt := (List.getElem?_eq_some_iff.mp hn).1
        refine ⟨n, by rw [List.getElem?_append_left hlt, hn], _, rfl, ?_⟩
        rintro c hc rfl
        obtain ⟨conn', hconn', hfd⟩ := hfair.client c hc
        rw [hfair.alive hexited', List.getElem?_map, List.getElem?_append_left hlt, hn] at hconn'
        obtain rfl := Option.some.inj hconn'
        rcases hclients c hc with ⟨-, hmem⟩ | ⟨hle, -⟩
        · rw [List.contains_iff_mem.mpr hmem, Bool.true_and, hfd]
        · omega
      · refine ⟨0, by rw [List.getElem?_append_right hle, hget], 0, rfl, ?_⟩
        rintro c hc rfl
        rcases hclients c hc with ⟨hlt, -⟩ | ⟨-, hmem⟩
        · omega
        · rw [Bool.eq_false_iff.mpr (fun hc => hmem (List.contains_iff_mem.mp hc))]
          rfl

end

/-- Every `accept` of a run gives a descriptor that is not in use. -/
def Legal (charSigned : Bool) (serial : ℕ → ℤ) : List Forwarder.Turn → Prop :=
  History.AtEvery (fun turns t => Forwarder.Fresh (Forwarder.run charSigned serial turns) t)

theorem fair_run {charSigned : Bool} {serial : ℕ → ℤ} {turns : List Forwarder.Turn}
    (h : Legal charSigned serial turns) :
    Fair charSigned (Forwarder.run charSigned serial turns) (chances turns) := by
  refine History.AtEvery.invariant
    (I := fun turns => Fair charSigned (Forwarder.run charSigned serial turns) (chances turns))
    fair_start ?_ h
  intro turns t hfair hfresh
  rw [Forwarder.run, chances, List.foldl_append, List.foldl_append]
  exact fair_turn hfair hfresh

section
variable {charSigned : Bool} {serial : ℕ → ℤ} {turns : List Forwarder.Turn} {id n : ℕ}
  {conn : Connection}

theorem packetsOf_zero (charSigned : Bool) (c : Connection) : packetsOf charSigned c 0 = [] := by
  unfold packetsOf
  dsimp only
  split <;> rfl

theorem remaining_zero (clients : List Client) : remaining id 0 clients = [] := by
  simp [remaining, readSfPackets]

theorem exists_packetsFrom (h : Legal charSigned serial turns)
    (hid : (chances turns)[id]? = some (conn, n)) :
    ∃ k ≤ n, packetsFrom id (Forwarder.run charSigned serial turns).forwarded =
      packetsOf charSigned conn k := by
  have hfair := fair_run h
  by_cases hlt : id < (Forwarder.run charSigned serial turns).connections.length
  · obtain ⟨k, hk, -, heq⟩ := hfair.served id conn n hid hlt
    refine ⟨k, hk, ?_⟩
    have := heq 0
    rwa [remaining_zero, List.append_nil] at this
  · refine ⟨0, Nat.zero_le n, ?_⟩
    rw [packetsOf_zero]
    refine packetsFrom_of_notMem (fun p hp heq => hlt ?_)
    exact heq ▸ hfair.packet p hp

/-- One connection while the process goes on, with what its client would still give. -/
theorem packetsFrom_append_remaining (h : Legal charSigned serial turns)
    (hid : (chances turns)[id]? = some (conn, n))
    (hexited : (Forwarder.run charSigned serial turns).exited = false) (m : ℕ) :
    packetsFrom id (Forwarder.run charSigned serial turns).forwarded ++
        remaining id m (Forwarder.run charSigned serial turns).clients =
      packetsOf charSigned conn (n + m) := by
  have hfair := fair_run h
  have hlt : id < (Forwarder.run charSigned serial turns).connections.length := by
    rw [hfair.alive hexited, List.length_map]
    exact (List.getElem?_eq_some_iff.mp hid).1
  obtain ⟨k, -, halive, heq⟩ := hfair.served id conn n hid hlt
  rw [heq m, halive hexited]

/-- **What one connection contributes**: as many reads as there were turns that found it ready,
whatever the other clients do and whichever of them are removed, or the first of these once the
forwarder has exited; of a client that was removed nothing that could be read is missing. -/
theorem packetsFrom_run (h : Legal charSigned serial turns)
    (hid : (chances turns)[id]? = some (conn, n)) :
    let s := Forwarder.run charSigned serial turns
    s.numClients = s.clients.length ∧ s.packetsWritten = s.forwarded.length ∧
      (∃ k ≤ n, packetsFrom id s.forwarded = packetsOf charSigned conn k) ∧
      (s.exited = false → packetsFrom id s.forwarded = packetsOf charSigned conn n ∧
        ((∀ c ∈ s.clients, c.id ≠ id) →
          ∀ m, packetsOf charSigned conn (n + m) = packetsFrom id s.forwarded)) := by
  have hfair := fair_run h
  refine ⟨hfair.numClients, hfair.packetsWritten, exists_packetsFrom h hid, fun hexited => ?_⟩
  have heq := packetsFrom_append_remaining h hid hexited
  refine ⟨?_, fun hgone m => ?_⟩
  · have := heq 0
    rwa [remaining_zero, List.append_nil] at this
  · rw [← heq m, remaining_of_notMem m hgone, List.append_nil]

/-- The forwarder's end of a connection, with `n` reads. -/
def endOf (charSigned : Bool) (c : Connection) (n : ℕ) : Peer :=
  ⟨charSigned, telos, c.room, c.script, [], n⟩

theorem received_endOf (charSigned : Bool) (c : Connection) (n : ℕ) :
    (endOf charSigned c n).session.received = packetsOf charSigned c n := by
  unfold Peer.session packetsOf endOf
  dsimp only
  split <;> rfl

theorem sent_endOf (charSigned : Bool) (c : Connection) (n m : ℕ) :
    (endOf charSigned c n).session.sent = (endOf charSigned c m).session.sent := by
  unfold Peer.session endOf
  dsimp only
  split <;> rfl

theorem packetsFrom_isPrefix (h : Legal charSigned serial turns)
    (hid : (chances turns)[id]? = some (conn, n)) {client : Peer}
    (hclient : arriving client.incoming <+: (endOf charSigned conn n).session.sent)
    (hconn : arriving conn.script <+: client.session.sent) :
    packetsFrom id (Forwarder.run charSigned serial turns).forwarded <+:
      (client.packets.take client.session.accepted).map cut := by
  obtain ⟨k, -, hk⟩ := exists_packetsFrom h hid
  rw [sent_endOf charSigned conn n k] at hclient
  obtain ⟨j, hj, hreceived, -⟩ := received_eq_take hclient hconn
  rw [hk, ← received_endOf, hreceived]
  exact ((List.take_prefix _ _).trans (List.take_prefix_take_left hj)).map _

theorem packetsFrom_eq_map (h : Legal charSigned serial turns)
    (hid : (chances turns)[id]? = some (conn, n)) {client : Peer}
    (hclient : arriving client.incoming <+: (endOf charSigned conn n).session.sent)
    (hconn : arriving conn.script <+: client.session.sent)
    (hexited : (Forwarder.run charSigned serial turns).exited = false)
    (hresult : (endOf charSigned conn n).session.result = 0)
    (hcome : arriving conn.script = client.session.sent) (hturns : client.session.accepted ≤ n) :
    packetsFrom id (Forwarder.run charSigned serial turns).forwarded =
      (client.packets.take client.session.accepted).map cut := by
  have hall := packetsFrom_append_remaining h hid hexited 0
  rw [remaining_zero, List.append_nil, Nat.add_zero] at hall
  obtain ⟨j, -, hreceived, hcomplete⟩ := received_eq_take hclient hconn
  rw [hall, ← received_endOf, hreceived, hcomplete hresult hcome]
  rw [List.take_of_length_le (l := client.packets.take _)]
  exact (List.length_take_le _ _).trans hturns

/-- **From a client to the serial line**: a program that uses the code of sfsource as a client has
its packets handed to `write_serial_packet` in order and each once, those first for which
`write_sf_packet` returned 0, cut to their length modulo 256; and all of these once everything it
sent has come and it was ready often enough, if the forwarder has not exited. -/
theorem packetsFrom_peer (h : Legal charSigned serial turns)
    (hid : (chances turns)[id]? = some (conn, n)) {client : Peer}
    (hclient : arriving client.incoming <+: (endOf charSigned conn n).session.sent)
    (hconn : arriving conn.script <+: client.session.sent) :
    let s := Forwarder.run charSigned serial turns
    packetsFrom id s.forwarded <+: (client.packets.take client.session.accepted).map cut ∧
      (s.exited = false → (endOf charSigned conn n).session.result = 0 →
        arriving conn.script = client.session.sent → client.session.accepted ≤ n →
        packetsFrom id s.forwarded =
          (client.packets.take client.session.accepted).map cut) :=
  ⟨packetsFrom_isPrefix h hid hclient hconn, packetsFrom_eq_map h hid hclient hconn⟩

end

/-- The two ends of `Session`, with the forwarder at one of them: it is accepted in the first turn
and ready in the next four. -/
def oneConnection : Connection := ⟨5, otherPeer.room, otherPeer.incoming⟩

def oneTurns : List Forwarder.Turn :=
  ⟨fun _ => false, some oneConnection⟩ :: List.replicate 4 ⟨fun _ => true, none⟩

theorem legal_oneTurns : Legal false (fun _ => 0) oneTurns := by
  intro before t after h c hc
  cases before with
  | nil => exact List.not_mem_nil
  | cons _ before =>
      have hmem : t ∈ before ++ t :: after := by simp
      rw [oneTurns, List.cons_append, List.cons.injEq] at h
      rw [← h.2] at hmem
      obtain rfl := List.eq_of_mem_replicate hmem
      cases hc

theorem packetsFrom_run_one :
    packetsFrom 0 (Forwarder.run false (fun _ => 0) oneTurns).forwarded =
      packetsOf false oneConnection 4 :=
  ((packetsFrom_run legal_oneTurns
    (show (chances oneTurns)[0]? = some (oneConnection, 4) from rfl)).2.2.2 (by decide)).1

theorem packetsFrom_peer_one :
    packetsFrom 0 (Forwarder.run false (fun _ => 0) oneTurns).forwarded = [[1, 2, 3], [], [4]] :=
  (packetsFrom_peer legal_oneTurns
    (show (chances oneTurns)[0]? = some (oneConnection, 4) from rfl)
    (show arriving onePeer.incoming <+: _ by decide)
    (show arriving oneConnection.script <+: onePeer.session.sent by decide)).2
    (by decide) (by decide) (by decide) (by decide)

end IdcuIot.SfSource
