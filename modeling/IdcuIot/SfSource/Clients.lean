import IdcuIot.SfSource.Session

/-! # sf: the clients of the serial forwarder

`m_deluge_process` waits for the server socket and the clients, accepts at most one connection, and
reads one packet from every client that is ready, which it gives to `write_serial_packet`.  A client
whose packet cannot be read is removed from the list while the loop walks over it.

`checkClients_spec` says what the loop over the clients does to them, in their order. -/

namespace IdcuIot.SfSource

/-- `TELOS`, the `platform` of the forwarder. -/
def telos : UInt32 := 2

/-- A connection: its descriptor and what the forwarder's end of it meets. -/
structure Connection where
  fd : ℕ
  room : List Room
  script : List Incoming
deriving DecidableEq, Repr

/-- An element of `clients`.  `id` tells the connections apart, as a descriptor is used again after
it was closed. -/
structure Client where
  id : ℕ
  fd : ℕ
  script : List Incoming
deriving DecidableEq, Repr

/-- The variables of sf, the connections accepted so far, and the packets that
`write_serial_packet` got, each with the `id` of its client. -/
structure Forwarder where
  clients : List Client
  numClients : ℕ
  packetsWritten : ℕ
  connections : List Connection
  forwarded : List (ℕ × List UInt8)
  exited : Bool
deriving DecidableEq, Repr

namespace Forwarder

/-- Before the loop. -/
def start : Forwarder := ⟨[], 0, 0, [], [], false⟩

/-- `new_client`, with `add_client`. -/
def newClient (charSigned : Bool) (s : Forwarder) (c : Connection) : Forwarder :=
  let i := initSfSource charSigned telos c.room c.script
  if i.result < 0 then { s with connections := s.connections ++ [c] }
  else
    { s with
      clients := ⟨s.connections.length, c.fd, i.script⟩ :: s.clients
      numClients := s.numClients + 1
      connections := s.connections ++ [c] }

/-- `forward_packet`: the result of the `k`-th call of `write_serial_packet` is `serial k`; a
negative one ends the process. -/
def forwardPacket (serial : ℕ → ℤ) (s : Forwarder) (id : ℕ) (packet : List UInt8) : Forwarder :=
  { s with
    packetsWritten := s.packetsWritten + 1
    forwarded := s.forwarded ++ [(id, packet)]
    exited := decide (serial s.packetsWritten < 0) }

/-- `check_clients`, with `rem_client`: the loop over the clients from `c` on, where those before
it, in `done`, stay as they are. -/
def checkClients (serial : ℕ → ℤ) (isSet : ℕ → Bool) :
    List Client → List Client → Forwarder → Forwarder
  | done, [], s => { s with clients := done }
  | done, c :: rest, s =>
      if isSet c.fd then
        match readSfPacket c.script with
        | (some packet, script) =>
            let s := forwardPacket serial s c.id packet
            if s.exited then { s with clients := done ++ { c with script := script } :: rest }
            else checkClients serial isSet (done ++ [{ c with script := script }]) rest s
        | (none, _) =>
            checkClients serial isSet done rest { s with numClients := s.numClients - 1 }
      else checkClients serial isSet (done ++ [c]) rest s

/-- What `select` and `accept` find in one turn of the loop: which descriptors are ready, and the
connection that is accepted, if there is one. -/
structure Turn where
  ready : ℕ → Bool
  accepted : Option Connection

/-- One turn of the loop in `m_deluge_process`.  Only descriptors of `wait_clients` are in the
set. -/
def turn (charSigned : Bool) (serial : ℕ → ℤ) (s : Forwarder) (t : Turn) : Forwarder :=
  if s.exited then s
  else
    let waited := s.clients.map Client.fd
    let s' := match t.accepted with
      | none => s
      | some c => newClient charSigned s c
    checkClients serial (fun fd => waited.contains fd && t.ready fd) [] s'.clients s'

/-- `m_deluge_process`. -/
def run (charSigned : Bool) (serial : ℕ → ℤ) (turns : List Turn) : Forwarder :=
  turns.foldl (turn charSigned serial) start

/-- `accept` gives no descriptor that is in use. -/
def Fresh (s : Forwarder) (t : Turn) : Prop :=
  ∀ c ∈ t.accepted, c.fd ∉ s.clients.map Client.fd

instance (s : Forwarder) (t : Turn) : Decidable (Fresh s t) :=
  inferInstanceAs (Decidable (∀ _, _))

end Forwarder

/-! ### One turn of the loop over the clients -/

/-- What the loop makes of a client that it reaches: the client that stays, if it does, and the
packet, if there is one. -/
def serve (isSet : ℕ → Bool) (c : Client) : List Client × List (ℕ × List UInt8) :=
  if isSet c.fd then
    match readSfPacket c.script with
    | (some packet, script) => ([{ c with script := script }], [(c.id, packet)])
    | (none, _) => ([], [])
  else ([c], [])

/-- What `check_clients` can do: it serves the clients in their order, all of them unless the
process ends. -/
structure Checked (isSet : ℕ → Bool) (done rest : List Client) (s s' : Forwarder) : Prop where
  connections : s'.connections = s.connections
  served : ∃ pre post, rest = pre ++ post ∧ (s'.exited = false → post = []) ∧
    s'.clients = done ++ (pre.flatMap (fun c => (serve isSet c).1) ++ post) ∧
    s'.forwarded = s.forwarded ++ pre.flatMap (fun c => (serve isSet c).2)
  numClients : s.numClients = (done ++ rest).length → s'.numClients = s'.clients.length
  packetsWritten : s.packetsWritten = s.forwarded.length →
    s'.packetsWritten = s'.forwarded.length

theorem checkClients_spec (serial : ℕ → ℤ) (isSet : ℕ → Bool) :
    ∀ (rest done : List Client) (s : Forwarder), s.exited = false →
    Checked isSet done rest s (Forwarder.checkClients serial isSet done rest s)
  | [], done, s, _ => by
      refine ⟨rfl, ⟨[], [], rfl, fun _ => rfl, ?_, ?_⟩, ?_, fun h => h⟩
      · simp [Forwarder.checkClients]
      · simp [Forwarder.checkClients]
      · intro h
        rwa [List.append_nil] at h
  | c :: rest, done, s, hs => by
      rw [Forwarder.checkClients]
      cases hset : isSet c.fd with
      | false =>
          have ih := checkClients_spec serial isSet rest (done ++ [c]) s hs
          have hserve : serve isSet c = ([c], []) := by rw [serve, hset]; rfl
          obtain ⟨pre, post, rfl, hpost, hclients, hforwarded⟩ := ih.served
          refine ⟨ih.connections, ⟨c :: pre, post, rfl, hpost, ?_, ?_⟩, fun h => ih.numClients ?_,
            ih.packetsWritten⟩
          · simpa [hserve] using hclients
          · simpa [hserve] using hforwarded
          · simpa using h
      | true =>
          rcases hread : readSfPacket c.script with ⟨_ | packet, script⟩
          · have ih := checkClients_spec serial isSet rest done
              { s with numClients := s.numClients - 1 } hs
            have hserve : serve isSet c = ([], []) := by rw [serve, hset, hread]; rfl
            obtain ⟨pre, post, rfl, hpost, hclients, hforwarded⟩ := ih.served
            refine ⟨ih.connections, ⟨c :: pre, post, rfl, hpost, ?_, ?_⟩,
              fun h => ih.numClients ?_, ih.packetsWritten⟩
            · simpa [hserve] using hclients
            · simpa [hserve] using hforwarded
            · change s.numClients - 1 = _
              rw [h]
              simp
          · have hserve : serve isSet c = ([{ c with script := script }], [(c.id, packet)]) := by
              rw [serve, hset, hread]
              rfl
            dsimp only
            by_cases hexit : (Forwarder.forwardPacket serial s c.id packet).exited = true
            · rw [if_pos rfl, if_pos hexit]
              refine ⟨rfl, ⟨[c], rest, rfl, ?_, ?_, ?_⟩, ?_, ?_⟩
              · intro h
                exact absurd (hexit.symm.trans h) (by decide)
              · simp [hserve]
              · simp [hserve, Forwarder.forwardPacket]
              · intro h
                simpa [Forwarder.forwardPacket] using h
              · intro h
                simp [Forwarder.forwardPacket, h]
            · rw [if_pos rfl, if_neg hexit]
              have ih := checkClients_spec serial isSet rest (done ++ [{ c with script := script }])
                (Forwarder.forwardPacket serial s c.id packet) (Bool.eq_false_iff.mpr hexit)
              obtain ⟨pre, post, rfl, hpost, hclients, hforwarded⟩ := ih.served
              refine ⟨ih.connections, ⟨c :: pre, post, rfl, hpost, ?_, ?_⟩,
                fun h => ih.numClients ?_, fun h => ih.packetsWritten ?_⟩
              · simpa [hserve] using hclients
              · simpa [hserve, Forwarder.forwardPacket] using hforwarded
              · simpa [Forwarder.forwardPacket] using h
              · simp [Forwarder.forwardPacket, h]

end IdcuIot.SfSource
