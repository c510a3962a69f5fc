import RosKernel.Network.Connections

/-! The numbering of what a connection sends.

The sequence number of a socket is the next one of the stream: how far it is past
the initial number depends on the state and on the bytes that were accepted. The
packet that is kept for the timer is the latest one that needs an acknowledgement.
-/

set_option autoImplicit false

namespace RosKernel.Network

open Library List

/-- The sequence number of byte `k` of a stream. -/
def position (initial : UInt32) (k : Nat) : UInt32 := initial + 1 + UInt32.ofNat k

namespace Connection

variable (conn : Connection)

def transmitted : List Packet := conn.sent ++ conn.resent.map Prod.snd

/-- The payload of a packet is the stream at the place its sequence number names. -/
def InStream (packet : Packet) : Prop := ∃ front back,
  conn.accepted = front ++ packet.payload ++ back ∧ packet.sequenceNum = position conn.initial front.length

/-- Byte `k` of the stream was sent under its own sequence number. -/
def Sent (k : Nat) : Prop := ∃ packet ∈ conn.sent, ∃ front back,
  conn.accepted = front ++ packet.payload ++ back ∧ packet.sequenceNum = position conn.initial front.length ∧
    front.length ≤ k ∧ k < front.length + packet.payload.length

/-- Byte `k` of the stream is in the copy the timer would send. -/
def Retained (sock : TCPSocket) (k : Nat) : Prop := sock.waitingAck = true ∧ ∃ front bytes back,
  sock.lastPacket = some bytes ∧ conn.accepted = front ++ bytes ++ back ∧
    front.length ≤ k ∧ k < front.length + bytes.length

/-- A repetition carries what its original carried, under the same number. -/
structure Repeats (packet original : Packet) : Prop where
  payload : packet.payload = original.payload
  flags : packet.flags = original.flags
  sequenceNum : packet.sequenceNum = original.sequenceNum

end Connection

/-- The numbering of a connection: what it sent, what it sent again and what it may still send. -/
structure WellNumbered (sock : TCPSocket) (conn : Connection) : Prop where
  bytes : ∀ packet ∈ conn.transmitted, packet.payload ≠ [] → conn.InStream packet
  fin : ∀ packet ∈ conn.transmitted, has packet.flags tcpFin = true →
    packet.payload = [] ∧ packet.sequenceNum = position conn.initial conn.accepted.length
  copies : ∀ pair ∈ conn.resent, ∃ original ∈ conn.sent, pair.1 = some original ∧
    Connection.Repeats pair.2 original
  present : ∀ k < conn.accepted.length, conn.Sent k ∨ conn.Retained sock k

/-- The record of a connection that lost nothing: every accepted byte has been sent. -/
structure Logged (conn : Connection) : Prop where
  bytes : ∀ packet ∈ conn.transmitted, packet.payload ≠ [] → conn.InStream packet
  fin : ∀ packet ∈ conn.transmitted, has packet.flags tcpFin = true →
    packet.payload = [] ∧ packet.sequenceNum = position conn.initial conn.accepted.length
  copies : ∀ pair ∈ conn.resent, ∃ original ∈ conn.sent, pair.1 = some original ∧
    Connection.Repeats pair.2 original
  sent : ∀ k < conn.accepted.length, conn.Sent k

theorem Logged.wellNumbered {conn : Connection} (logged : Logged conn) (sock : TCPSocket) : WellNumbered sock conn :=
  ⟨logged.bytes, logged.fin, logged.copies, fun k hin => .inl (logged.sent k hin)⟩

theorem Logged.opened (initial : UInt32) : Logged (.opened initial) :=
  ⟨fun _ => (nomatch ·), fun _ => (nomatch ·), fun _ => (nomatch ·), fun _ => (nomatch ·)⟩

def Connection.NoFin (conn : Connection) : Prop := ∀ packet ∈ conn.transmitted, has packet.flags tcpFin = false

section

variable {conn : Connection} {packet : Packet}

theorem mem_transmitted_sent {other : Packet} : other ∈ (record conn (.sent packet)).transmitted ↔
    other ∈ conn.transmitted ∨ other = packet := by
  simp only [record, Connection.transmitted, mem_append, mem_singleton]
  exact or_right_comm

theorem Connection.Sent.record (k : Nat) (sent : conn.Sent k) : (Network.record conn (.sent packet)).Sent k := by
  obtain ⟨old, hin, rest⟩ := sent
  exact ⟨old, mem_append_left _ hin, rest⟩

theorem Logged.send (logged : Logged conn) (bytes : packet.payload ≠ [] → conn.InStream packet)
    (fin : has packet.flags tcpFin = true →
      packet.payload = [] ∧ packet.sequenceNum = position conn.initial conn.accepted.length) :
    Logged (record conn (.sent packet)) := by
  refine ⟨?_, ?_, ?_, fun k inside => (logged.sent k inside).record⟩
  · intro other inside filled
    rcases mem_transmitted_sent.mp inside with old | rfl
    · exact logged.bytes other old filled
    · exact bytes filled
  · intro other inside closes
    rcases mem_transmitted_sent.mp inside with old | rfl
    · exact logged.fin other old closes
    · exact fin closes
  · intro pair inside
    obtain ⟨original, old, same, repeats⟩ := logged.copies pair inside
    exact ⟨original, mem_append_left _ old, same, repeats⟩

theorem Logged.finless {fin : Option UInt32} (logged : Logged conn) : Logged { conn with fin := fin } :=
  ⟨logged.bytes, logged.fin, logged.copies, logged.sent⟩

variable {payload : Bytes}

theorem Connection.InStream.accept (hin : conn.InStream packet) :
    (record conn (.accepted payload)).InStream packet := by
  obtain ⟨front, back, content, number⟩ := hin
  exact ⟨front, back ++ payload, by rw [record, content, append_assoc], number⟩

theorem Connection.Sent.accept {k : Nat} (sent : conn.Sent k) : (Network.record conn (.accepted payload)).Sent k := by
  obtain ⟨old, hin, front, back, content, rest⟩ := sent
  exact ⟨old, hin, front, back ++ payload, by rw [Network.record, content, append_assoc], rest⟩

theorem Logged.data (logged : Logged conn) (noFin : conn.NoFin) (content : packet.payload = payload)
    (number : packet.sequenceNum = position conn.initial conn.accepted.length)
    (plain : has packet.flags tcpFin = false) : Logged (record (record conn (.accepted payload)) (.sent packet)) := by
  have behind : (record conn (.accepted payload)).accepted = conn.accepted ++ packet.payload ++ [] := by
    rw [append_nil, content]
    rfl
  refine ⟨?_, ?_, ?_, ?_⟩
  · intro other inside filled
    rcases mem_transmitted_sent.mp inside with old | rfl
    · exact (logged.bytes other old filled).accept
    · exact ⟨conn.accepted, [], behind, number⟩
  · intro other inside closes
    rcases mem_transmitted_sent.mp inside with old | rfl
    · exact absurd closes (by simp [noFin other old])
    · exact absurd closes (by simp [plain])
  · intro pair inside
    obtain ⟨original, old, same, repeats⟩ := logged.copies pair inside
    exact ⟨original, mem_append_left _ old, same, repeats⟩
  · intro k inside
    by_cases old : k < conn.accepted.length
    · exact (logged.sent k old).accept.record
    · refine ⟨packet, mem_append_right _ (.head _), conn.accepted, [], behind, number,
        Nat.not_lt.mp old, ?_⟩
      rw [← length_append]
      exact lt_of_lt_of_eq inside (by rw [content]; rfl)

end

theorem position_zero (initial : UInt32) : position initial 0 = initial + 1 := UInt32.add_zero _

theorem position_add (initial : UInt32) (k l : Nat) :
    position initial k + UInt32.ofNat l = position initial (k + l) := by
  simp only [position, UInt32.ofNat_add, UInt32.add_assoc]

theorem position_sub (initial : UInt32) (k l : Nat) :
    position initial (k + l) - UInt32.ofNat l = position initial k := by
  rw [← position_add, UInt32.add_sub_cancel]

/-- How far the sequence number of a socket is in the stream of its connection. -/
def Stage (state : TCPState) (conn : Connection) (sequence : UInt32) : Prop :=
  match state with
  | .synSent => sequence = conn.initial ∧ conn.accepted = [] ∧ conn.NoFin
  | .synRcvd => sequence = position conn.initial 0 ∧ conn.accepted = [] ∧ conn.NoFin
  | .established => sequence = position conn.initial conn.accepted.length ∧ conn.NoFin
  | .lastAck => sequence = position conn.initial conn.accepted.length
  | .finWait1 | .finWait2 => sequence = position conn.initial (conn.accepted.length + 1)
  | .closed | .listen | .timeWait | .closeWait => True

/-- What a socket in this state may keep for its timer, and the number it was sent under. -/
inductive Keeps (state : TCPState) (initial : UInt32) (accepted : Bytes) (original : Packet) : Prop where
  | syn : state = .synSent ∨ state = .synRcvd → has original.flags (tcpSyn ||| tcpFin) = true →
      has original.flags tcpFin = false → original.payload = [] → original.sequenceNum = initial →
      Keeps state initial accepted original
  | data (front : Bytes) : state = .established ∨ state = .lastAck ∨ state = .finWait1 ∨ state = .finWait2 →
      has original.flags (tcpSyn ||| tcpFin) = false → original.payload ≠ [] →
      accepted = front ++ original.payload → original.sequenceNum = position initial front.length →
      Keeps state initial accepted original
  | fin : state = .lastAck ∨ state = .finWait1 ∨ state = .finWait2 →
      has original.flags (tcpSyn ||| tcpFin) = true → has original.flags tcpFin = true → original.payload = [] →
      original.sequenceNum = position initial accepted.length → Keeps state initial accepted original

/-- The timer of a socket stands for the packet that was kept last. -/
structure Armed (state : TCPState) (sock : TCPSocket) (conn : Connection) (original : Packet) : Prop where
  sent : original ∈ conn.sent
  last : conn.original = some original
  packet : sock.lastPacket = some original.payload
  length : sock.lastPacketLen = original.payload.length
  flags : sock.lastFlags = original.flags
  keeps : Keeps state conn.initial conn.accepted original

/-- A socket that has got as far as `state` with its connection. -/
structure Tracked (state : TCPState) (sock : TCPSocket) (conn : Connection) : Prop where
  logged : Logged conn
  stage : Stage state conn sock.mySequence
  timer : sock.allocated = true → sock.waitingAck = true → ∃ original, Armed state sock conn original

section

variable {env : Surroundings} {nth : Nat} {flags : UInt8} {sock : TCPSocket} {conn : Connection}

/-- The fields of a socket that numbering is about. -/
structure SameSending (after sock : TCPSocket) : Prop where
  allocated : after.allocated = sock.allocated
  mySequence : after.mySequence = sock.mySequence
  waitingAck : after.waitingAck = sock.waitingAck
  lastPacket : after.lastPacket = sock.lastPacket
  lastPacketLen : after.lastPacketLen = sock.lastPacketLen
  lastFlags : after.lastFlags = sock.lastFlags

section

variable {state : TCPState} (tracked : Tracked state sock conn)
include tracked

theorem Tracked.of_same {after : TCPSocket} (eq : SameSending after sock) : Tracked state after conn := by
  refine ⟨tracked.logged, eq.mySequence ▸ tracked.stage, fun alloc wait => ?_⟩
  obtain ⟨orig, armed⟩ := tracked.timer (eq.allocated ▸ alloc) (eq.waitingAck ▸ wait)
  exact ⟨orig, armed.sent, armed.last, eq.lastPacket.trans armed.packet, eq.lastPacketLen.trans armed.length,
    eq.lastFlags.trans armed.flags, armed.keeps⟩

theorem Tracked.stopped : Tracked state (stopTimer sock) conn :=
  ⟨tracked.logged, tracked.stage, fun _ wait => nomatch wait⟩

theorem Tracked.acknowledge (ack : UInt32) : Tracked state (acknowledge ack sock) conn := by
  unfold Network.acknowledge
  split
  · exact tracked.stopped
  · exact tracked

theorem Tracked.finless {fin : Option UInt32} : Tracked state sock { conn with fin := fin } := by
  refine ⟨tracked.logged.finless, tracked.stage, fun alloc wait => ?_⟩
  obtain ⟨orig, armed⟩ := tracked.timer alloc wait
  exact ⟨orig, armed.sent, armed.last, armed.packet, armed.length, armed.flags, armed.keeps⟩

end

theorem sendTCPRaw_leads {post : TCPSocket → Connection → Prop} {payload copied : Bytes}
    (dropped : getMacFromCache env nth sock = false → post sock (record conn (.dropped (buildPacket sock flags payload))))
    (bare : kept flags payload = false → post sock (record conn (.sent (buildPacket sock flags payload))))
    (keeps : kept flags payload = true → post { sock with
        lastPacket := some copied
        lastPacketLen := payload.length
        lastFlags := flags
        lastSendTime := env.ticks
        waitingAck := true } (record conn (.sent (buildPacket sock flags payload)))) :
    (sendTCPRaw env nth flags payload copied sock).Leads record conn post := by
  unfold sendTCPRaw
  cases reachable : getMacFromCache env nth sock with
  | false => exact dropped reachable
  | true =>
    cases keep : kept flags payload with
    | false => exact bare keep
    | true => exact keeps keep

variable (env nth)

theorem Tracked.sendBare {state : TCPState} (tracked : Tracked state sock conn) (plain : has flags tcpFin = false)
    (unkept : kept flags [] = false) : (sendFlags env nth flags sock).Leads record conn (Tracked state) := by
  have noFin (free : conn.NoFin) : (record conn (.sent (buildPacket sock flags []))).NoFin := by
    intro other hin
    rcases mem_transmitted_sent.mp hin with old | rfl
    · exact free other old
    · exact plain
  refine sendTCPRaw_leads ?_ ?_ (fun kept => absurd kept (by simp [unkept]))
  · intro _
    exact tracked.finless
  · intro _
    refine ⟨tracked.logged.send (fun filled => absurd rfl filled) (fun closes => absurd closes ?_), ?_, ?_⟩
    · simp [buildPacket, plain]
    · have stage := tracked.stage
      cases state with
      | synSent | synRcvd => exact ⟨stage.1, stage.2.1, noFin stage.2.2⟩
      | established => exact ⟨stage.1, noFin stage.2⟩
      | _ => exact stage
    · intro alloc wait
      obtain ⟨orig, armed⟩ := tracked.timer alloc wait
      refine ⟨orig, mem_append_left _ armed.sent, ?_, armed.packet, armed.length, armed.flags, armed.keeps⟩
      exact (if_neg (by simp [buildPacket, unkept])).trans armed.last

theorem Tracked.sendAck {state : TCPState} (tracked : Tracked state sock conn) :
    (sendFlags env nth tcpAck sock).Leads record conn (Tracked state) :=
  tracked.sendBare env nth (by decide) (by decide)

/-- A SYN is kept; a socket whose SYN could not be sent keeps nothing. -/
theorem Tracked.sendSyn (tracked : Tracked .synSent sock conn)
    (plain : has flags tcpFin = false) (keep : has flags (tcpSyn ||| tcpFin) = true) :
    (sendFlags env nth flags sock).Leads record conn (Tracked .synSent) := by
  obtain ⟨number, nothing, free⟩ := tracked.stage
  have noFin : (record conn (.sent (buildPacket sock flags []))).NoFin := by
    intro other hin
    rcases mem_transmitted_sent.mp hin with old | rfl
    · exact free other old
    · exact plain
  have logged : Logged (record conn (.sent (buildPacket sock flags []))) :=
    tracked.logged.send (fun filled => absurd rfl filled) fun closes => absurd closes (by simp [buildPacket, plain])
  refine sendTCPRaw_leads ?_ ?_ ?_
  · intro _
    exact tracked.finless
  · intro unkept
    exact absurd unkept (by simp [kept, keep])
  · intro kept
    refine ⟨logged, ⟨number, nothing, noFin⟩, fun _ _ => ?_⟩
    refine ⟨buildPacket sock flags [], mem_append_right _ (.head _), if_pos kept, rfl, rfl, rfl, ?_⟩
    exact .syn (.inl rfl) keep plain rfl number

theorem Tracked.sendFin (tracked : Tracked .established sock conn) :
    (sendFlags env nth (tcpFin ||| tcpAck) sock).Leads record conn (Tracked .lastAck) := by
  obtain ⟨number, free⟩ := tracked.stage
  have logged : Logged (record conn (.sent (buildPacket sock (tcpFin ||| tcpAck) []))) :=
    tracked.logged.send (fun filled => absurd rfl filled) fun _ => ⟨rfl, number⟩
  refine sendTCPRaw_leads ?_ (fun unkept => nomatch unkept) ?_
  · intro _
    refine ⟨tracked.logged.finless, number, fun alloc wait => ?_⟩
    -- the FIN was not sent: the timer still stands for the data pre it
    obtain ⟨orig, armed⟩ := tracked.timer alloc wait
    refine ⟨orig, armed.sent, armed.last, armed.packet, armed.length, armed.flags, ?_⟩
    cases armed.keeps with
    | syn early => rcases early with early | early <;> exact nomatch early
    | data front _ plain filled content place => exact .data front (.inr (.inl rfl)) plain filled content place
    | fin late => rcases late with late | late | late <;> exact nomatch late
  · intro kept
    refine ⟨logged, number, fun _ _ => ?_⟩
    refine ⟨buildPacket sock (tcpFin ||| tcpAck) [], mem_append_right _ (.head _), if_pos kept,
      rfl, rfl, rfl, ?_⟩
    exact .fin (.inl rfl) (show has (tcpFin ||| tcpAck) _ = true by decide)
      (show has (tcpFin ||| tcpAck) _ = true by decide) rfl number

theorem Tracked.sendData (tracked : Tracked .established sock conn) {data : Bytes}
    (reachable : data ≠ [] → getMacFromCache env nth sock = true) :
    (sendTCPData env nth data sock).Leads record conn (Tracked .established) := by
  by_cases ready : sock.state ≠ .established
  · rw [sendTCPData, if_pos ready]
    exact .silent tracked
  rw [sendTCPData, if_neg ready]
  have plain : has (tcpPsh ||| tcpAck) tcpFin = false := by decide
  by_cases empty : data = []
  · subst empty
    have eq : record conn (.accepted []) = conn := by simp [record]
    have bare : (sendFlags env nth (tcpPsh ||| tcpAck) sock).Leads record conn (Tracked .established) :=
      tracked.sendBare env nth plain (by decide)
    have still (after : TCPSocket) : { after with mySequence := after.mySequence + UInt32.ofNat ([] : Bytes).length } =
        after := by simp
    unfold Traced.Leads
    dsimp only
    rw [still, foldl_cons, eq]
    exact bare
  · obtain ⟨number, free⟩ := tracked.stage
    have logged : Logged (record (record conn (.accepted data)) (.sent (buildPacket sock (tcpPsh ||| tcpAck) data))) :=
      tracked.logged.data free rfl number plain
    have keep : kept (tcpPsh ||| tcpAck) data = true := by simp [kept, length_pos_of_ne_nil empty]
    have sent : (sendTCPRaw env nth (tcpPsh ||| tcpAck) data data sock).Leads record (record conn (.accepted data))
        fun after => Tracked .established { after with mySequence := after.mySequence + UInt32.ofNat data.length } := by
      refine sendTCPRaw_leads ?_ ?_ ?_
      · grind
      · intro unkept
        exact absurd keep (by simp [unkept])
      · intro kept
        refine ⟨logged, ⟨?_, ?_⟩, fun _ _ => ?_⟩
        · exact (congrArg (· + _) number).trans ((position_add ..).trans (by rw [← length_append]; rfl))
        · intro other hin
          rcases mem_transmitted_sent.mp hin with old | rfl
          · exact free other old
          · exact plain
        · refine ⟨buildPacket sock (tcpPsh ||| tcpAck) data, mem_append_right _ (.head _),
            if_pos kept, rfl, rfl, rfl, ?_⟩
          exact .data conn.accepted (.inl rfl) (show has (tcpPsh ||| tcpAck) _ = false by decide) empty rfl number
    exact sent

end

/-- A socket that is in the state it has got as far as. -/
structure Settled (state : TCPState) (sock : TCPSocket) (conn : Connection) : Prop where
  here : sock.state = state
  tracked : Tracked state sock conn

section

variable {env : Surroundings} {seg : Segment} {sock : TCPSocket} {conn : Connection} {state : TCPState}

theorem Tracked.become (tracked : Tracked state sock conn) :
    (become state sock).Leads record conn (Settled state) :=
  ⟨rfl, tracked.of_same ⟨rfl, rfl, rfl, rfl, rfl, rfl⟩⟩

theorem drawSequence_leads (idle : sock.allocated = true → sock.waitingAck = false) :
    (drawSequence env sock).Leads record conn (Tracked .synSent) := by
  refine ⟨.opened env.random, ⟨rfl, rfl, fun _ hin => nomatch hin⟩, fun alloc wait => ?_⟩
  have stopped : sock.waitingAck = false := idle alloc
  exact absurd wait (by simp [drawSequence, stopped])

theorem Tracked.counted (tracked : Tracked .synSent sock conn) :
    Tracked .synRcvd { sock with mySequence := sock.mySequence + 1 } conn := by
  obtain ⟨number, nothing, free⟩ := tracked.stage
  refine ⟨tracked.logged, ⟨?_, nothing, free⟩, fun alloc wait => ?_⟩
  · exact (congrArg (· + 1) number).trans (position_zero _).symm
  · obtain ⟨orig, armed⟩ := tracked.timer alloc wait
    refine ⟨orig, armed.sent, armed.last, armed.packet, armed.length, armed.flags, ?_⟩
    cases armed.keeps with
    | syn _ keep plain bare number => exact .syn (.inr rfl) keep plain bare number
    | data _ late => rcases late with late | late | late | late <;> exact nomatch late
    | fin late => rcases late with late | late | late <;> exact nomatch late

theorem acceptSyn_leads (idle : sock.allocated = true → sock.waitingAck = false) :
    (acceptSyn env seg sock).Leads record conn (Settled .synRcvd) := by
  have drawn : (drawSequence env { sock with targetSequence := seg.sequenceNum + 1 }).Leads record conn
      (Tracked .synSent) := drawSequence_leads idle
  have ans := drawn.next fun _ _ tracked =>
    tracked.sendSyn env 0 (show has (tcpSyn ||| tcpAck) tcpFin = false by decide) (by decide)
  exact ans.next fun _ _ tracked => tracked.counted.become

theorem connectSyn_leads (idle : sock.allocated = true → sock.waitingAck = false) :
    (connectSyn env sock).Leads record conn (Settled .synSent) := by
  have drawn : (drawSequence env sock).Leads record conn (Tracked .synSent) := drawSequence_leads idle
  have asked := drawn.next fun _ _ tracked =>
    tracked.sendSyn env 0 (show has tcpSyn tcpFin = false by decide) (by decide)
  exact asked.next fun _ _ tracked => tracked.become

theorem Tracked.freed (tracked : Tracked state sock conn) : (freeSocket sock).Leads record conn (Settled .closed) :=
  ⟨rfl, tracked.logged, trivial, fun alloc => nomatch alloc⟩

section

variable (settled : Settled state sock conn)
include settled

theorem Settled.sendAck {nth : Nat} : (sendFlags env nth tcpAck sock).Leads record conn (Settled state) :=
  ⟨(sendFlags_state ..).trans settled.here, settled.tracked.sendAck env nth⟩

theorem Settled.acknowledge (ack : UInt32) : Settled state (acknowledge ack sock) conn := by
  refine ⟨?_, settled.tracked.acknowledge ack⟩
  obtain ⟨_, _, eq⟩ := acknowledge_eq ack sock
  exact (congrArg TCPSocket.state eq).trans settled.here

theorem Settled.takeData : (takeData env seg sock).Leads record conn
    fun after seen => Settled state after seen ∧ after.remoteIP = sock.remoteIP := by
  obtain ⟨recv, target, nodes, eq⟩ := takeData_eq env sock seg
  rw [eq]
  have moved : Settled state { sock with recv := recv, targetSequence := target, oooList := nodes } conn :=
    ⟨settled.here, settled.tracked.of_same ⟨rfl, rfl, rfl, rfl, rfl, rfl⟩⟩
  refine ⟨moved.sendAck, ?_⟩
  rw [sendFlags_ack]

end

theorem Tracked.closing (tracked : Tracked .lastAck sock conn) :
    Tracked .finWait1 { sock with mySequence := sock.mySequence + 1 } conn := by
  have number : sock.mySequence = position conn.initial conn.accepted.length := tracked.stage
  refine ⟨tracked.logged, ?_, fun allocated waiting => ?_⟩
  · exact (congrArg (· + 1) number).trans (position_add _ _ 1)
  · obtain ⟨original, armed⟩ := tracked.timer allocated waiting
    refine ⟨original, armed.sent, armed.last, armed.packet, armed.length, armed.flags, ?_⟩
    cases armed.keeps with
    | syn early => rcases early with early | early <;> exact nomatch early
    | data front _ plain filled content place => exact .data front (.inr (.inr (.inl rfl))) plain filled content place
    | fin _ keep closes bare number => exact .fin (.inr (.inl rfl)) keep closes bare number

theorem Settled.respond (settled : Settled .established sock conn) (reachable : getMacFromCache env 1 sock = true) :
    (respond env sock).Leads record conn (Settled .finWait1) := by
  have ans : (sendTCPData env 1 htmlResponse sock).Leads record conn (Tracked .established) :=
    settled.tracked.sendData env 1 fun _ => reachable
  have closed := ans.next fun _ _ tracked => tracked.sendFin env 2
  exact closed.next fun _ _ tracked => tracked.closing.become

theorem Settled.closeByFin (settled : Settled .established sock conn) :
    (closeByFin env sock).Leads record conn (Settled .lastAck) := by
  have cnt : Tracked .established { sock with targetSequence := sock.targetSequence + 1 } conn :=
    settled.tracked.of_same ⟨rfl, rfl, rfl, rfl, rfl, rfl⟩
  have acked : (sendFlags env 3 tcpAck { sock with targetSequence := sock.targetSequence + 1 }).Leads record conn
      (Tracked .established) := cnt.sendAck env 3
  have closed := acked.next fun _ _ tracked => tracked.sendFin env 4
  exact closed.next fun _ _ tracked => tracked.become

/-- The socket is in a state and its connection has got as far. -/
abbrev Steady (sock : TCPSocket) (conn : Connection) : Prop := Tracked sock.state sock conn

theorem Settled.steady (settled : Settled state sock conn) : Steady sock conn := by
  rw [Steady, settled.here]
  exact settled.tracked

theorem Settled.finish (settled : Settled .established sock conn) : (finish env seg sock).Leads record conn Steady := by
  unfold Network.finish
  split
  · exact (settled.acknowledge _).closeByFin.mono fun _ _ settled => settled.steady
  · exact .silent (settled.acknowledge _).steady

/-- A request is answered only if its answer can be sent, and does not close the connection itself. -/
def SoundRequest (env : Surroundings) (seg : Segment) (sock : TCPSocket) : Prop :=
  seg.request = true → seg.early sock.targetSequence = false →
    getMacFromCache env 1 sock = true ∧ has seg.flags tcpFin = false

theorem Settled.caseEstablished (settled : Settled .established sock conn) (sound : SoundRequest env seg sock) :
    (caseEstablished env seg sock).Leads record conn Steady := by
  unfold Network.caseEstablished
  by_cases early : seg.early sock.targetSequence = true
  · rw [if_pos early]
    exact settled.takeData.mono fun _ _ ht => ht.1.steady
  · rw [if_neg early]
    split
    · by_cases req : seg.request = true
      · obtain ⟨reachable, noFin⟩ := sound req (by simpa using early)
        rw [if_pos req]
        have responded : ((Network.takeData env seg sock).next (Network.respond env)).Leads record conn (Settled .finWait1) := by
          refine settled.takeData.next fun after _ ht => ht.1.respond ?_
          rw [getMacFromCache, ht.2]
          exact reachable
        refine responded.next fun _ _ settled => ?_
        rw [Network.finish, if_neg (by simp [noFin])]
        exact .silent (settled.acknowledge _).steady
      · rw [if_neg req]
        exact settled.takeData.next fun _ _ ht => ht.1.finish
    · exact settled.finish

theorem Keeps.busy {initial : UInt32} {accepted : Bytes} {orig : Packet}
    (keeps : Keeps state initial accepted orig) : state ≠ .closed ∧ state ≠ .listen := by
  cases keeps with
  | syn early => rcases early with rfl | rfl <;> exact ⟨nofun, nofun⟩
  | data _ late => rcases late with rfl | rfl | rfl | rfl <;> exact ⟨nofun, nofun⟩
  | fin late => rcases late with rfl | rfl | rfl <;> exact ⟨nofun, nofun⟩

theorem Tracked.idle (tracked : Tracked state sock conn) (fresh : state = .closed ∨ state = .listen)
    (alloc : sock.allocated = true) : sock.waitingAck = false := by
  cases wait : sock.waitingAck with
  | false => rfl
  | true =>
    obtain ⟨orig, armed⟩ := tracked.timer alloc wait
    rcases fresh with rfl | rfl
    · exact absurd rfl armed.keeps.busy.1
    · exact absurd rfl armed.keeps.busy.2

theorem Settled.caseSynRcvd (settled : Settled .synRcvd sock conn)
    (sound : has seg.flags tcpSyn = false → has seg.flags tcpAck = true → seg.ackNum = sock.mySequence →
      SoundRequest env seg sock) : (caseSynRcvd env seg sock).Leads record conn Steady := by
  obtain ⟨number, nothing, free⟩ := settled.tracked.stage
  unfold Network.caseSynRcvd
  by_cases syn : has seg.flags tcpSyn = true
  · rw [if_pos syn]
    -- the answer is sent again under the initial number
    have back : Tracked .synSent { sock with mySequence := sock.mySequence - 1 } conn := by
      refine ⟨settled.tracked.logged, ⟨?_, nothing, free⟩, fun alloc wait => ?_⟩
      · dsimp only
        rw [number, position_zero, UInt32.add_sub_cancel]
      · obtain ⟨orig, armed⟩ := settled.tracked.timer alloc wait
        refine ⟨orig, armed.sent, armed.last, armed.packet, armed.length, armed.flags, ?_⟩
        cases armed.keeps with
        | syn _ keep plain bare number => exact .syn (.inl rfl) keep plain bare number
        | data _ late => rcases late with late | late | late | late <;> exact nomatch late
        | fin late => rcases late with late | late | late <;> exact nomatch late
    have again := back.sendSyn env 0 (show has (tcpSyn ||| tcpAck) tcpFin = false by decide) (by decide)
    have h : (sendFlags env 0 (tcpSyn ||| tcpAck) { sock with mySequence := sock.mySequence - 1 }).1.state = .synRcvd :=
      (sendFlags_state ..).trans settled.here
    exact Settled.steady ⟨h, again.counted⟩
  · rw [if_neg syn]
    split
    case isTrue answer =>
      have opened : Settled .established (stopTimer { sock with state := .established }) conn := by
        refine ⟨rfl, settled.tracked.logged, ⟨?_, free⟩, fun _ wait => nomatch wait⟩
        rw [nothing]; exact number
      exact opened.caseEstablished (sound (by simpa using syn) answer.1 answer.2)
    case isFalse => exact .silent settled.steady

theorem Tracked.freeByFin (tracked : Tracked state sock conn) : (freeByFin env sock).Leads record conn Steady := by
  have cnt : Tracked state { sock with targetSequence := sock.targetSequence + 1 } conn :=
    tracked.of_same ⟨rfl, rfl, rfl, rfl, rfl, rfl⟩
  exact (cnt.sendAck env 0).next fun _ _ tracked => tracked.freed.mono fun _ _ settled => settled.steady

theorem Tracked.acked (tracked : Tracked .finWait1 sock conn) : Tracked .finWait2 sock conn := by
  refine ⟨tracked.logged, tracked.stage, fun alloc wait => ?_⟩
  obtain ⟨orig, armed⟩ := tracked.timer alloc wait
  refine ⟨orig, armed.sent, armed.last, armed.packet, armed.length, armed.flags, ?_⟩
  cases armed.keeps with
  | syn early => rcases early with early | early <;> exact nomatch early
  | data front _ plain filled content place => exact .data front (.inr (.inr (.inr rfl))) plain filled content place
  | fin _ keep closes bare number => exact .fin (.inr (.inr rfl)) keep closes bare number

theorem Settled.caseFinWait1 (settled : Settled .finWait1 sock conn) :
    (caseFinWait1 env seg sock).Leads record conn Steady := by
  unfold Network.caseFinWait1
  have acked : Traced.Leads record (if has seg.flags tcpAck = true then
      Network.become .finWait2 (Network.acknowledge seg.ackNum sock) else (sock, [])) conn Steady := by
    split
    · exact (settled.acknowledge _).tracked.acked.become.mono fun _ _ settled => settled.steady
    · exact .silent settled.steady
  by_cases closes : has seg.flags tcpFin = true
  · rw [if_pos closes]
    exact acked.next fun _ _ steady => steady.freeByFin
  · rw [if_neg closes]
    exact acked

/-- A segment that cannot make the socket lose count: no SYN+ACK reaches `SYN_SENT`. -/
def SoundSegment (env : Surroundings) (seg : Segment) (sock : TCPSocket) : Prop :=
  match sock.state with
  | .synSent => ¬ (has seg.flags tcpSyn = true ∧ has seg.flags tcpAck = true)
  | .synRcvd => has seg.flags tcpSyn = false → has seg.flags tcpAck = true → seg.ackNum = sock.mySequence →
      SoundRequest env seg sock
  | .established => SoundRequest env seg sock
  | .closed | .listen | .finWait1 | .finWait2 | .lastAck | .timeWait | .closeWait => True

theorem Settled.caseListen (settled : Settled .listen sock conn) : (caseListen env seg sock).Leads record conn Steady := by
  unfold Network.caseListen
  split
  · have idle : sock.allocated = true → sock.waitingAck = false := settled.tracked.idle (.inr rfl)
    have accepted : (acceptSyn env seg { sock with remoteIP := seg.srcIP, remotePort := seg.srcPort }).Leads record conn
        (Settled .synRcvd) := acceptSyn_leads idle
    exact accepted.mono fun _ _ settled => settled.steady
  · exact .silent settled.steady

theorem Settled.caseSynSent (settled : Settled .synSent sock conn)
    (sound : ¬ (has seg.flags tcpSyn = true ∧ has seg.flags tcpAck = true)) :
    (caseSynSent env seg sock).Leads record conn Steady := by
  rw [Network.caseSynSent, if_neg sound]
  split
  · have cnt : Tracked .synRcvd { sock with
        targetSequence := seg.sequenceNum + 1, mySequence := sock.mySequence + 1 } conn :=
      settled.tracked.counted.of_same ⟨rfl, rfl, rfl, rfl, rfl, rfl⟩
    exact (cnt.sendAck env 0).next fun _ _ tracked => tracked.become.mono fun _ _ settled => settled.steady
  · exact .silent settled.steady

theorem Tracked.caseFinWait2 (tracked : Tracked .finWait2 sock conn) (steady : Steady sock conn) :
    (caseFinWait2 env seg sock).Leads record conn Steady := by
  unfold Network.caseFinWait2
  split
  · exact tracked.freeByFin
  · exact .silent steady

theorem Settled.caseLastAck (settled : Settled .lastAck sock conn) : (caseLastAck seg sock).Leads record conn Steady := by
  unfold Network.caseLastAck
  split
  · exact settled.tracked.freed.mono fun _ _ settled => settled.steady
  · exact .silent settled.steady

theorem Steady.dispatch (steady : Steady sock conn) (sound : SoundSegment env seg sock) :
    (dispatch env seg sock).Leads record conn Steady := by
  have settled : Settled sock.state sock conn := ⟨rfl, steady⟩
  unfold Network.dispatch
  unfold SoundSegment at sound
  generalize h : sock.state = state at settled sound
  cases state with
  | closed | timeWait | closeWait => exact .silent steady
  | listen => exact settled.caseListen
  | synSent => exact settled.caseSynSent sound
  | synRcvd => exact settled.caseSynRcvd sound
  | established => exact settled.caseEstablished sound
  | finWait1 => exact settled.caseFinWait1
  | finWait2 => exact settled.tracked.caseFinWait2 steady
  | lastAck => exact settled.caseLastAck

end

section

variable {env : Surroundings} {nth : Nat} {sock : TCPSocket} {conn : Connection}

theorem Connection.mem_resent {other packet : Packet} : other ∈ (record conn (.resent packet)).transmitted ↔
    other ∈ conn.transmitted ∨ other = packet := by
  simp [record, Connection.transmitted, or_assoc]

theorem Logged.resend {orig packet : Packet} (logged : Logged conn) (sent : orig ∈ conn.sent)
    (last : conn.original = some orig) (repeats : Connection.Repeats packet orig) :
    Logged (record conn (.resent packet)) := by
  have pre : orig ∈ conn.transmitted := mem_append_left _ sent
  refine ⟨?_, ?_, ?_, logged.sent⟩
  · intro other hin filled
    rcases Connection.mem_resent.mp hin with old | rfl
    · exact logged.bytes other old filled
    · obtain ⟨front, back, content, number⟩ := logged.bytes orig pre (repeats.payload ▸ filled)
      exact ⟨front, back, by rw [repeats.payload]; exact content, repeats.sequenceNum.trans number⟩
  · intro other hin closes
    rcases Connection.mem_resent.mp hin with old | rfl
    · exact logged.fin other old closes
    · obtain ⟨bare, number⟩ := logged.fin orig pre (repeats.flags ▸ closes)
      exact ⟨repeats.payload.trans bare, repeats.sequenceNum.trans number⟩
  · intro pair hin
    rcases mem_append.mp hin with old | new
    · exact logged.copies pair old
    · cases mem_singleton.mp new
      exact ⟨orig, sent, last, repeats⟩

theorem Stage.resend {state : TCPState} {sequence : UInt32} {orig packet : Packet}
    (stage : Stage state conn sequence) (sent : orig ∈ conn.sent) (repeats : Connection.Repeats packet orig) :
    Stage state (record conn (.resent packet)) sequence := by
  have noFin (free : conn.NoFin) : (record conn (.resent packet)).NoFin := by
    intro other hin
    rcases Connection.mem_resent.mp hin with old | rfl
    · exact free other old
    · rw [repeats.flags]
      exact free orig (mem_append_left _ sent)
  cases state with
  | synSent | synRcvd => exact ⟨stage.1, stage.2.1, noFin stage.2.2⟩
  | established => exact ⟨stage.1, noFin stage.2⟩
  | _ => exact stage

/-- A repetition the source numbers correctly, made from a copy that is still intact. -/
structure SoundResend (env : Surroundings) (nth : Nat) (sock : TCPSocket) : Prop where
  notSynSent : sock.state ≠ .synSent
  notFin : sock.state = .lastAck → has sock.lastFlags tcpFin = false
  onlyFin : sock.state = .finWait1 ∨ sock.state = .finWait2 → has sock.lastFlags tcpFin = true
  intact : (range sock.lastPacketLen).map (env.freed nth) = lastPayload sock

theorem has_synFin {flags : UInt8} (fin : has flags tcpFin = true) : has flags (tcpSyn ||| tcpFin) = true := by
  by_contra none
  have zero : flags &&& (tcpSyn ||| tcpFin) = 0 := by simpa [has] using none
  have part : flags &&& tcpFin = flags &&& (tcpSyn ||| tcpFin) &&& tcpFin := by
    rw [UInt8.and_assoc]
    rfl
  rw [zero] at part
  simp [has, part] at fin

theorem rewound_eq {original : Packet} (steady : Steady sock conn) (armed : Armed sock.state sock conn original)
    (sound : SoundResend env nth sock) : rewound sock = original.sequenceNum := by
  have stage := steady.stage
  have notSynSent := sound.notSynSent
  have notFin := sound.notFin
  have onlyFin := sound.onlyFin
  unfold rewound
  rw [armed.flags] at notFin onlyFin ⊢
  rw [armed.length]
  have keeps := armed.keeps
  generalize sock.state = state at *
  cases keeps with
  | syn early keep _ bare number =>
    rcases early with rfl | rfl
    · exact absurd rfl notSynSent
    · rw [keep, bare, stage.1, number, position_zero]
      exact UInt32.add_sub_cancel ..
  | data front late plain filled content number =>
    have unclosed : has original.flags tcpFin = false := by
      cases closes : has original.flags tcpFin with
      | false => rfl
      | true => exact absurd (has_synFin closes) (by simp [plain])
    have behind : position conn.initial conn.accepted.length - UInt32.ofNat original.payload.length =
        original.sequenceNum := by
      rw [number, content, length_append, position_sub]
    rw [plain]
    rcases late with rfl | rfl | rfl | rfl
    · rw [stage.1]; exact behind
    · rw [show sock.mySequence = _ from stage]; exact behind
    · exact absurd (onlyFin (.inl rfl)) (by simp [unclosed])
    · exact absurd (onlyFin (.inr rfl)) (by simp [unclosed])
  | fin late keep closes bare number =>
    have behind : position conn.initial (conn.accepted.length + 1) - UInt32.ofNat 1 = original.sequenceNum := by
      rw [number, position_sub]
    rw [keep, bare]
    rcases late with rfl | rfl | rfl
    · exact absurd closes (by simp [notFin rfl])
    all_goals rw [show sock.mySequence = _ from stage]; exact behind

theorem Keeps.kept {state : TCPState} {initial : UInt32} {accepted : Bytes} {orig : Packet}
    (keeps : Keeps state initial accepted orig) : kept orig.flags orig.payload = true := by
  cases keeps with
  | syn _ keep => simp [Network.kept, keep]
  | data _ _ _ filled => simp [Network.kept, length_pos_of_ne_nil filled]
  | fin _ keep => simp [Network.kept, keep]

theorem Steady.retransmit (steady : Steady sock conn) (due : expired env sock = true)
    (sound : getMacFromCache env nth sock = true → SoundResend env nth sock) :
    (retransmit env nth sock).Leads record conn Steady := by
  have running : sock.allocated = true ∧ sock.waitingAck = true := by
    simp only [expired, Bool.and_eq_true] at due
    exact due.1
  obtain ⟨orig, armed⟩ := steady.timer running.1 running.2
  have payload : lastPayload sock = orig.payload := by rw [lastPayload, armed.packet]; rfl
  have keep : kept sock.lastFlags (lastPayload sock) = true := by rw [payload, armed.flags]; exact armed.keeps.kept
  have eq : getMacFromCache env nth { sock with mySequence := rewound sock } = getMacFromCache env nth sock := rfl
  unfold Network.retransmit sendTCPRaw
  rw [eq, keep]
  cases reachable : getMacFromCache env nth sock with
  | false =>
    refine Tracked.of_same steady ⟨rfl, rfl, rfl, rfl, rfl, rfl⟩
  | true =>
    have number := rewound_eq steady armed (sound reachable)
    have intact := (sound reachable).intact
    have repeats : Connection.Repeats (buildPacket { sock with mySequence := rewound sock } sock.lastFlags
        (lastPayload sock)) orig := ⟨payload, armed.flags, number⟩
    refine ⟨steady.logged.resend armed.sent armed.last repeats, ?_, fun _ _ => ⟨orig, armed.sent, armed.last, ?_, ?_,
      armed.flags, armed.keeps⟩⟩
    · exact steady.stage.resend armed.sent repeats
    · exact congrArg some (intact.trans payload)
    · exact congrArg List.length payload

end

section

variable {world after : World} {slot : Slot}

/-- The calls after which a connection keeps count: a segment is sound for the
socket it reaches, accepted bytes can be sent at once, repetitions are sound. -/
def World.Sound (world : World) : Op → Prop
  | .segment env seg => ∀ slot, getSocket world.table seg.destPort seg.srcIP seg.srcPort = some slot →
      SoundSegment env seg (world.table slot)
  | .send env slot data => (world.table slot).state = .established → data ≠ [] →
      getMacFromCache env 0 (world.table slot) = true
  | .timer env => ∀ slot, expired env (world.table slot) = true →
      getMacFromCache env slot.val (world.table slot) = true → SoundResend env slot.val (world.table slot)
  | .socket | .listen .. | .connect .. | .sysConnect .. | .recv .. | .close .. => True

abbrev World.next (world : World) (op : Op) : Option World := some (world.step op)

section

variable {sock : TCPSocket} {conn : Connection} (steady : Steady sock conn)
include steady

theorem Steady.initSocket : Tracked .closed (initSocket slot sock) conn :=
  ⟨steady.logged, trivial, fun _ wait => nomatch wait⟩

theorem Steady.read {env : Surroundings} {len : Nat} : (tcpRecv env len sock).2.Leads record conn Steady := by
  unfold tcpRecv
  split
  · exact .silent steady
  · dsimp only
    have emptied (recv : RingBuffer UInt8) : Settled sock.state { sock with recv := recv } conn :=
      ⟨rfl, Tracked.of_same steady ⟨rfl, rfl, rfl, rfl, rfl, rfl⟩⟩
    split
    · exact (emptied _).sendAck.mono fun _ _ settled => settled.steady
    · exact .silent (emptied _).steady

theorem Steady.connect {env : Surroundings} {remoteIP : UInt32} {remotePort : UInt16} :
    (sysConnect env remoteIP remotePort sock).Leads record conn Steady := by
  unfold sysConnect
  split
  case isTrue => exact .silent steady
  case isFalse idle =>
    have fresh : sock.state = .closed ∨ sock.state = .listen := by
      by_contra neither
      exact idle (not_or.mp neither)
    have stopped : sock.allocated = true → sock.waitingAck = false := Tracked.idle steady fresh
    have asked : (connectSyn env { sock with
        remoteIP := remoteIP, remotePort := remotePort, localIP := env.card.ip, localPort := 40000 + sock.id }).Leads
        record conn (Settled .synSent) := connectSyn_leads stopped
    exact asked.mono fun _ _ settled => settled.steady

theorem Steady.send {env : Surroundings} {data : Bytes}
    (reachable : sock.state = .established → data ≠ [] → getMacFromCache env 0 sock = true) :
    (sendTCPData env 0 data sock).Leads record conn Steady := by
  by_cases ready : sock.state = .established
  · have tracked : Tracked .established sock conn := ready ▸ steady
    have settled : (sendTCPData env 0 data sock).Leads record conn (Settled .established) :=
      ⟨(sendTCPData_state ..).trans ready, tracked.sendData env 0 (reachable ready)⟩
    exact settled.mono fun _ _ settled => settled.steady
  · rw [sendTCPData, if_pos ready]
    exact .silent steady

end

theorem World.step_steady {op : Op} (steady : Steady (world.table slot) (world.connection slot)) (sound : world.Sound op) :
    Steady ((world.step op).table slot) ((world.step op).connection slot) := by
  have fresh : Tracked .closed (initSocket slot (world.table slot)) (world.connection slot) := steady.initSocket
  change Slotwise (perform world.table op) world.connection slot Steady
  cases op with
  | socket => exact onNewSocket_leads steady fun _ => .silent fresh
  | listen env localPort =>
    refine onNewSocket_leads steady fun _ => ?_
    exact ⟨fresh.logged, trivial, fun _ wait => nomatch wait⟩
  | connect env targetIP targetPort domain =>
    refine onNewSocket_leads steady fun _ => ?_
    exact Traced.Leads.mono (connectSyn_leads fun _ => rfl) fun _ _ settled => settled.steady
  | sysConnect env target remoteIP remotePort => exact onSocket_leads steady fun _ => steady.connect
  | segment env seg =>
    refine handleTCP_leads steady (fun hf => steady.dispatch (sound slot hf)) fun _ _ => ?_
    exact Traced.Leads.mono (acceptSyn_leads fun _ => rfl) fun _ _ settled => settled.steady
  | send env target data =>
    refine onSocket_leads steady fun eq => ?_
    subst eq
    exact steady.send sound
  | recv env target len => exact onSocket_leads steady fun _ => steady.read
  | close target => exact onSocket_leads steady fun _ => steady.freed.mono fun _ _ settled => settled.steady
  | timer env =>
    unfold perform Slotwise tcpCheckRetransmission
    dsimp only
    split
    case isTrue due => exact steady.retransmit due (sound slot due)
    case isFalse => exact .silent steady

/-- In a run of sound calls every connection is numbered as it should be. -/
theorem send_side_numbered {boot : World} (booted : boot.Booted) (reached : Reaches World.next World.Sound boot world)
    (slot : Slot) : WellNumbered (world.table slot) (world.connection slot) := by
  have initial (slot : Slot) : Steady (boot.table slot) (boot.connection slot) := by
    rw [Steady, booted.closed slot, booted.silent slot]
    exact ⟨.opened 0, trivial, fun alloc => absurd alloc (by simp [booted.allocated slot])⟩
  have steady := reached.invariant (fun world => ∀ slot, Steady (world.table slot) (world.connection slot)) initial
    fun _ _ _ steady sound ht slot => by
      cases Option.some.inj ht
      exact World.step_steady (steady slot) sound
  exact (steady slot).logged.wellNumbered _

/-- An unused slot of the table at boot. -/
def unused : TCPSocket := { awaiting with allocated := false, state := .closed }

def bootWorld : World := { table := fun _ => unused, connection := fun _ => .opened 0 }

theorem bootWorld_booted : bootWorld.Booted := ⟨fun _ => rfl, fun _ => rfl, fun _ => rfl⟩

/-- A client at port 5000 of the listener on port 80. -/
def fromClient (flags : UInt8) (ack : UInt32) : Segment :=
  { srcPort := 5000, destPort := 80, sequenceNum := 500, ackNum := ack, dataOffset := 0x50, flags := flags
    data := fun _ => 0, len := 20, srcIP := 2 }

def listening : World := bootWorld.step (.listen quiet 80)

def answered : World := listening.step (.segment quiet (fromClient tcpSyn 0))

def opened : World := answered.step (.segment quiet (fromClient tcpAck 1))

def served : World := opened.step (.send quiet 1 [10, 11, 12])

theorem send_side_numbered_server : (served.connection 1).accepted = [10, 11, 12] ∧
    (served.connection 1).sent.map Packet.sequenceNum = [0, 1] ∧
    WellNumbered (served.table 1) (served.connection 1) := by
  have nobody : getSocket listening.table 80 2 5000 = none := by decide
  have child : getSocket answered.table 80 2 5000 = some 1 := by decide
  have syn : listening.Sound (.segment quiet (fromClient tcpSyn 0)) :=
    fun _ found => absurd (nobody.symm.trans found) (by simp)
  have ack : answered.Sound (.segment quiet (fromClient tcpAck 1)) := by
    intro slot found
    cases Option.some.inj (child.symm.trans found)
    intro _ _ _ request
    exact absurd request (by decide)
  have reached : Reaches World.next World.Sound bootWorld served :=
    (((Reaches.start.next (.listen quiet 80) trivial rfl).next (.segment quiet (fromClient tcpSyn 0)) syn rfl).next
      (.segment quiet (fromClient tcpAck 1)) ack rfl).next (.send quiet 1 [10, 11, 12]) (fun _ _ => rfl) rfl
  exact ⟨by decide, by decide, send_side_numbered bootWorld_booted reached 1⟩

/-- A peer at port 80 that answers the SYN of `tcpConnect`. -/
def synAck : Segment :=
  { srcPort := 80, destPort := 40000, sequenceNum := 500, ackNum := 1, dataOffset := 0x50, flags := tcpSyn ||| tcpAck
    data := fun _ => 0, len := 20, srcIP := 2 }

def connecting : World := bootWorld.step (.connect quiet 2 80 [])

def requested : World := connecting.step (.segment quiet synAck)

/-- The request of a client is sent one number too far. -/
theorem send_side_numbered_not_client : ∃ world, Reaches World.next (fun _ _ => True) bootWorld world ∧
    ¬ WellNumbered (world.table 0) (world.connection 0) := by
  have hr : Reaches World.next (fun _ _ => True) bootWorld requested :=
    (Reaches.start.next (.connect quiet 2 80 []) trivial rfl).next (.segment quiet synAck) trivial rfl
  refine ⟨requested, hr, fun num => ?_⟩
  have sent : ∃ packet ∈ (requested.connection 0).transmitted, packet.payload ≠ [] ∧
      packet.payload.length = (requested.connection 0).accepted.length ∧ packet.sequenceNum = 2 := by decide
  obtain ⟨packet, hin, filled, whole, number⟩ := sent
  obtain ⟨front, back, content, place⟩ := num.bytes packet hin filled
  -- the packet is all that was accepted, so it belongs at the first number
  have first : front = [] := by
    have length := congrArg List.length content
    simp only [length_append] at length
    exact length_eq_zero_iff.mp (by omega)
  rw [first, number] at place
  exact absurd place (by decide)

end

end RosKernel.Network
