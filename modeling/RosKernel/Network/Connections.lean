import RosKernel.Network.Reassembly

/-! Runs of the TCP layer over the whole socket table.

Every call that reaches a socket is an operation. Beside each socket stands a
record of the connection it opened last, kept from what the calls report: the
model reads nothing of it.
-/

set_option autoImplicit false

namespace RosKernel.Network

open Library

inductive Op where
  | socket
  | listen (env : Surroundings) (localPort : UInt16)
  | connect (env : Surroundings) (targetIP : UInt32) (targetPort : UInt16) (domain : Bytes)
  | sysConnect (env : Surroundings) (slot : Slot) (remoteIP : UInt32) (remotePort : UInt16)
  | segment (env : Surroundings) (seg : Segment)
  | send (env : Surroundings) (slot : Slot) (data : Bytes)
  | recv (env : Surroundings) (slot : Slot) (len : Nat)
  | close (slot : Slot)
  | timer (env : Surroundings)

def perform (table : SocketTable) : Op → Outcome
  | .socket => onNewSocket table fun sock => (sock, [])
  | .listen env localPort => tcpListen env localPort table
  | .connect env targetIP targetPort domain => tcpConnect env targetIP targetPort domain table
  | .sysConnect env slot remoteIP remotePort => onSocket table slot (sysConnect env remoteIP remotePort)
  | .segment env seg => (handleTCP env seg table).1
  | .send env slot data => onSocket table slot (sendTCPData env 0 data)
  | .recv env slot len => onSocket table slot fun sock => (tcpRecv env len sock).2
  | .close slot => onSocket table slot freeSocket
  | .timer env => tcpCheckRetransmission env table

/-- What an observer knows of a connection. -/
structure Connection where
  initial : UInt32
  accepted : Bytes
  /-- First transmissions. -/
  sent : List Packet
  /-- The transmission that is repeated when the timer runs out. -/
  original : Option Packet
  /-- Repetitions, each with the transmission it repeats. -/
  resent : List (Option Packet × Packet)
  /-- The sequence number given to the FIN, whether or not it could be sent. -/
  fin : Option UInt32

def Connection.opened (initial : UInt32) : Connection :=
  { initial := initial, accepted := [], sent := [], original := none, resent := [], fin := none }

def Connection.finAt (conn : Connection) (packet : Packet) : Option UInt32 :=
  if has packet.flags tcpFin then some packet.sequenceNum else conn.fin

def record (conn : Connection) : Traffic → Connection
  | .initial sequence => .opened sequence
  | .accepted payload => { conn with accepted := conn.accepted ++ payload }
  | .sent packet => { conn with
      sent := conn.sent ++ [packet]
      original := if kept packet.flags packet.payload then some packet else conn.original
      fin := conn.finAt packet }
  | .dropped packet => { conn with fin := conn.finAt packet }
  | .resent packet => { conn with resent := conn.resent ++ [(conn.original, packet)] }
  | .resendDropped _ | .moved _ => conn

structure World where
  table : SocketTable
  connection : Slot → Connection

def World.step (world : World) (op : Op) : World :=
  { table := (perform world.table op).table
    connection := fun slot => (perform world.table op slot).2.foldl record (world.connection slot) }

/-- Before the first call: nothing is allocated and every state is `CLOSED`. -/
structure World.Booted (world : World) : Prop where
  allocated : ∀ slot, (world.table slot).allocated = false
  closed : ∀ slot, (world.table slot).state = .closed
  silent : ∀ slot, world.connection slot = .opened 0

/-- A slot after a call. -/
abbrev Slotwise (outcome : Outcome) (connection : Slot → Connection) (slot : Slot)
    (post : TCPSocket → Connection → Prop) : Prop :=
  (outcome slot).Leads record (connection slot) post

section

variable {table : SocketTable} {connection : Slot → Connection} {slot : Slot} {post : TCPSocket → Connection → Prop}

theorem onSocket_leads {target : Slot} {call : TCPSocket → Exchange} (kept : post (table slot) (connection slot))
    (called : target = slot → (call (table slot)).Leads record (connection slot) post) :
    Slotwise (onSocket table target call) connection slot post := by
  unfold Slotwise onSocket
  by_cases h : slot = target
  · subst h
    rw [Function.update_self]
    exact called rfl
  · rw [Function.update_of_ne h]
    exact .silent kept

theorem findSlot_holds {holds : TCPSocket → Bool} (hf : findSlot table holds = some slot) :
    holds (table slot) = true := by
  have satisfied := List.find?_some hf
  exact satisfied

theorem freeSlot_free (hf : freeSlot table = some slot) : (table slot).allocated = false := by
  simpa using findSlot_holds hf

theorem onNewSocket_leads {call : TCPSocket → Exchange} (kept : post (table slot) (connection slot))
    (called : freeSlot table = some slot → (call (initSocket slot (table slot))).Leads record (connection slot) post) :
    Slotwise (onNewSocket table call) connection slot post := by
  unfold onNewSocket
  split
  case h_1 target hf =>
    refine onSocket_leads kept fun eq => ?_
    subst eq
    exact called hf
  case h_2 => exact .silent kept

theorem handleTCP_leads {env : Surroundings} {seg : Segment} (kept : post (table slot) (connection slot))
    (own : getSocket table seg.destPort seg.srcIP seg.srcPort = some slot →
      (dispatch env seg (table slot)).Leads record (connection slot) post)
    (fresh : getSocket table seg.destPort seg.srcIP seg.srcPort = none → freeSlot table = some slot →
      (acceptConnection env seg (initSocket slot (table slot))).Leads record (connection slot) post) :
    Slotwise (handleTCP env seg table).1 connection slot post := by
  unfold handleTCP
  split
  case h_1 target hf =>
    refine onSocket_leads kept fun eq => ?_
    subst eq
    exact own hf
  case h_2 miss =>
    split
    · exact onNewSocket_leads kept (fresh miss)
    · exact .silent kept

end

/-! What the calls leave alone. -/

section

variable (env : Surroundings) (nth : Nat) (flags : UInt8) (sock : TCPSocket)

theorem sendTCPRaw_frame (payload copied : Bytes) : ∃ packet length last time wait,
    (sendTCPRaw env nth flags payload copied sock).1 = { sock with
      lastPacket := packet, lastPacketLen := length, lastFlags := last, lastSendTime := time, waitingAck := wait } := by
  unfold sendTCPRaw
  cases getMacFromCache env nth sock with
  | false => exact ⟨_, _, _, _, _, rfl⟩
  | true =>
    cases kept flags payload with
    | false => exact ⟨_, _, _, _, _, rfl⟩
    | true => exact ⟨_, _, _, _, _, rfl⟩

theorem sendFlags_state : (sendFlags env nth flags sock).1.state = sock.state := by
  obtain ⟨_, _, _, _, _, eq⟩ := sendTCPRaw_frame env nth flags sock [] []
  rw [sendFlags, eq]

theorem sendTCPData_state (data : Bytes) : (sendTCPData env nth data sock).1.state = sock.state := by
  unfold sendTCPData
  split
  · rfl
  · obtain ⟨_, _, _, _, _, eq⟩ := sendTCPRaw_frame env nth (tcpPsh ||| tcpAck) sock data data
    dsimp only
    rw [eq]

theorem processNodes_frame (nodes : List TCPSegmentNode) : ∃ recv target rest,
    processNodes nodes sock = { sock with recv := recv, targetSequence := target, oooList := rest } := by
  induction nodes generalizing sock with
  | nil => exact ⟨_, _, _, rfl⟩
  | cons head rest ih =>
    unfold processNodes
    split
    · obtain ⟨recv, target, left, eq⟩ := ih (receive head.payload sock)
      exact ⟨recv, target, left, eq⟩
    · split
      · exact ih sock
      · exact ⟨_, _, _, rfl⟩

theorem takeData_eq (seg : Segment) : ∃ recv target nodes, takeData env seg sock =
    sendFlags env 0 tcpAck { sock with recv := recv, targetSequence := target, oooList := nodes } := by
  unfold takeData
  split
  · obtain ⟨recv, target, nodes, eq⟩ := processNodes_frame (receive seg.payload sock) sock.oooList
    exact ⟨recv, target, nodes, congrArg _ eq⟩
  · split
    · unfold addOOOSegment
      split
      · exact ⟨_, _, _, rfl⟩
      · exact ⟨_, _, _, rfl⟩
    · exact ⟨_, _, _, rfl⟩

end

end RosKernel.Network
