import RosKernel.Library.RingBuffer
import RosKernel.Library.Traced
import Mathlib.Data.Fintype.Basic

/-! The TCP layer: its socket table, what one call sends, and the state machine of a socket.

A call reports what happened to a socket in the order of the source: the initial
sequence number it drew, the payloads it took, the packets it sent or dropped and
the states it assigned. Sequence numbers are 32-bit words. `NewNode` and the
copies made for retransmission are taken to be allocated: the source uses them
unchecked.
-/

set_option autoImplicit false

namespace RosKernel.Network

open Library

abbrev Bytes := List UInt8

def ascii (text : String) : Bytes := text.toList.map fun letter => letter.toNat.toUInt8

def tcpFin : UInt8 := 0x01
def tcpSyn : UInt8 := 0x02
def tcpRst : UInt8 := 0x04
def tcpPsh : UInt8 := 0x08
def tcpAck : UInt8 := 0x10

def has (flags bits : UInt8) : Bool := flags &&& bits != 0

inductive TCPState where
  | closed | listen | synSent | synRcvd | established | finWait1 | finWait2 | lastAck | timeWait | closeWait
  deriving DecidableEq

structure TCPSegmentNode where
  sequence : UInt32
  payload : Bytes
  deriving DecidableEq

structure TCPSocket where
  id : UInt16
  allocated : Bool
  state : TCPState
  localIP : UInt32
  remoteIP : UInt32
  localPort : UInt16
  remotePort : UInt16
  mySequence : UInt32
  targetSequence : UInt32
  lastSendTime : UInt32
  waitingAck : Bool
  lastPacket : Option Bytes
  lastPacketLen : Nat
  lastFlags : UInt8
  recv : RingBuffer UInt8
  domain : Option Bytes
  oooList : List TCPSegmentNode

structure NetworkInterface where
  ip : UInt32
  subnetMask : UInt32
  gateway : UInt32

/-- The fields of a received packet that are read, and the bytes from its TCP header on. -/
structure Segment where
  srcPort : UInt16
  destPort : UInt16
  sequenceNum : UInt32
  ackNum : UInt32
  dataOffset : UInt8
  flags : UInt8
  data : Nat → UInt8
  len : UInt32
  srcIP : UInt32

def Segment.headerLen (seg : Segment) : UInt8 := (seg.dataOffset >>> 4) * 4

def Segment.dataLen (seg : Segment) : UInt32 := seg.len - seg.headerLen.toUInt32

def Segment.payload (seg : Segment) : Bytes :=
  (List.range seg.dataLen.toNat).map fun k => seg.data (seg.headerLen.toNat + k)

/-- A packet as `SendTCPRaw` fills it in; its checksums follow from these fields. -/
structure Packet where
  srcPort : UInt16
  destPort : UInt16
  destIP : UInt32
  sequenceNum : UInt32
  ackNum : UInt32
  flags : UInt8
  windowSize : UInt16
  payload : Bytes
  deriving DecidableEq

/-- What a call finds outside the socket table. A call that sends several packets
numbers them: the ARP cache may have learned an address in between. -/
structure Surroundings where
  card : NetworkInterface
  cached : Nat → UInt32 → Bool
  ticks : UInt32
  random : UInt32
  heap : Bool
  /-- What a freed copy still holds when the next copy is made from it. -/
  freed : Nat → Nat → UInt8
  /-- The uninitialised socket on the stack that sends a reset. -/
  stack : TCPSocket

inductive Traffic where
  | initial (sequence : UInt32)
  | accepted (payload : Bytes)
  | sent (packet : Packet)
  | dropped (packet : Packet)
  | resent (packet : Packet)
  | resendDropped (packet : Packet)
  | moved (state : TCPState)
  deriving DecidableEq

abbrev Exchange := Traced TCPSocket Traffic

def become (state : TCPState) (sock : TCPSocket) : Exchange := ({ sock with state := state }, [.moved state])

def drawSequence (env : Surroundings) (sock : TCPSocket) : Exchange :=
  ({ sock with mySequence := env.random }, [.initial env.random])

def nextHop (card : NetworkInterface) (remoteIP : UInt32) : UInt32 :=
  if remoteIP &&& card.subnetMask ≠ card.ip &&& card.subnetMask then card.gateway else remoteIP

def windowSize (recv : RingBuffer UInt8) : UInt16 :=
  let freeSpace := UInt16.ofNat (recv.size - recv.used)
  if freeSpace < 1460 then 0 else freeSpace

def buildPacket (sock : TCPSocket) (flags : UInt8) (payload : Bytes) : Packet :=
  { srcPort := sock.localPort
    destPort := sock.remotePort
    destIP := sock.remoteIP
    sequenceNum := sock.mySequence
    ackNum := sock.targetSequence
    flags := flags
    windowSize := windowSize sock.recv
    payload := payload }

/-- A packet that is kept until it is acknowledged: a bare acknowledgement is not. -/
def kept (flags : UInt8) (payload : Bytes) : Bool := has flags (tcpSyn ||| tcpFin) || payload.length > 0

section

variable (env : Surroundings) (nth : Nat)
include env nth

def getMacFromCache (sock : TCPSocket) : Bool :=
  env.cached nth (nextHop env.card sock.remoteIP)

/-- The copy for retransmission is made from `copied`: the caller's payload, unless
the caller passed the old copy itself, which is freed just before. -/
def sendTCPRaw (flags : UInt8) (payload copied : Bytes) (sock : TCPSocket) : Exchange :=
  let packet := buildPacket sock flags payload
  if getMacFromCache env nth sock then
    if kept flags payload then
      ({ sock with
          lastPacket := some copied
          lastPacketLen := payload.length
          lastFlags := flags
          lastSendTime := env.ticks
          waitingAck := true }, [.sent packet])
    else (sock, [.sent packet])
  else (sock, [.dropped packet])

/-- A packet without payload. -/
def sendFlags (flags : UInt8) (sock : TCPSocket) : Exchange :=
  sendTCPRaw env nth flags [] [] sock

def sendTCPData (data : Bytes) (sock : TCPSocket) : Exchange :=
  if sock.state ≠ .established then (sock, [])
  else
    let result := sendTCPRaw env nth (tcpPsh ||| tcpAck) data data sock
    ({ result.1 with mySequence := result.1.mySequence + UInt32.ofNat data.length }, .accepted data :: result.2)

end

def freeSocket (sock : TCPSocket) : Exchange :=
  ({ sock with
      allocated := false
      state := .closed
      lastPacket := none
      domain := none
      oooList := [] }, [.moved .closed])

def stopTimer (sock : TCPSocket) : TCPSocket := { sock with waitingAck := false, lastPacket := none }

/-- The acknowledgement the retransmission timer waits for. -/
def acknowledge (ack : UInt32) (sock : TCPSocket) : TCPSocket :=
  if sock.waitingAck ∧ ack = sock.mySequence then stopTimer sock else sock

section

/-- The walk of `AddOOOSegment` from a node that is not above the new one. -/
def insertAfter (node : TCPSegmentNode) : TCPSegmentNode → List TCPSegmentNode → List TCPSegmentNode
  | current, [] => if current.sequence = node.sequence then [current] else [current, node]
  | current, next :: rest =>
    if next.sequence < node.sequence then current :: insertAfter node next rest
    else if current.sequence = node.sequence ∨ next.sequence = node.sequence then current :: next :: rest
    else current :: node :: next :: rest

def insertSegment (node : TCPSegmentNode) : List TCPSegmentNode → List TCPSegmentNode
  | [] => [node]
  | head :: rest => if node.sequence < head.sequence then node :: head :: rest else insertAfter node head rest

def addOOOSegment (env : Surroundings) (sequence : UInt32) (payload : Bytes) (sock : TCPSocket) : TCPSocket :=
  if env.heap then { sock with oooList := insertSegment ⟨sequence, payload⟩ sock.oooList } else sock

/-- Data in sequence goes to the ring and moves the expected sequence number. -/
def receive (payload : Bytes) (sock : TCPSocket) : TCPSocket :=
  { sock with
    recv := sock.recv.putAll payload
    targetSequence := sock.targetSequence + UInt32.ofNat payload.length }

def processNodes : List TCPSegmentNode → TCPSocket → TCPSocket
  | [], sock => { sock with oooList := [] }
  | head :: rest, sock =>
    if head.sequence = sock.targetSequence then processNodes rest (receive head.payload sock)
    else if head.sequence < sock.targetSequence then processNodes rest sock
    else { sock with oooList := head :: rest }

def processOOOList (sock : TCPSocket) : TCPSocket := processNodes sock.oooList sock

end

section

variable (env : Surroundings) (seg : Segment)

def acceptSyn (sock : TCPSocket) : Exchange :=
  ((drawSequence env { sock with targetSequence := seg.sequenceNum + 1 }).next
    (sendFlags env 0 (tcpSyn ||| tcpAck))).next fun sock =>
      become .synRcvd { sock with mySequence := sock.mySequence + 1 }

def caseListen (sock : TCPSocket) : Exchange :=
  if has seg.flags tcpSyn then
    acceptSyn env seg { sock with remoteIP := seg.srcIP, remotePort := seg.srcPort }
  else (sock, [])

def httpRequest (domain : Option Bytes) : Bytes :=
  let host := match domain with
    | some (letter :: rest) => letter :: rest
    | _ => ascii "unknown"
  ascii "GET / HTTP/1.1\r\nHost: " ++ host ++ ascii "\r\nConnection: close\r\n\r\n"

def caseSynSent (sock : TCPSocket) : Exchange :=
  if has seg.flags tcpSyn ∧ has seg.flags tcpAck then
    (((sendFlags env 0 tcpAck { sock with
        remoteIP := seg.srcIP
        targetSequence := seg.sequenceNum + 1
        mySequence := sock.mySequence + 1 }).next (become .established))).next fun sock =>
      sendTCPData env 1 (httpRequest sock.domain) { sock with mySequence := sock.mySequence + 1 }
  else if has seg.flags tcpSyn then
    (sendFlags env 0 tcpAck { sock with
      targetSequence := seg.sequenceNum + 1
      mySequence := sock.mySequence + 1 }).next (become .synRcvd)
  else (sock, [])

/-- Data beyond the expected sequence number: the case returns without looking at ACK and FIN. -/
def Segment.early (seg : Segment) (target : UInt32) : Bool := seg.payload.length > 0 && target < seg.sequenceNum

def takeData (sock : TCPSocket) : Exchange :=
  if seg.sequenceNum = sock.targetSequence then
    sendFlags env 0 tcpAck (processOOOList (receive seg.payload sock))
  else if sock.targetSequence < seg.sequenceNum then
    sendFlags env 0 tcpAck (addOOOSegment env seg.sequenceNum seg.payload sock)
  else sendFlags env 0 tcpAck sock

def Segment.request (seg : Segment) : Bool := seg.payload.take 5 = ascii "GET /"

def htmlResponse : Bytes :=
  ascii "HTTP/1.1 200 OK\r\nContent-Type: text/html\r\nConnection: close\r\n\r\n" ++
  ascii "<html><head><title>R-OS</title></head>" ++
  ascii "<body><h1 style='color:blue'>Hello from R-OS Kernel!</h1>" ++
  ascii "<p>TCP Stack is working!</p></body></html>"

section

variable (sock : TCPSocket)
include sock

def respond : Exchange :=
  ((sendTCPData env 1 htmlResponse sock).next (sendFlags env 2 (tcpFin ||| tcpAck))).next fun sock =>
    become .finWait1 { sock with mySequence := sock.mySequence + 1 }

def closeByFin : Exchange :=
  ((sendFlags env 3 tcpAck { sock with targetSequence := sock.targetSequence + 1 }).next
    (sendFlags env 4 (tcpFin ||| tcpAck))).next (become .lastAck)

/-- The rest of ESTABLISHED once the data is dealt with. -/
def finish : Exchange :=
  if has seg.flags tcpFin then closeByFin env (acknowledge seg.ackNum sock)
  else (acknowledge seg.ackNum sock, [])

def caseEstablished : Exchange :=
  if seg.early sock.targetSequence then takeData env seg sock
  else if seg.payload.length > 0 then
    if seg.request then ((takeData env seg sock).next (respond env)).next (finish env seg)
    else (takeData env seg sock).next (finish env seg)
  else finish env seg sock

def caseSynRcvd : Exchange :=
  if has seg.flags tcpSyn then
    let resent := sendFlags env 0 (tcpSyn ||| tcpAck) { sock with mySequence := sock.mySequence - 1 }
    ({ resent.1 with mySequence := resent.1.mySequence + 1 }, resent.2)
  else if has seg.flags tcpAck ∧ seg.ackNum = sock.mySequence then
    ((become .established sock).next fun sock => (stopTimer sock, [])).next (caseEstablished env seg)
  else (sock, [])

def freeByFin : Exchange :=
  (sendFlags env 0 tcpAck { sock with targetSequence := sock.targetSequence + 1 }).next freeSocket

def caseFinWait1 : Exchange :=
  let acked := if has seg.flags tcpAck then become .finWait2 (acknowledge seg.ackNum sock) else (sock, [])
  if has seg.flags tcpFin then Traced.next acked (freeByFin env) else acked

def caseFinWait2 : Exchange :=
  if has seg.flags tcpFin then freeByFin env sock else (sock, [])

def caseLastAck : Exchange :=
  if has seg.flags tcpAck then freeSocket sock else (sock, [])

/-- `switch (Sock->State)` of `HandleTCP`. -/
def dispatch : Exchange :=
  match sock.state with
  | .listen => caseListen env seg sock
  | .synSent => caseSynSent env seg sock
  | .synRcvd => caseSynRcvd env seg sock
  | .established => caseEstablished env seg sock
  | .finWait1 => caseFinWait1 env seg sock
  | .finWait2 => caseFinWait2 env seg sock
  | .lastAck => caseLastAck seg sock
  | .closed | .timeWait | .closeWait => (sock, [])

end

end

section

abbrev maxTcpSockets : Nat := 128

abbrev Slot := Fin maxTcpSockets

abbrev SocketTable := Slot → TCPSocket

/-- A table after a call and what the call did to each of its sockets. -/
abbrev Outcome := Slot → Exchange

def Outcome.table (outcome : Outcome) : SocketTable := fun slot => (outcome slot).1

def untouched (table : SocketTable) : Outcome := fun slot => (table slot, [])

def onSocket (table : SocketTable) (slot : Slot) (call : TCPSocket → Exchange) : Outcome :=
  Function.update (untouched table) slot (call (table slot))

def findSlot (table : SocketTable) (holds : TCPSocket → Bool) : Option Slot :=
  (List.finRange maxTcpSockets).find? fun slot => holds (table slot)

def recvBufferSize : Nat := 8192

/-- `AllocateSocket` on the slot it found. The cells of the new buffer are not
cleared; none is read before it is written. -/
def initSocket (slot : Slot) (sock : TCPSocket) : TCPSocket :=
  { sock with
    allocated := true
    id := UInt16.ofNat slot.val
    state := .closed
    waitingAck := false
    lastPacket := none
    recv := { sock.recv with size := recvBufferSize, write := 0, read := 0 }
    domain := some [] }

section

variable (table : SocketTable)
include table

def freeSlot : Option Slot := findSlot table fun sock => !sock.allocated

/-- A call on the socket `AllocateSocket` returns; nothing happens when the table is full. -/
def onNewSocket (call : TCPSocket → Exchange) : Outcome :=
  match freeSlot table with
  | some slot => onSocket table slot fun sock => call (initSocket slot sock)
  | none => untouched table

def getSocket (localPort : UInt16) (remoteIP : UInt32) (remotePort : UInt16) : Option Slot :=
  findSlot table fun sock =>
    sock.allocated && sock.localPort == localPort && sock.remoteIP == remoteIP && sock.remotePort == remotePort

def getListener (localPort : UInt16) : Option Slot :=
  findSlot table fun sock => sock.allocated && sock.state == .listen && sock.localPort == localPort

end

section

variable (env : Surroundings)
include env

def connectSyn (sock : TCPSocket) : Exchange :=
  ((drawSequence env sock).next (sendFlags env 0 tcpSyn)).next (become .synSent)

def tcpListen (localPort : UInt16) (table : SocketTable) : Outcome :=
  onNewSocket table fun sock => become .listen { sock with
    localIP := env.card.ip, localPort := localPort, remoteIP := 0, remotePort := 0 }

def tcpConnect (targetIP : UInt32) (targetPort : UInt16) (domain : Bytes) (table : SocketTable) : Outcome :=
  onNewSocket table fun sock => connectSyn env { sock with
    localIP := env.card.ip
    remoteIP := targetIP
    localPort := 40000 + sock.id
    remotePort := targetPort
    targetSequence := 0
    domain := some domain }

def sysConnect (remoteIP : UInt32) (remotePort : UInt16) (sock : TCPSocket) : Exchange :=
  if sock.state ≠ .closed ∧ sock.state ≠ .listen then (sock, [])
  else connectSyn env { sock with
    remoteIP := remoteIP, remotePort := remotePort, localIP := env.card.ip, localPort := 40000 + sock.id }

/-- A connection request for a listener is answered from a new socket. -/
def acceptConnection (seg : Segment) (sock : TCPSocket) : Exchange :=
  acceptSyn env seg { sock with
    localIP := env.card.ip, localPort := seg.destPort, remoteIP := seg.srcIP, remotePort := seg.srcPort }

/-- The reset for a segment that belongs to no socket. -/
def rejectSegment (seg : Segment) : List Traffic :=
  if has seg.flags tcpRst then []
  else (sendFlags env 0 (tcpRst ||| tcpAck) { env.stack with
    localPort := seg.destPort
    remotePort := seg.srcPort
    localIP := env.card.ip
    remoteIP := seg.srcIP
    mySequence := seg.ackNum
    targetSequence := seg.sequenceNum + 1 }).2

/-- The segment is answered by the socket of its addresses, by a new socket of a
listener, or by a reset that touches no socket. -/
def handleTCP (seg : Segment) (table : SocketTable) : Outcome × List Traffic :=
  match getSocket table seg.destPort seg.srcIP seg.srcPort with
  | some slot => (onSocket table slot (dispatch env seg), [])
  | none =>
    if (getListener table seg.destPort).isSome ∧ has seg.flags tcpSyn ∧ (freeSlot table).isSome then
      (onNewSocket table (acceptConnection env seg), [])
    else (untouched table, rejectSegment env seg)

end

def retransmitTimeout : UInt32 := 1000

/-- The payload `SendTCPRaw` is given: a null copy leaves the zeroes of the new buffer. -/
def lastPayload (sock : TCPSocket) : Bytes := sock.lastPacket.getD (List.replicate sock.lastPacketLen 0)

def rewound (sock : TCPSocket) : UInt32 :=
  sock.mySequence - UInt32.ofNat (sock.lastPacketLen + if has sock.lastFlags (tcpSyn ||| tcpFin) then 1 else 0)

def expired (env : Surroundings) (sock : TCPSocket) : Bool :=
  sock.allocated && sock.waitingAck && retransmitTimeout < env.ticks - sock.lastSendTime

/-- Sending again what is kept. -/
def asResent : Traffic → Traffic
  | .sent packet => .resent packet
  | .dropped packet => .resendDropped packet
  | other => other

def retransmit (env : Surroundings) (nth : Nat) (sock : TCPSocket) : Exchange :=
  let copied := (List.range sock.lastPacketLen).map (env.freed nth)
  let result := sendTCPRaw env nth sock.lastFlags (lastPayload sock) copied { sock with mySequence := rewound sock }
  ({ result.1 with mySequence := sock.mySequence, lastSendTime := env.ticks }, result.2.map asResent)

def tcpCheckRetransmission (env : Surroundings) (table : SocketTable) : Outcome := fun slot =>
  if expired env (table slot) then retransmit env slot.val (table slot) else (table slot, [])

/-- `none` for a socket that is not allocated. -/
def tcpRecv (env : Surroundings) (len : Nat) (sock : TCPSocket) : Option Bytes × Exchange :=
  if !sock.allocated then (none, sock, [])
  else
    let result := RingBuffer.take len sock.recv
    let emptied := { sock with recv := result.2 }
    if sock.recv.size - sock.recv.used < 1460 ∧ 0 < result.1.length then
      (some result.1, sendFlags env 0 tcpAck emptied)
    else (some result.1, emptied, [])

end

end RosKernel.Network
