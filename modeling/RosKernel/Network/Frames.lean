import Mathlib.Tactic.IntervalCases
import RosKernel.Network.Tcp

/-! The frames of the IP stack, `network/ethernetstack.cpp`, `network/checksum.hpp` and `network/swapper.hpp`.

A 32-bit word lies in memory with its least significant byte first. Addresses are kept in network byte order, ports and
lengths in the order of the host, and all are copied between packets and words byte by byte.
-/

set_option autoImplicit false

namespace RosKernel.Network

def swap16 (val : UInt16) : UInt16 := (val <<< 8) ||| (val >>> 8)

def swap32 (val : UInt32) : UInt32 :=
  ((val <<< 24) &&& (0xFF000000 : UInt32)) ||| ((val <<< 8) &&& (0x00FF0000 : UInt32)) |||
    ((val >>> 8) &&& (0x0000FF00 : UInt32)) ||| ((val >>> 24) &&& (0x000000FF : UInt32))

def word (first second third fourth : UInt8) : UInt32 :=
  ⟨fourth.toBitVec ++ third.toBitVec ++ second.toBitVec ++ first.toBitVec⟩

def wordBytes (value : UInt32) : Bytes :=
  [⟨value.toBitVec.extractLsb' 0 8⟩, ⟨value.toBitVec.extractLsb' 8 8⟩, ⟨value.toBitVec.extractLsb' 16 8⟩,
    ⟨value.toBitVec.extractLsb' 24 8⟩]

def firstWord (bytes : Bytes) : UInt32 := word (bytes.getD 0 0) (bytes.getD 1 0) (bytes.getD 2 0) (bytes.getD 3 0)

theorem firstWord_wordBytes (value : UInt32) : firstWord (wordBytes value) = value := by
  apply UInt32.toBitVec_inj.mp
  unfold firstWord wordBytes word
  ext i lt
  grind

/-- A card with its hardware address and its name server. -/
structure NetworkCard extends NetworkInterface where
  mac : Vector UInt8 6
  dnsServer : UInt32

/-- What a packet holds from a position on. -/
def Holds (data : Nat → UInt8) : Nat → Bytes → Prop
  | _, [] => True
  | pos, byte :: rest => data pos = byte ∧ Holds data (pos + 1) rest

section

variable {data : Nat → UInt8} {pos : Nat} {front back : Bytes}

theorem holds_append : Holds data pos (front ++ back) ↔ Holds data pos front ∧ Holds data (pos + front.length) back := by
  induction front generalizing pos with
  | nil => exact ⟨fun holds => ⟨trivial, holds⟩, And.right⟩
  | cons byte front ih =>
    rw [List.cons_append, Holds, Holds, ih, List.length_cons, and_assoc,
      show pos + 1 + front.length = pos + (front.length + 1) by omega]

theorem Holds.getD (holds : Holds data pos front) {i : Nat} (hin : i < front.length) : data (pos + i) = front.getD i 0 := by
  induction front generalizing pos i with
  | nil => exact absurd hin (Nat.not_lt_zero i)
  | cons byte front ih =>
    cases i with
    | zero => exact holds.1
    | succ i =>
      rw [List.getD_cons_succ, ← ih holds.2 (Nat.lt_of_succ_lt_succ hin), show pos + (i + 1) = pos + 1 + i by omega]

end

abbrev Mac := Vector UInt8 6

def halfBytes (value : UInt16) : Bytes := [value.toUInt8, (value >>> 8).toUInt8]

def copied (data : Nat → UInt8) (len : Nat) : Bytes := (List.range len).map data

theorem length_copied (data : Nat → UInt8) (len : Nat) : (copied data len).length = len := by
  rw [copied, List.length_map, List.length_range]

theorem copied_getD (bytes : Bytes) (behind : Nat → UInt8) : copied (fun i => bytes.getD i (behind i)) bytes.length = bytes := by
  apply List.ext_getElem (length_copied _ _)
  intro i _ hin
  simp only [copied, List.getElem_map, List.getElem_range]
  rw [List.getD, List.getElem?_eq_getElem hin, Option.getD_some]

section

def sumWords : Bytes → Nat
  | low :: high :: rest => low.toNat + 256 * high.toNat + sumWords rest
  | [last] => last.toNat
  | [] => 0

def foldCarry (sum : Nat) : Nat := if sum / 2 ^ 16 ≠ 0 then foldCarry (sum % 2 ^ 16 + sum / 2 ^ 16) else sum
termination_by sum
decreasing_by omega

def calculateChecksum (data : Bytes) : UInt16 := ~~~ UInt16.ofNat (foldCarry (sumWords data % 2 ^ 32))

end

def ipProtocolICMP : UInt8 := 1

def ipProtocolTCP : UInt8 := 6

def ipProtocolUDP : UInt8 := 17

def etherTypeIP : UInt16 := 0x0800

def etherTypeARP : UInt16 := 0x0806

def arpOpRequest : UInt16 := 1

def arpOpReply : UInt16 := 2

def broadcastIP : UInt32 := 0xFFFFFFFF

def broadcastMac : Mac := Vector.replicate 6 0xFF

def ethernetHeader (dest src : Mac) (type : UInt16) : Bytes := dest.toList ++ src.toList ++ halfBytes type

/-- The header before data of a given length. -/
def ipv4Header (card : NetworkCard) (protocol : UInt8) (destIP : UInt32) (dataLen : Nat) : Bytes :=
  let header (checksum : UInt16) : Bytes :=
    [0x45, 0] ++ halfBytes (swap16 (UInt16.ofNat (20 + dataLen))) ++ halfBytes (swap16 0) ++ halfBytes (swap16 0x4000) ++
      [64, protocol] ++ halfBytes checksum ++ wordBytes card.ip ++ wordBytes destIP
  header (calculateChecksum (header 0))

def ipFrame (card : NetworkCard) (destMac : Mac) (protocol : UInt8) (destIP : UInt32) (data : Bytes) : Bytes :=
  ethernetHeader destMac card.mac (swap16 etherTypeIP) ++ ipv4Header card protocol destIP data.length ++ data

def udpData (srcPort destPort : UInt16) (payload : Bytes) : Bytes :=
  halfBytes (swap16 srcPort) ++ halfBytes (swap16 destPort) ++ halfBytes (swap16 (UInt16.ofNat (8 + payload.length))) ++
    halfBytes 0 ++ payload

def icmpData (seq id : UInt16) (payload : Bytes) : Bytes :=
  let echo (checksum : UInt16) : Bytes :=
    [8, 0] ++ halfBytes checksum ++ halfBytes (swap16 id) ++ halfBytes (swap16 seq) ++ payload
  echo (calculateChecksum (echo 0))

def tcpData (sock : TCPSocket) (flags : UInt8) (payload : Bytes) : Bytes :=
  let packet := buildPacket sock flags payload
  let segment (checksum : UInt16) : Bytes :=
    halfBytes (swap16 packet.srcPort) ++ halfBytes (swap16 packet.destPort) ++ wordBytes (swap32 packet.sequenceNum) ++
      wordBytes (swap32 packet.ackNum) ++ [0x50, packet.flags] ++ halfBytes (swap16 packet.windowSize) ++
      halfBytes checksum ++ halfBytes 0 ++ packet.payload
  let pseudo : Bytes := wordBytes sock.localIP ++ wordBytes packet.destIP ++ [0, ipProtocolTCP] ++
    halfBytes (swap16 (UInt16.ofNat (20 + payload.length)))
  segment (calculateChecksum (pseudo ++ segment 0))

/-- The arguments of `SendUDP`, `SendICMP` and `SendTCPRaw` besides the card. -/
inductive Request where
  | udp (destIP : UInt32) (srcPort destPort : UInt16) (payload : Bytes)
  | icmp (destIP : UInt32) (seq id : UInt16) (payload : Bytes)
  | tcp (sock : TCPSocket) (flags : UInt8) (payload : Bytes)

def route (card : NetworkCard) (destIP : UInt32) : UInt32 :=
  if destIP = broadcastIP then destIP
  else if destIP &&& card.subnetMask = card.ip &&& card.subnetMask then destIP
  else card.gateway

namespace Request

def protocol : Request → UInt8
  | udp .. => ipProtocolUDP
  | icmp .. => ipProtocolICMP
  | tcp .. => ipProtocolTCP

def nextHop (card : NetworkCard) : Request → UInt32
  | udp destIP .. => route card destIP
  | icmp destIP .. => route card destIP
  | tcp sock .. => Network.nextHop card.toNetworkInterface sock.remoteIP

def payload : Request → Bytes
  | udp _ _ _ payload => payload
  | icmp _ _ _ payload => payload
  | tcp _ _ payload => payload

/-- The frame that the call transmits. -/
def frame (card : NetworkCard) (destMac : Mac) : Request → Bytes
  | udp destIP srcPort destPort payload => ipFrame card destMac ipProtocolUDP destIP (udpData srcPort destPort payload)
  | icmp destIP seq id payload => ipFrame card destMac ipProtocolICMP destIP (icmpData seq id payload)
  | tcp sock flags payload => ipFrame card destMac ipProtocolTCP sock.remoteIP (tcpData sock flags payload)

end Request

end RosKernel.Network
