import RosKernel.Library.Runs
import RosKernel.Network.ArpCache

/-! The packet that waits for a hardware address, `network/ethernetstack.cpp` and `SendTCPRaw` of `network/tcp.cpp`: it leaves
as its call would have sent it, in every run whose steps meet their condition.

The stack is the card, the cache and `g_PendingUDP`. Buffers are named by the number of their allocation; they are taken to be
allocated, as the source uses them unchecked. `SendTCPRaw` is here for what it does to the stack; what it does to its socket
is in the model of the TCP layer.
-/

set_option autoImplicit false

namespace RosKernel.Network

open Library
open List (append_assoc append_nil forall_mem_nil forall_mem_singleton mem_append mem_append_left mem_append_right mem_singleton)
open Function (update update_self)

structure PendingPacket where
  valid : Bool
  protocol : UInt8
  targetIP : UInt32
  srcPort : UInt16
  destPort : UInt16
  payload : Nat
  payloadLen : UInt32

structure EthernetStack where
  card : NetworkCard
  arpCache : ArpCache
  pending : PendingPacket
  /-- The buffers that have not been freed. -/
  heap : Nat → Option Bytes
  nextBuffer : Nat

/-- Where a call finds its data: with its caller, or in a buffer of a packet that waited. -/
inductive Source where
  | caller (data : Nat → UInt8)
  /-- A buffer that has been freed holds what the allocator left in it. -/
  | buffer (id : Nat) (stale : Nat → UInt8)

inductive Event where
  /-- An ARP packet has this sender, or an IP packet has this source on the subnet of the card. -/
  | announced (ip : UInt32) (mac : Mac)
  | queued (buffer : Nat) (card : NetworkCard) (request : Request)
  | used (buffer : Nat)
  | freed (buffer : Nat)
  /-- A packet has been sent, with data from the buffer of a packet that waited or from the caller. -/
  | sent (buffer : Option Nat) (frame : Bytes)
  | sentARP (frame : Bytes)

def Source.id : Source → Option Nat
  | caller _ => none
  | buffer id _ => some id

def Source.reads : Source → List Event
  | caller _ => []
  | buffer id _ => [.used id]

def arpRequest (card : NetworkCard) (targetIP : UInt32) : Bytes :=
  ethernetHeader broadcastMac card.mac (swap16 etherTypeARP) ++ halfBytes (swap16 1) ++ halfBytes (swap16 0x0800) ++ [6, 4] ++
    halfBytes (swap16 arpOpRequest) ++ card.mac.toList ++ wordBytes card.ip ++ List.replicate 6 0 ++ wordBytes targetIP ++
    List.replicate 22 0

/-- The fields of a received ARP packet and of its Ethernet header that are read, as they lie there. -/
structure ARPFrame where
  ethSrc : Mac
  ethType : UInt16
  hardwareType : UInt16
  protocolType : UInt16
  opCode : UInt16
  srcMac : Mac
  srcIp : UInt32
  destIP : UInt32

def flipped (ip : UInt32) : UInt32 :=
  ((ip &&& 0xFF) <<< 24) ||| ((ip &&& 0xFF00) <<< 8) ||| ((ip &&& 0xFF0000) >>> 8) ||| ((ip &&& 0xFF000000) >>> 24)

/-- The second half of `HandleARP`. -/
def arpReply (card : NetworkCard) (frame : ARPFrame) : List Event :=
  if swap16 frame.opCode = arpOpRequest ∧ (frame.destIP = card.ip ∨ frame.destIP = flipped card.ip) then
    [.sentARP (ethernetHeader frame.ethSrc card.mac frame.ethType ++ halfBytes frame.hardwareType ++ halfBytes frame.protocolType ++
      [6, 4] ++ halfBytes (swap16 arpOpReply) ++ card.mac.toList ++ wordBytes card.ip ++ frame.srcMac.toList ++ wordBytes frame.srcIp)]
  else []

namespace EthernetStack

variable (stack : EthernetStack)

def free (buffer : Nat) : Traced EthernetStack Event :=
  ({ stack with heap := Function.update stack.heap buffer none }, [.freed buffer])

def read (source : Source) (len : UInt16) : Bytes :=
  match source with
  | .caller data => copied data len.toNat
  | .buffer id stale => copied (fun i => match stack.heap id with
    | some bytes => bytes.getD i (stale i)
    | none => stale i) len.toNat

def freePending : Traced EthernetStack Event := if stack.pending.valid then stack.free stack.pending.payload else (stack, [])

/-- The queueing of the three calls; `request` says which call it is once its data has been copied. -/
def enqueue (nextHopIP : UInt32) (protocol : UInt8) (targetIP : UInt32) (srcPort destPort : UInt16) (source : Source)
    (len : UInt16) (request : Bytes → Request) : Traced EthernetStack Event :=
  stack.freePending.next fun stack =>
    let payload := stack.nextBuffer
    let data := stack.read source len
    ({ stack with
        pending := ⟨true, protocol, targetIP, srcPort, destPort, payload, len.toUInt32⟩
        heap := Function.update stack.heap payload (some data)
        nextBuffer := payload + 1 },
      source.reads ++ [.queued payload stack.card (request data), .sentARP (arpRequest stack.card nextHopIP)])

def transmit (destMac : Mac) (source : Source) (request : Request) : Traced EthernetStack Event :=
  (stack, source.reads ++ [.sent source.id (request.frame stack.card destMac)])

def sendUDP (destIP : UInt32) (srcPort destPort : UInt16) (source : Source) (len : UInt16) : Traced EthernetStack Event :=
  let nextHopIP := route stack.card destIP
  match if nextHopIP = broadcastIP then some broadcastMac else stack.arpCache.getMacFromCache nextHopIP with
  | none => stack.enqueue nextHopIP ipProtocolUDP destIP srcPort destPort source len (.udp destIP srcPort destPort)
  | some destMac => stack.transmit destMac source (.udp destIP srcPort destPort (stack.read source len))

def sendICMP (destIP : UInt32) (seq id : UInt16) (source : Source) (len : UInt16) : Traced EthernetStack Event :=
  let nextHopIP := route stack.card destIP
  match stack.arpCache.getMacFromCache nextHopIP with
  | none => stack.enqueue nextHopIP ipProtocolICMP destIP id seq source len (.icmp destIP seq id)
  | some destMac => stack.transmit destMac source (.icmp destIP seq id (stack.read source len))

def sendTCPRaw (sock : TCPSocket) (flags : UInt8) (payload : Nat → UInt8) (payloadLen : UInt16) : Traced EthernetStack Event :=
  let nextHopIP := nextHop stack.card.toNetworkInterface sock.remoteIP
  match stack.arpCache.getMacFromCache nextHopIP with
  | none =>
    -- the ports are those of the header, already in network byte order, and the packet waits as a datagram to address zero
    stack.enqueue nextHopIP ipProtocolUDP 0 (swap16 sock.localPort) (swap16 sock.remotePort) (.caller payload) payloadLen
      (.tcp sock flags)
  | some destMac => stack.transmit destMac (.caller payload) (.tcp sock flags (stack.read (.caller payload) payloadLen))

def nextHopCheck : UInt32 :=
  if stack.pending.targetIP &&& stack.card.subnetMask = stack.card.ip &&& stack.card.subnetMask then stack.pending.targetIP
  else stack.card.gateway

/-- The packet that waits is tried again when this address has been announced. -/
def Retries (srcIp : UInt32) : Prop := stack.pending.valid = true ∧ stack.nextHopCheck = srcIp

instance (srcIp : UInt32) : Decidable (stack.Retries srcIp) := inferInstanceAs (Decidable (_ ∧ _))

def retry (stale : Nat → UInt8) : Traced EthernetStack Event :=
  let pending := stack.pending
  if pending.protocol = ipProtocolUDP then
    stack.sendUDP pending.targetIP pending.srcPort pending.destPort (.buffer pending.payload stale) pending.payloadLen.toUInt16
  else if pending.protocol = ipProtocolICMP then
    stack.sendICMP pending.targetIP pending.destPort pending.srcPort (.buffer pending.payload stale) pending.payloadLen.toUInt16
  else (stack, [])

/-- What `HandleARP` does with the packet that waits. -/
def resolve (srcIp : UInt32) (stale : Nat → UInt8) : Traced EthernetStack Event :=
  if stack.Retries srcIp then
    -- the call may have queued again, and then it is the new buffer that is freed
    ((stack.retry stale).next fun stack => stack.free stack.pending.payload).next fun stack =>
      ({ stack with pending := { stack.pending with valid := false } }, [])
  else (stack, [])

def handleARP (frame : ARPFrame) (stale : Nat → UInt8) : Traced EthernetStack Event :=
  (resolve { stack with arpCache := updateArpCache stack.arpCache frame.srcIp frame.srcMac } frame.srcIp stale).next fun stack =>
    (stack, arpReply stack.card frame)

def handleIP (srcIP : UInt32) (ethSrc : Mac) : EthernetStack :=
  { stack with arpCache := updateArpCache stack.arpCache (swap32 srcIP) ethSrc }

end EthernetStack

/-- The calls into the stack. What the handler of a received IP packet sends, and how it sets up the card, are
calls of their own after `handleIP`. -/
inductive Action where
  | sendUDP (destIP : UInt32) (srcPort destPort : UInt16) (data : Nat → UInt8) (len : UInt16)
  | sendICMP (destIP : UInt32) (seq id : UInt16) (data : Nat → UInt8) (len : UInt16)
  | sendTCPRaw (sock : TCPSocket) (flags : UInt8) (payload : Nat → UInt8) (payloadLen : UInt16)
  | configure (card : NetworkCard)
  | handleARP (frame : ARPFrame) (stale : Nat → UInt8)
  | handleIP (srcIP : UInt32) (ethSrc : Mac)

def EthernetStack.act (stack : EthernetStack) : Action → Traced EthernetStack Event
  | .sendUDP destIP srcPort destPort data len => stack.sendUDP destIP srcPort destPort (.caller data) len
  | .sendICMP destIP seq id data len => stack.sendICMP destIP seq id (.caller data) len
  | .sendTCPRaw sock flags payload payloadLen => stack.sendTCPRaw sock flags payload payloadLen
  | .configure card => ({ stack with card := card }, [])
  | .handleARP frame stale => stack.handleARP frame stale
  | .handleIP srcIP ethSrc => (stack.handleIP srcIP ethSrc, [])

/-- The address that was announced last. -/
def lastAnnounced (known : UInt32 → Option Mac) (log : List Event) : UInt32 → Option Mac :=
  log.foldl (fun known event => match event with
    | .announced ip mac => update known ip (some mac)
    | _ => known) known

/-- What an event has to be after the events before it. -/
def Fair (known : UInt32 → Option Mac) (log : List Event) : Event → Prop
  | .queued buffer _ _ => ∀ card request, .queued buffer card request ∉ log
  | .sent (some buffer) frame => (∃ card request mac, .queued buffer card request ∈ log ∧
      lastAnnounced known log (request.nextHop card) = some mac ∧ frame = request.frame card mac) ∧
      ∀ again, .sent (some buffer) again ∉ log
  | .used buffer => .freed buffer ∉ log
  | .freed buffer => .freed buffer ∉ log
  | _ => True

structure Moment where
  stack : EthernetStack
  log : List Event

def Action.announces (card : NetworkCard) : Action → List Event
  | .handleARP frame _ => [.announced frame.srcIp frame.srcMac]
  | .handleIP srcIP ethSrc =>
    if srcIP &&& card.subnetMask = card.ip &&& card.subnetMask then [.announced srcIP ethSrc] else []
  | _ => []

def Moment.step (moment : Moment) (action : Action) : Option Moment :=
  let result := moment.stack.act action
  some ⟨result.1, moment.log ++ action.announces moment.stack.card ++ result.2⟩

/-- Every packet that waited has been sent as it would have been, once, its buffer is freed once and not used afterwards, and
the cache knows what has been announced. -/
structure Moment.Right (known : UInt32 → Option Mac) (moment : Moment) : Prop where
  fair : Traced.Throughout (Fair known) moment.log
  freed : ∀ buffer frame, .sent (some buffer) frame ∈ moment.log → .freed buffer ∈ moment.log
  settled : ∀ buffer card request, .queued buffer card request ∈ moment.log →
    .freed buffer ∈ moment.log ∨ moment.stack.pending.valid = true ∧ moment.stack.pending.payload = buffer
  cached : moment.stack.arpCache.getMacFromCache = lastAnnounced known moment.log

/-- The call that queued the packet was not `SendTCPRaw`, the card has kept its addresses, and the next hop of then is the one
that answers, or is known under the same address. -/
structure EthernetStack.Resumes (stack : EthernetStack) (frame : ARPFrame) (card : NetworkCard) (request : Request) : Prop where
  protocol : request.protocol ≠ ipProtocolTCP
  ip : card.ip = stack.card.ip
  mac : card.mac = stack.card.mac
  hop : request.nextHop card = frame.srcIp ∨
    request.nextHop card ≠ broadcastIP ∧ stack.arpCache.lookup (request.nextHop card) = some frame.srcMac

/-- The source of an IP packet is learned with its bytes in the other order, and from any subnet. -/
def EthernetStack.Listens (stack : EthernetStack) (srcIP : UInt32) (ethSrc : Mac) : Prop :=
  if srcIP &&& stack.card.subnetMask = stack.card.ip &&& stack.card.subnetMask then
    if swap32 srcIP = srcIP then Learned stack.arpCache srcIP ethSrc
    else Unheard stack.arpCache (swap32 srcIP) ethSrc ∧ stack.arpCache.lookup srcIP = some ethSrc
  else Unheard stack.arpCache (swap32 srcIP) ethSrc

/-- The condition of a step. -/
def Moment.Allowed (moment : Moment) : Action → Prop
  | .handleARP frame _ => Learned moment.stack.arpCache frame.srcIp frame.srcMac ∧
    (moment.stack.Retries frame.srcIp → ∀ card request,
      .queued moment.stack.pending.payload card request ∈ moment.log → moment.stack.Resumes frame card request)
  | .handleIP srcIP ethSrc => moment.stack.Listens srcIP ethSrc
  | _ => True

/-! ## What holds between two calls -/

def Event.buffer : Event → Option Nat
  | .queued buffer _ _ => some buffer
  | .used buffer => some buffer
  | .freed buffer => some buffer
  | .sent buffer _ => buffer
  | _ => none

/-- The packet that waits, against the call that queued it. -/
def PendingPacket.Keeps (pending : PendingPacket) : Request → Prop
  | .udp destIP srcPort destPort payload => pending.protocol = ipProtocolUDP ∧ pending.targetIP = destIP ∧
      pending.srcPort = srcPort ∧ pending.destPort = destPort ∧ pending.payloadLen.toUInt16.toNat = payload.length
  | .icmp destIP seq id payload => pending.protocol = ipProtocolICMP ∧ pending.targetIP = destIP ∧
      pending.srcPort = id ∧ pending.destPort = seq ∧ pending.payloadLen.toUInt16.toNat = payload.length
  | .tcp .. => True

/-- The call that queued the packet that waits, and its buffer. -/
structure EthernetStack.Waits (stack : EthernetStack) (log : List Event) (card : NetworkCard) (request : Request) : Prop where
  queued : .queued stack.pending.payload card request ∈ log
  keeps : stack.pending.Keeps request
  data : stack.heap stack.pending.payload = some request.payload
  live : .freed stack.pending.payload ∉ log
  unsent : ∀ frame, .sent (some stack.pending.payload) frame ∉ log

structure Kept (known : UInt32 → Option Mac) (stack : EthernetStack) (log : List Event) : Prop where
  fair : Traced.Throughout (Fair known) log
  cached : stack.arpCache.getMacFromCache = lastAnnounced known log
  bound : ∀ event ∈ log, ∀ buffer, event.buffer = some buffer → buffer < stack.nextBuffer
  settled : ∀ buffer card request, .queued buffer card request ∈ log →
    .freed buffer ∈ log ∨ stack.pending.valid = true ∧ stack.pending.payload = buffer
  waits : stack.pending.valid = true → ∃ card request, stack.Waits log card request

section

variable {known : UInt32 → Option Mac} {stack : EthernetStack} {log events : List Event} {event : Event} {ip : UInt32} {mac : Mac}
  {card : NetworkCard} {request : Request}

theorem lastAnnounced_append : lastAnnounced known (log ++ events) = lastAnnounced (lastAnnounced known log) events := List.foldl_append

theorem Kept.fresh (kept : Kept known stack log) (mem : event ∈ log) : event.buffer ≠ some stack.nextBuffer :=
  fun eq => Nat.lt_irrefl _ (kept.bound event mem _ eq)

theorem fair_of_quiet (quiet : event.buffer = none) : Fair known log event := by
  cases event with
  | announced => trivial
  | sentARP => trivial
  | sent buffer frame =>
    cases buffer with
    | none => trivial
    | some => exact nomatch quiet
  | _ => exact nomatch quiet

theorem mem_of_quiet {other : Event} {buffer : Nat} (quiet : ∀ event ∈ events, event.buffer = none) (about : other.buffer = some buffer)
    (mem : other ∈ log ++ events) : other ∈ log := by
  rcases mem_append.mp mem with earlier | now
  · exact earlier
  · exact nomatch (quiet other now).symm.trans about

theorem Kept.aside {cache : ArpCache} (kept : Kept known stack log) (quiet : ∀ event ∈ events, event.buffer = none)
    (cached : cache.getMacFromCache = lastAnnounced known (log ++ events)) :
    Kept known { stack with card := card, arpCache := cache } (log ++ events) where
  fair := kept.fair.append fun event mem _ => fair_of_quiet (quiet event mem)
  cached := cached
  bound := by
    intro event mem buffer eq
    exact kept.bound event (mem_of_quiet quiet eq mem) buffer eq
  settled := by
    intro buffer card request mem
    exact (kept.settled buffer card request (mem_of_quiet quiet rfl mem)).imp_left (mem_append_left _)
  waits := by
    intro valid
    obtain ⟨card, request, waits⟩ := kept.waits valid
    exact ⟨card, request,
      { queued := mem_append_left _ waits.queued
        keeps := waits.keeps
        data := waits.data
        live := fun mem => waits.live (mem_of_quiet quiet rfl mem)
        unsent := fun frame mem => waits.unsent frame (mem_of_quiet quiet rfl mem) }⟩

theorem Kept.released (kept : Kept known stack log) (valid : stack.pending.valid = true)
    (own : ∀ event ∈ events, event.buffer = some stack.pending.payload) (unfreed : .freed stack.pending.payload ∉ events)
    (fair : Traced.Throughout (Fair known) (log ++ events)) (silent : lastAnnounced known (log ++ events) = lastAnnounced known log) :
    Kept known { stack with
      heap := update stack.heap stack.pending.payload none
      pending := { stack.pending with valid := false } } (log ++ events ++ [.freed stack.pending.payload]) := by
  obtain ⟨_, _, waits⟩ := kept.waits valid
  have pre : ∀ event ∈ log ++ events, ∀ buffer, event.buffer = some buffer → buffer < stack.nextBuffer := by
    intro event mem buffer eq
    rcases mem_append.mp mem with earlier | now
    · exact kept.bound event earlier buffer eq
    · rw [← Option.some.inj ((own event now).symm.trans eq)]
      exact kept.bound _ waits.queued _ rfl
  exact
    { fair := by
        apply fair.snoc
        intro mem
        rcases mem_append.mp mem with earlier | now
        · exact waits.live earlier
        · exact unfreed now
      cached := by rw [lastAnnounced_append, silent]; exact kept.cached
      bound := by
        intro event mem buffer eq
        rcases mem_append.mp mem with earlier | now
        · exact pre event earlier buffer eq
        · rw [mem_singleton.mp now] at eq
          exact Option.some.inj eq ▸ kept.bound _ waits.queued _ rfl
      settled := by
        intro buffer card request mem
        left
        by_cases this : stack.pending.payload = buffer
        · exact this ▸ mem_append_right _ List.mem_cons_self
        · rcases mem_append.mp mem with earlier | now
          · rcases mem_append.mp earlier with earlier | mid
            · rcases kept.settled buffer card request earlier with freed | ⟨_, eq⟩
              · grind
              · exact absurd eq this
            · exact absurd (Option.some.inj (own _ mid)).symm this
          · exact nomatch mem_singleton.mp now
      waits := fun invalid => nomatch invalid }

theorem Kept.queue {pending : PendingPacket} (kept : Kept known stack log) (invalid : stack.pending.valid = false)
    (valid : pending.valid = true) (buffer : pending.payload = stack.nextBuffer) (keeps : pending.Keeps request) :
    Kept known { stack with
      pending := pending
      heap := update stack.heap stack.nextBuffer (some request.payload)
      nextBuffer := stack.nextBuffer + 1 } (log ++ [.queued stack.nextBuffer card request]) where
  fair := kept.fair.snoc fun _ _ mem => kept.fresh mem rfl
  cached := by rw [lastAnnounced_append]; exact kept.cached
  bound := by
    intro event mem other eq
    rcases mem_append.mp mem with earlier | now
    · exact Nat.lt_succ_of_lt (kept.bound event earlier other eq)
    · rw [mem_singleton.mp now] at eq
      exact Option.some.inj eq ▸ Nat.lt_succ_self _
  settled := by
    intro other card request mem
    rcases mem_append.mp mem with earlier | now
    · rcases kept.settled other card request earlier with freed | ⟨valid, _⟩
      · exact .inl (mem_append_left _ freed)
      · exact nomatch invalid.symm.trans valid
    · grind
  waits := by
    intro _
    have h : ∀ event : Event, event.buffer = some pending.payload → event ∉ log := by
      intro event eq mem
      exact kept.fresh mem (buffer ▸ eq)
    exact ⟨card, request,
      { queued := mem_append_right _ (buffer ▸ .head _)
        keeps := keeps
        data := by
          show update stack.heap stack.nextBuffer (some request.payload) pending.payload = some request.payload
          rw [buffer, update_self]
        live := fun mem => (mem_append.mp mem).elim (h _ rfl) fun now => nomatch mem_singleton.mp now
        unsent := fun _ mem => (mem_append.mp mem).elim (h _ rfl) fun now => nomatch mem_singleton.mp now }⟩

/-! ## The calls -/

theorem Kept.freePending (kept : Kept known stack log) :
    Kept known { stack.freePending.1 with pending := { stack.pending with valid := false } } (log ++ stack.freePending.2) := by
  unfold EthernetStack.freePending
  split
  case isTrue valid =>
    have eq : lastAnnounced known (log ++ []) = lastAnnounced known log := by rw [append_nil]
    have released := kept.released valid (forall_mem_nil _) List.not_mem_nil ((append_nil log).symm ▸ kept.fair) eq
    rwa [append_nil] at released
  case isFalse invalid =>
    have eq : { stack.pending with valid := false } = stack.pending := by
      rw [← eq_false_of_ne_true invalid]
    rw [eq, append_nil]
    exact kept

theorem Kept.enqueue {hop targetIP : UInt32} {protocol : UInt8} {srcPort destPort len : UInt16} {data : Nat → UInt8}
    {call : Bytes → Request} (kept : Kept known stack log) (payload : (call (copied data len.toNat)).payload = copied data len.toNat)
    (keeps : PendingPacket.Keeps ⟨true, protocol, targetIP, srcPort, destPort, stack.freePending.1.nextBuffer, len.toUInt32⟩
      (call (copied data len.toNat))) :
    Kept known (stack.enqueue hop protocol targetIP srcPort destPort (.caller data) len call).1
      (log ++ (stack.enqueue hop protocol targetIP srcPort destPort (.caller data) len call).2) := by
  have queued := @Kept.queue _ _ _ stack.freePending.1.card _ _ kept.freePending rfl rfl rfl keeps
  have asked := @Kept.aside _ _ _ [.sentARP (arpRequest stack.freePending.1.card hop)] stack.freePending.1.card _ queued
    (forall_mem_singleton.mpr rfl) (by rw [lastAnnounced_append]; exact queued.cached)
  rw [payload, append_assoc, append_assoc] at asked
  exact asked

theorem Kept.transmit {data : Nat → UInt8} (kept : Kept known stack log) :
    Kept known (stack.transmit mac (.caller data) request).1 (log ++ (stack.transmit mac (.caller data) request).2) :=
  @Kept.aside _ _ _ _ stack.card _ kept (forall_mem_singleton.mpr rfl) (by rw [lastAnnounced_append]; exact kept.cached)

theorem destMac_eq (cache : ArpCache) (hop : UInt32) :
    (if hop = broadcastIP then some broadcastMac else cache.getMacFromCache hop) = cache.getMacFromCache hop := by
  unfold ArpCache.getMacFromCache
  split
  case isTrue => rfl
  case isFalse ne => rfl

theorem length_kept (len : UInt16) (data : Nat → UInt8) : len.toUInt32.toUInt16.toNat = (copied data len.toNat).length := by
  rw [UInt16.toUInt16_toUInt32, length_copied]

theorem Kept.sendUDP (kept : Kept known stack log) (destIP : UInt32) (srcPort destPort : UInt16) (data : Nat → UInt8) (len : UInt16) :
    Kept known (stack.sendUDP destIP srcPort destPort (.caller data) len).1
      (log ++ (stack.sendUDP destIP srcPort destPort (.caller data) len).2) := by
  unfold EthernetStack.sendUDP
  dsimp only
  rw [destMac_eq]
  cases stack.arpCache.getMacFromCache (route stack.card destIP) with
  | some mac => exact kept.transmit
  | none => exact kept.enqueue rfl ⟨rfl, rfl, rfl, rfl, length_kept len data⟩

theorem Kept.sendICMP (kept : Kept known stack log) (destIP : UInt32) (seq id : UInt16) (data : Nat → UInt8) (len : UInt16) :
    Kept known (stack.sendICMP destIP seq id (.caller data) len).1 (log ++ (stack.sendICMP destIP seq id (.caller data) len).2) := by
  unfold EthernetStack.sendICMP
  dsimp only
  cases stack.arpCache.getMacFromCache (route stack.card destIP) with
  | some mac => exact kept.transmit
  | none => exact kept.enqueue rfl ⟨rfl, rfl, rfl, rfl, length_kept len data⟩

theorem Kept.sendTCPRaw (kept : Kept known stack log) (sock : TCPSocket) (flags : UInt8) (payload : Nat → UInt8) (payloadLen : UInt16) :
    Kept known (stack.sendTCPRaw sock flags payload payloadLen).1 (log ++ (stack.sendTCPRaw sock flags payload payloadLen).2) := by
  unfold EthernetStack.sendTCPRaw
  dsimp only
  cases stack.arpCache.getMacFromCache (nextHop stack.card.toNetworkInterface sock.remoteIP) with
  | some mac => exact kept.transmit
  | none => exact kept.enqueue rfl trivial

end

/-! ## The packet that waits -/

section

variable {known : UInt32 → Option Mac} {stack : EthernetStack} {log : List Event} {card : NetworkCard} {request : Request}
  {mac srcMac : Mac} {srcIp : UInt32}

theorem ipFrame_congr {other : NetworkCard} {protocol : UInt8} {destIP : UInt32} {data : Bytes} (ip : card.ip = other.ip)
    (hardware : card.mac = other.mac) : ipFrame other mac protocol destIP data = ipFrame card mac protocol destIP data := by
  unfold ipFrame ipv4Header
  rw [ip, hardware]

section

variable (waits : stack.Waits log card request)
include waits

theorem EthernetStack.Waits.read {len : UInt16} (whole : len.toNat = request.payload.length) (stale : Nat → UInt8) :
    stack.read (.buffer stack.pending.payload stale) len = request.payload := by
  unfold EthernetStack.read
  simp only [waits.data]
  rw [whole]
  exact copied_getD request.payload stale

theorem EthernetStack.Waits.retry (protocol : request.protocol ≠ ipProtocolTCP) (ip : card.ip = stack.card.ip)
    (hardware : card.mac = stack.card.mac) (hf : stack.arpCache.getMacFromCache (request.nextHop stack.card) = some mac)
    (stale : Nat → UInt8) :
    stack.retry stale = (stack, [.used stack.pending.payload, .sent (some stack.pending.payload) (request.frame card mac)]) := by
  have keeps := waits.keeps
  cases request with
  | tcp => exact absurd rfl protocol
  | udp destIP srcPort destPort payload =>
    obtain ⟨isUDP, target, src, dest, len⟩ := keeps
    unfold EthernetStack.retry EthernetStack.sendUDP
    dsimp only
    rw [if_pos isUDP, destMac_eq, target, show stack.arpCache.getMacFromCache (route stack.card destIP) = some mac from hf,
      waits.read len stale, src, dest]
    exact Prod.ext rfl (congrArg (fun frame => [Event.used _, .sent _ frame]) (ipFrame_congr ip hardware))
  | icmp destIP seq id payload =>
    obtain ⟨isICMP, target, src, dest, len⟩ := keeps
    unfold EthernetStack.retry EthernetStack.sendICMP
    dsimp only
    rw [isICMP, if_neg (by decide), if_pos rfl, target,
      show stack.arpCache.getMacFromCache (route stack.card destIP) = some mac from hf, waits.read len stale, src, dest]
    exact Prod.ext rfl (congrArg (fun frame => [Event.used _, .sent _ frame]) (ipFrame_congr ip hardware))

theorem EthernetStack.Waits.nextHop (protocol : request.protocol ≠ ipProtocolTCP) (other : NetworkCard) :
    request.nextHop other = route other stack.pending.targetIP := by
  have keeps := waits.keeps
  cases request with
  | tcp => exact absurd rfl protocol
  | udp => exact congrArg (route other) keeps.2.1.symm
  | icmp => exact congrArg (route other) keeps.2.1.symm

end

theorem EthernetStack.Waits.found (waits : stack.Waits log card request) (protocol : request.protocol ≠ ipProtocolTCP)
    (check : stack.nextHopCheck = srcIp) (learned : stack.arpCache.getMacFromCache srcIp = some srcMac)
    (hop : stack.arpCache.getMacFromCache (request.nextHop card) = some srcMac) :
    ∃ mac, stack.arpCache.getMacFromCache (request.nextHop stack.card) = some mac ∧
      stack.arpCache.getMacFromCache (request.nextHop card) = some mac := by
  rw [waits.nextHop protocol] at hop ⊢
  rw [waits.nextHop protocol]
  by_cases broadcast : stack.pending.targetIP = broadcastIP
  · have direct : ∀ card, route card stack.pending.targetIP = broadcastIP := fun card => (if_pos broadcast).trans broadcast
    rw [direct, direct]
    exact ⟨broadcastMac, if_pos rfl, if_pos rfl⟩
  · have eq : route stack.card stack.pending.targetIP = srcIp := (if_neg broadcast).trans check
    exact ⟨srcMac, eq ▸ learned, hop⟩

theorem Kept.resolve (kept : Kept known stack log) (learned : stack.arpCache.getMacFromCache srcIp = some srcMac)
    (resumes : stack.Retries srcIp → ∀ card request, .queued stack.pending.payload card request ∈ log →
      request.protocol ≠ ipProtocolTCP ∧ card.ip = stack.card.ip ∧ card.mac = stack.card.mac ∧
      stack.arpCache.getMacFromCache (request.nextHop card) = some srcMac) (stale : Nat → UInt8) :
    Kept known (stack.resolve srcIp stale).1 (log ++ (stack.resolve srcIp stale).2) := by
  unfold EthernetStack.resolve
  split
  case isFalse => exact (append_nil log).symm ▸ kept
  case isTrue retries =>
    obtain ⟨card, request, waits⟩ := kept.waits retries.1
    obtain ⟨protocol, ip, hardware, hop⟩ := resumes retries card request waits.queued
    obtain ⟨mac, now, asked⟩ := waits.found protocol retries.2 learned hop
    rw [waits.retry protocol ip hardware now stale]
    have used : Traced.Throughout (Fair known) (log ++ [.used stack.pending.payload]) := kept.fair.snoc waits.live
    have once : Fair known (log ++ [.used stack.pending.payload])
        (.sent (some stack.pending.payload) (request.frame card mac)) := by
      constructor
      · refine ⟨card, request, mac, mem_append_left _ waits.queued, ?_, rfl⟩
        rw [lastAnnounced_append]
        exact congrFun kept.cached _ ▸ asked
      · intro again mem
        rcases mem_append.mp mem with earlier | now
        · exact waits.unsent again earlier
        · exact nomatch mem_singleton.mp now
    have sent := used.snoc once
    rw [append_assoc] at sent
    have released := kept.released retries.1 (by simp [Event.buffer]) (by simp) sent (by rw [lastAnnounced_append]; rfl)
    rw [append_assoc] at released
    exact released

end

/-! ## Runs -/

section

variable {known : UInt32 → Option Mac} {start moment after : Moment} {action : Action}

theorem Moment.right_of_kept (kept : Kept known moment.stack moment.log) : moment.Right known where
  fair := kept.fair
  freed := by
    intro buffer frame mem
    obtain ⟨pre, later, split⟩ := List.append_of_mem mem
    obtain ⟨⟨card, request, _, queued, _⟩, _⟩ := kept.fair pre _ later split
    rcases kept.settled buffer card request (split ▸ mem_append_left _ queued) with freed | ⟨valid, eq⟩
    · exact freed
    · obtain ⟨_, _, waits⟩ := kept.waits valid
      exact absurd (eq ▸ mem) (waits.unsent frame)
  settled := kept.settled
  cached := kept.cached

section

variable {stack : EthernetStack} {log : List Event} (kept : Kept known stack log)
include kept

theorem Kept.replied (frame : ARPFrame) : Kept known stack (log ++ arpReply stack.card frame) := by
  have events : ∀ event ∈ arpReply stack.card frame, ∃ reply, event = .sentARP reply := by
    intro event mem
    unfold arpReply at mem
    split at mem
    case isTrue => exact ⟨_, mem_singleton.mp mem⟩
    case isFalse => exact nomatch mem
  apply @Kept.aside _ _ _ _ stack.card _ kept
  · intro event mem
    obtain ⟨reply, rfl⟩ := events event mem
    rfl
  · rw [lastAnnounced_append, ← kept.cached]
    unfold arpReply
    split <;> rfl

theorem Kept.handleARP (frame : ARPFrame) (learned : Learned stack.arpCache frame.srcIp frame.srcMac)
    (resumes : stack.Retries frame.srcIp → ∀ card request, .queued stack.pending.payload card request ∈ log → stack.Resumes frame card request)
    (stale : Nat → UInt8) :
    Kept known (stack.handleARP frame stale).1 (log ++ [.announced frame.srcIp frame.srcMac] ++ (stack.handleARP frame stale).2) := by
  have updated := learned.getMac
  have heard := @Kept.aside _ _ _ [.announced frame.srcIp frame.srcMac] stack.card _ kept (forall_mem_singleton.mpr rfl)
    (by rw [lastAnnounced_append, ← kept.cached]; exact updated)
  have resolved := heard.resolve learned.getMac_self (fun retries card request mem => by
    obtain ⟨protocol, ip, hardware, hop⟩ := resumes retries card request (mem_of_quiet (forall_mem_singleton.mpr rfl) rfl mem)
    refine ⟨protocol, ip, hardware, ?_⟩
    rw [updated]
    by_cases eq : request.nextHop card = frame.srcIp
    · rw [eq, update_self]
    · obtain ⟨narrow, hf⟩ := hop.resolve_left eq
      rw [Function.update_of_ne eq, ArpCache.getMacFromCache, if_neg narrow, hf]) stale
  have replied := resolved.replied frame
  rw [append_assoc] at replied
  exact replied

theorem Kept.handleIP {srcIP : UInt32} {ethSrc : Mac} (listens : stack.Listens srcIP ethSrc) :
    Kept known (stack.handleIP srcIP ethSrc) (log ++ (Action.handleIP srcIP ethSrc).announces stack.card) := by
  apply @Kept.aside _ _ _ _ stack.card _ kept
  · unfold Action.announces
    split <;> simp [Event.buffer]
  · unfold EthernetStack.Listens at listens
    rw [lastAnnounced_append, ← kept.cached]
    unfold Action.announces
    dsimp only
    by_cases onSubnet : srcIP &&& stack.card.subnetMask = stack.card.ip &&& stack.card.subnetMask
    · rw [if_pos onSubnet] at listens ⊢
      show _ = update stack.arpCache.getMacFromCache srcIP (some ethSrc)
      by_cases symmetric : swap32 srcIP = srcIP
      · rw [if_pos symmetric] at listens
        rw [symmetric]
        exact listens.getMac
      · rw [if_neg symmetric] at listens
        have narrow : srcIP ≠ broadcastIP := by
          intro broadcast
          rw [broadcast] at symmetric
          exact symmetric (by decide)
        have already : stack.arpCache.getMacFromCache srcIP = some ethSrc := (if_neg narrow).trans listens.2
        rw [listens.1.getMac, ← already, Function.update_eq_self]
    · rw [if_neg onSubnet] at listens ⊢
      exact listens.getMac

end

theorem Kept.step (kept : Kept known moment.stack moment.log) (allow : moment.Allowed action) (ht : moment.step action = some after) :
    Kept known after.stack after.log := by
  cases Option.some.inj ht
  cases action with
  | sendUDP destIP srcPort destPort data len => exact (append_nil moment.log).symm ▸ kept.sendUDP destIP srcPort destPort data len
  | sendICMP destIP seq id data len => exact (append_nil moment.log).symm ▸ kept.sendICMP destIP seq id data len
  | sendTCPRaw sock flags payload payloadLen =>
    exact (append_nil moment.log).symm ▸ kept.sendTCPRaw sock flags payload payloadLen
  | configure card =>
    have eq := kept.cached
    rw [← append_nil moment.log] at eq
    have set := @Kept.aside _ _ _ [] card _ kept (forall_mem_nil _) eq
    exact (append_nil _).symm ▸ set
  | handleARP frame stale => exact kept.handleARP frame allow.1 allow.2 stale
  | handleIP srcIP ethSrc => exact (append_nil _).symm ▸ kept.handleIP allow

theorem deferred_equals_immediate (idle : start.stack.pending.valid = false) (fresh : start.log = [])
    (reached : Reaches Moment.step Moment.Allowed start moment) : moment.Right start.stack.arpCache.getMacFromCache := by
  apply Moment.right_of_kept
  apply reached.invariant fun moment => Kept start.stack.arpCache.getMacFromCache moment.stack moment.log
  · rw [fresh]
    exact
      { fair := .nil
        cached := rfl
        bound := fun _ mem => nomatch mem
        settled := fun _ _ _ mem => nomatch mem
        waits := fun valid => nomatch idle.symm.trans valid }
  · exact fun _ _ _ kept allow ht => kept.step allow ht

end

/-! ## A gateway that is not known yet -/

section

def gatewayIP : UInt32 := word 10 0 2 2

def gatewayMac : Mac := Vector.replicate 6 0x52

def routedCard : NetworkCard := ⟨⟨word 10 0 2 15, word 255 255 255 0, gatewayIP⟩, Vector.replicate 6 1, 0⟩

def freshStack : EthernetStack :=
  ⟨routedCard, List.replicate 64 ⟨0, Vector.replicate 6 0, false⟩, ⟨false, 0, 0, 0, 0, 0, 0⟩, fun _ => none, 0⟩

def gatewayReply : ARPFrame :=
  ⟨gatewayMac, swap16 etherTypeARP, swap16 1, swap16 0x0800, swap16 arpOpReply, gatewayMac, gatewayIP, word 10 0 2 15⟩

def dialling : TCPSocket :=
  { id := 0, allocated := true, state := .closed, localIP := word 10 0 2 15, remoteIP := word 93 184 216 34, localPort := 50000
    remotePort := 80, mySequence := 7, targetSequence := 0, lastSendTime := 0, waitingAck := false, lastPacket := none
    lastPacketLen := 0, lastFlags := 0, recv := ⟨fun _ => 0, 8192, 0, 0⟩, domain := none, oooList := [] }

/-- The stack with a packet that waits in the first buffer. -/
def waitingStack (pending : PendingPacket) : EthernetStack :=
  { freshStack with
    pending := pending
    heap := update freshStack.heap 0 (some [])
    nextBuffer := 1 }

theorem freshStack_missing : freshStack.arpCache.getMacFromCache gatewayIP = none := by decide +kernel

theorem gateway_learned : (updateArpCache freshStack.arpCache gatewayIP gatewayMac).getMacFromCache gatewayIP = some gatewayMac := by
  decide +kernel

theorem resolve_datagram {pending : PendingPacket} (valid : pending.valid = true) (protocol : pending.protocol = ipProtocolUDP)
    (first : pending.payload = 0) (empty : pending.payloadLen = 0) (far : route routedCard pending.targetIP = gatewayIP)
    (check : (waitingStack pending).nextHopCheck = gatewayIP) (log : List Event) :
    ∃ after, Moment.step ⟨waitingStack pending, log⟩ (.handleARP gatewayReply fun _ => 0) = some after ∧
      after.stack.pending.valid = false ∧ after.log = log ++ [.announced gatewayIP gatewayMac] ++ [.used 0, .sent (some 0)
        ((Request.udp pending.targetIP pending.srcPort pending.destPort []).frame routedCard gatewayMac), .freed 0] := by
  let learned : EthernetStack :=
    { waitingStack pending with arpCache := updateArpCache freshStack.arpCache gatewayIP gatewayMac }
  let request : Request := .udp pending.targetIP pending.srcPort pending.destPort []
  have waits : learned.Waits [.queued pending.payload routedCard request] routedCard request :=
    { queued := .head _
      keeps := ⟨protocol, rfl, rfl, rfl, by rw [show learned.pending.payloadLen = 0 from empty]; rfl⟩
      data := by
        show update freshStack.heap 0 (some []) pending.payload = some []
        rw [first, update_self]
      live := fun mem => nomatch mem_singleton.mp mem
      unsent := fun _ mem => nomatch mem_singleton.mp mem }
  have hf : learned.arpCache.getMacFromCache (request.nextHop routedCard) = some gatewayMac := by
    rw [show request.nextHop routedCard = gatewayIP from far]
    exact gateway_learned
  have retried := waits.retry (show ipProtocolUDP ≠ ipProtocolTCP by decide) rfl rfl hf fun _ => 0
  let done : EthernetStack := { learned with
    heap := update learned.heap pending.payload none
    pending := { pending with valid := false } }
  let events : List Event :=
    [.used pending.payload, .sent (some pending.payload) (request.frame routedCard gatewayMac), .freed pending.payload]
  have resolved : learned.resolve gatewayIP (fun _ => 0) = (done, events) := by
    unfold EthernetStack.resolve
    rw [if_pos (show learned.Retries gatewayIP from ⟨valid, check⟩), retried]
    rfl
  have handled : (waitingStack pending).handleARP gatewayReply (fun _ => 0) = (done, events) := by
    show (learned.resolve gatewayIP fun _ => 0).next _ = (done, events)
    rw [resolved]
    rfl
  refine ⟨⟨done, log ++ [.announced gatewayIP gatewayMac] ++ events⟩, ?_, rfl, ?_⟩
  · exact congrArg (fun res : Traced EthernetStack Event =>
      some (Moment.mk res.1 (log ++ [.announced gatewayIP gatewayMac] ++ res.2))) handled
  · simp only [events, request, first]

theorem ipFrame_protocol (card : NetworkCard) (mac : Mac) (protocol : UInt8) (destIP : UInt32) (data : Bytes) :
    (ipFrame card mac protocol destIP data).getD 23 0 = protocol := by
  have header : (ethernetHeader mac card.mac (swap16 etherTypeIP)).length = 14 := by simp [ethernetHeader, halfBytes]
  unfold ipFrame
  rw [append_assoc, List.getD, List.getElem?_append_right (by omega), header]
  rfl

/-- A datagram to a host behind the gateway. -/
theorem deferred_datagram : ∃ after, Reaches Moment.step Moment.Allowed ⟨freshStack, []⟩ after ∧ after.stack.pending.valid = false ∧
    .sent (some 0) ((Request.udp (word 8 8 8 8) 55555 53 []).frame routedCard gatewayMac) ∈ after.log ∧
    after.Right freshStack.arpCache.getMacFromCache := by
  have queued : freshStack.sendUDP (word 8 8 8 8) 55555 53 (.caller fun _ => 0) 0 =
      (waitingStack ⟨true, ipProtocolUDP, word 8 8 8 8, 55555, 53, 0, 0⟩,
        [.queued 0 routedCard (.udp (word 8 8 8 8) 55555 53 []), .sentARP (arpRequest routedCard gatewayIP)]) := by
    unfold EthernetStack.sendUDP
    dsimp only
    rw [destMac_eq, show route freshStack.card (word 8 8 8 8) = gatewayIP by decide, freshStack_missing]
    rfl
  have sent : Moment.step ⟨freshStack, []⟩ (.sendUDP (word 8 8 8 8) 55555 53 (fun _ => 0) 0) =
      some ⟨waitingStack ⟨true, ipProtocolUDP, word 8 8 8 8, 55555, 53, 0, 0⟩,
        [.queued 0 routedCard (.udp (word 8 8 8 8) 55555 53 []), .sentARP (arpRequest routedCard gatewayIP)]⟩ :=
    congrArg (fun res : Traced EthernetStack Event => some (Moment.mk res.1 res.2)) queued
  obtain ⟨after, resolved, done, log⟩ := @resolve_datagram ⟨true, ipProtocolUDP, word 8 8 8 8, 55555, 53, 0, 0⟩ rfl rfl rfl rfl
    (by decide) (by decide) [.queued 0 routedCard (.udp (word 8 8 8 8) 55555 53 []), .sentARP (arpRequest routedCard gatewayIP)]
  have learned : Learned freshStack.arpCache gatewayIP gatewayMac := by
    rw [Learned, if_neg (by decide)]
    exact .inr (by decide +kernel)
  have hr : Reaches Moment.step Moment.Allowed ⟨freshStack, []⟩ after := by
    apply Reaches.next (.handleARP gatewayReply fun _ => 0) (.next _ .start trivial sent) ?_ resolved
    refine ⟨learned, fun _ card request mem => ?_⟩
    rcases List.mem_cons.mp mem with eq | asked
    · cases eq
      exact ⟨by decide, rfl, rfl, .inl (by decide)⟩
    · exact nomatch mem_singleton.mp asked
  refine ⟨after, hr, done, ?_, deferred_equals_immediate rfl rfl hr⟩
  rw [log]
  simp

/-- The first packet to a host behind the gateway opens a connection, and it leaves as a datagram to address zero. -/
theorem deferred_segment_leaves_as_datagram :
    ∃ after, Reaches Moment.step (fun _ _ => True) ⟨freshStack, []⟩ after ∧
      .sent (some 0) ((Request.udp 0 (swap16 50000) (swap16 80) []).frame routedCard gatewayMac) ∈ after.log ∧
      (∀ card request, .queued 0 card request ∈ after.log → request = .tcp dialling tcpSyn []) ∧
      ¬after.Right freshStack.arpCache.getMacFromCache := by
  let pending : PendingPacket := ⟨true, ipProtocolUDP, 0, swap16 50000, swap16 80, 0, 0⟩
  let queued : List Event := [.queued 0 routedCard (.tcp dialling tcpSyn []), .sentARP (arpRequest routedCard gatewayIP)]
  have call : freshStack.sendTCPRaw dialling tcpSyn (fun _ => 0) 0 = (waitingStack pending, queued) := by
    unfold EthernetStack.sendTCPRaw
    dsimp only
    rw [show nextHop freshStack.card.toNetworkInterface dialling.remoteIP = gatewayIP by decide, freshStack_missing]
    rfl
  have sent : Moment.step ⟨freshStack, []⟩ (.sendTCPRaw dialling tcpSyn (fun _ => 0) 0) = some ⟨waitingStack pending, queued⟩ :=
    congrArg (fun res : Traced EthernetStack Event => some (Moment.mk res.1 res.2)) call
  obtain ⟨after, resolved, _, log⟩ := @resolve_datagram pending rfl rfl rfl rfl (by decide) (by decide) queued
  have calls : ∀ card request, Event.queued 0 card request ∈ after.log → request = .tcp dialling tcpSyn [] := by
    intro card request mem
    rw [log] at mem
    simp [queued] at mem
    exact mem.2
  refine ⟨after, .next _ (.next _ .start trivial sent) trivial resolved, by rw [log]; simp [pending], calls, fun right => ?_⟩
  obtain ⟨⟨card, request, mac, asked, _, eq⟩, _⟩ := right.fair (queued ++ [.announced gatewayIP gatewayMac] ++ [.used 0]) _ [.freed 0]
    (by rw [log]; rfl)
  have which := calls card request (by rw [log]; exact mem_append_left _ (by simpa [queued] using asked))
  have protocols := congrArg (fun frame : Bytes => frame.getD 23 0) eq
  simp only [which, Request.frame, ipFrame_protocol] at protocols
  exact absurd protocols (by decide)

end

end RosKernel.Network
