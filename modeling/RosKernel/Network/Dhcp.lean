import RosKernel.Network.Frames

/-! The DHCP client, `network/dhcp.cpp`.

A packet is what its data pointer leads to, with a length. `Card` is the card, `info` is
`g_DHCPInfo` and `state` is `g_State`. The buffers of the packets that are sent are taken to be
allocated: the source uses them unchecked.
-/

set_option autoImplicit false

namespace RosKernel.Network

structure DHCPClientInfo where
  requestedIP : UInt32
  serverIP : UInt32
  subnetMask : UInt32
  gatewayIP : UInt32
  dnsServer : UInt32
  deriving DecidableEq

inductive DHCPState where
  | none | discoverSent | requestSent | bound
  deriving DecidableEq

structure DHCPClient where
  card : NetworkCard
  info : DHCPClientInfo
  state : DHCPState

/-- The arguments of `SendUDP` besides the card. -/
structure Datagram where
  destIP : UInt32
  srcPort : UInt16
  destPort : UInt16
  data : Bytes
  deriving DecidableEq

def currentXID : UInt32 := 0x12345678

def dhcpOpRequest : UInt8 := 1

def dhcpOpReply : UInt8 := 2

def dhcpMagicCookie : UInt32 := 0x63825363

/-- `sizeof(DHCPHeader)`. -/
def dhcpHeaderSize : Nat := 240

def addOption (type : UInt8) (value : Bytes) : Bytes := type :: value.length.toUInt8 :: value

/-- The header that both requests begin with. -/
def dhcpHeader (card : NetworkCard) : Bytes :=
  [dhcpOpRequest, 1, 6, 0] ++ wordBytes (swap32 currentXID) ++ List.replicate 20 0 ++ card.mac.toList ++
    List.replicate 202 0 ++ wordBytes (swap32 dhcpMagicCookie)

def sendDHCPDiscover (client : DHCPClient) : DHCPClient × Datagram :=
  ({ client with state := .discoverSent },
    ⟨0xFFFFFFFF, 68, 67, dhcpHeader client.card ++ (addOption 53 [1] ++ addOption 55 [1, 3, 6] ++ [255])⟩)

def sendDHCPRequest (client : DHCPClient) (requestedIP serverIP : UInt32) : DHCPClient × Datagram :=
  ({ client with state := .requestSent },
    ⟨0xFFFFFFFF, 68, 67, dhcpHeader client.card ++ (addOption 53 [3] ++ addOption 50 (wordBytes requestedIP) ++
      addOption 54 (wordBytes serverIP) ++ addOption 55 [1, 3, 6] ++ [255])⟩)

/-- The local variables of `HandleDHCP`; `cardDns` is the field of the card. -/
structure ParsedOptions where
  msgType : UInt8
  serverIP : UInt32
  subnetMask : UInt32
  gateway : UInt32
  cardDns : UInt32

def wordAt (data : Nat → UInt8) (pos : Nat) : UInt32 := word (data pos) (data (pos + 1)) (data (pos + 2)) (data (pos + 3))

def ParsedOptions.setOption (parsed : ParsedOptions) (data : Nat → UInt8) (optCode : UInt8) (optPtr : Nat) : ParsedOptions :=
  if optCode = 53 then { parsed with msgType := data optPtr }
  else if optCode = 1 then { parsed with subnetMask := wordAt data optPtr }
  else if optCode = 3 then { parsed with gateway := wordAt data optPtr }
  else if optCode = 6 then { parsed with cardDns := wordAt data optPtr }
  else if optCode = 54 then { parsed with serverIP := wordAt data optPtr }
  else parsed

/-- The loop over the options; each round moves on by a byte at least. -/
def parseOptions (data : Nat → UInt8) (length : Nat) : Nat → Nat → ParsedOptions → ParsedOptions
  | 0, _, parsed => parsed
  | fuel + 1, pos, parsed =>
    if pos < length ∧ data pos ≠ 255 then
      if data pos = 0 then parseOptions data length fuel (pos + 1) parsed
      else parseOptions data length fuel (pos + 2 + (data (pos + 1)).toNat) (parsed.setOption data (data pos) (pos + 2))
    else parsed

/-- The checks before the options are read. -/
def accepted (data : Nat → UInt8) (length : Nat) : Bool :=
  dhcpHeaderSize ≤ length && swap32 (wordAt data 4) == currentXID && data 0 == dhcpOpReply

def yiAddr (data : Nat → UInt8) : UInt32 := wordAt data 16

/-- `HandleDHCP`, with what it sends. -/
def handleDHCP (client : DHCPClient) (data : Nat → UInt8) (length : Nat) : DHCPClient × List Datagram :=
  if !accepted data length then (client, [])
  else
    let parsed := parseOptions data length length dhcpHeaderSize ⟨0, 0, 0, 0, client.card.dnsServer⟩
    -- the option of the DNS server goes straight to the card, and the local variable for it stays zero
    let dnsServer : UInt32 := 0
    let client := { client with card := { client.card with dnsServer := parsed.cardDns } }
    if client.state = .discoverSent ∧ parsed.msgType = 2 then
      let client := { client with info := { client.info with serverIP := parsed.serverIP } }
      let (client, request) := sendDHCPRequest client (yiAddr data) parsed.serverIP
      (client, [request])
    else if client.state = .requestSent ∧ parsed.msgType = 5 then
      ({ card := { client.card with
          ip := yiAddr data
          subnetMask := parsed.subnetMask
          gateway := parsed.gateway
          dnsServer := dnsServer }
         info := ⟨yiAddr data, parsed.serverIP, parsed.subnetMask, parsed.gateway, dnsServer⟩
         state := .bound }, [])
    else (client, [])

inductive Opt where
  | pad
  | opt (code : UInt8) (value : Bytes)

def Opt.encode : Opt → Bytes
  | .pad => [0]
  | .opt code value => addOption code value

/-- The length fits its byte, and the options that are read are as long as what is read of them. -/
structure Opt.Fits (code : UInt8) (value : Bytes) : Prop where
  named : code ≠ 0 ∧ code ≠ 255
  short : value.length < 256
  type : code = 53 → 1 ≤ value.length
  words : code = 1 ∨ code = 3 ∨ code = 6 ∨ code = 54 → 4 ≤ value.length

def Opt.Valid : Opt → Prop
  | .pad => True
  | .opt code value => Opt.Fits code value

/-- The options of a packet: a list that ends with the packet or with the end option. -/
structure Listed (data : Nat → UInt8) (length : Nat) (options : List Opt) : Prop where
  valid : ∀ option ∈ options, option.Valid
  holds : Holds data dhcpHeaderSize (options.flatMap Opt.encode)
  fits : dhcpHeaderSize + (options.flatMap Opt.encode).length ≤ length
  ends : dhcpHeaderSize + (options.flatMap Opt.encode).length = length ∨
    data (dhcpHeaderSize + (options.flatMap Opt.encode).length) = 255

/-- What the last option of a code says. -/
def latest {α : Type} (code : UInt8) (read : Bytes → α) (absent : α) (options : List Opt) : α :=
  options.foldl (fun value option => match option with
    | .pad => value
    | .opt other bytes => if other = code then read bytes else value) absent

section

variable {data : Nat → UInt8} {length pos fuel : Nat} {options : List Opt} {parsed : ParsedOptions} {code : UInt8}
  {value : Bytes}

theorem wordAt_holds (holds : Holds data pos value) (long : 4 ≤ value.length) : wordAt data pos = firstWord value := by
  have first := holds.getD (show 0 < value.length by omega)
  have snd := holds.getD (show 1 < value.length by omega)
  have third := holds.getD (show 2 < value.length by omega)
  have fourth := holds.getD (show 3 < value.length by omega)
  unfold wordAt firstWord
  rw [← first, ← snd, ← third, ← fourth]
  rfl

theorem setOption_fits (fits : Opt.Fits code value) (holds : Holds data pos value) : parsed.setOption data code pos =
    ⟨if code = 53 then value.getD 0 0 else parsed.msgType, if code = 54 then firstWord value else parsed.serverIP,
      if code = 1 then firstWord value else parsed.subnetMask, if code = 3 then firstWord value else parsed.gateway,
      if code = 6 then firstWord value else parsed.cardDns⟩ := by
  unfold ParsedOptions.setOption
  by_cases type : code = 53
  · have h := holds.getD (Nat.lt_of_lt_of_le Nat.zero_lt_one (fits.type type))
    subst type
    rw [if_pos rfl, ← h]
    rfl
  · by_cases read : code = 1 ∨ code = 3 ∨ code = 6 ∨ code = 54
    · rw [wordAt_holds holds (fits.words read)]
      rcases read with rfl | rfl | rfl | rfl <;> rfl
    · simp only [not_or] at read
      obtain ⟨notMask, notGateway, notDns, notServer⟩ := read
      simp only [if_neg type, if_neg notMask, if_neg notGateway, if_neg notDns, if_neg notServer]

theorem parseOptions_listed (valid : ∀ option ∈ options, option.Valid) (holds : Holds data pos (options.flatMap Opt.encode))
    (fits : pos + (options.flatMap Opt.encode).length ≤ length)
    (ends : pos + (options.flatMap Opt.encode).length = length ∨ data (pos + (options.flatMap Opt.encode).length) = 255)
    (enough : (options.flatMap Opt.encode).length ≤ fuel) : parseOptions data length fuel pos parsed =
      ⟨latest 53 (fun value => value.getD 0 0) parsed.msgType options, latest 54 firstWord parsed.serverIP options,
        latest 1 firstWord parsed.subnetMask options, latest 3 firstWord parsed.gateway options,
        latest 6 firstWord parsed.cardDns options⟩ := by
  induction options generalizing pos fuel parsed with
  | nil =>
    have stops : ¬(pos < length ∧ data pos ≠ 255) := by
      rintro ⟨hin, more⟩
      rcases ends with h | last
      · exact Nat.ne_of_lt hin h
      · exact more last
    cases fuel with
    | zero => rfl
    | succ fuel => rw [parseOptions, if_neg stops]; rfl
  | cons option options ih =>
    obtain ⟨validHere, validRest⟩ := List.forall_mem_cons.mp valid
    rw [List.flatMap_cons] at holds fits ends enough
    rw [List.length_append] at fits ends enough
    obtain ⟨h, later⟩ := holds_append.mp holds
    rw [← Nat.add_assoc] at fits ends
    cases option with
    | pad =>
      cases fuel with
      | zero => exact absurd enough (by simp [Opt.encode])
      | succ fuel =>
        have hin : pos < length := by
          simp only [Opt.encode, List.length_singleton] at fits
          omega
        have zero : data pos = 0 := h.1
        rw [parseOptions, if_pos ⟨hin, by rw [zero]; decide⟩, if_pos zero]
        refine ih validRest later fits ends ?_
        simp only [Opt.encode, List.length_singleton] at enough
        omega
    | opt code value =>
      have short := Opt.Fits.short validHere
      have size : (Opt.encode (.opt code value)).length = 2 + value.length := by
        simp only [Opt.encode, addOption, List.length_cons]
        omega
      rw [size] at later fits ends enough
      obtain ⟨codeHere, lengthHere, valueHere⟩ := h
      cases fuel with
      | zero => omega
      | succ fuel =>
        have optLen : (data (pos + 1)).toNat = value.length := by
          rw [lengthHere]
          exact Nat.mod_eq_of_lt short
        have step := @setOption_fits data (pos + 2) parsed code value validHere valueHere
        obtain ⟨notPad, notEnd⟩ := Opt.Fits.named validHere
        rw [← codeHere] at notPad notEnd
        rw [parseOptions, if_pos ⟨by omega, notEnd⟩, if_neg notPad, optLen, codeHere, step,
          show pos + 2 + value.length = pos + (2 + value.length) by omega]
        exact ih validRest later fits ends (by omega)

end

/-- A packet with its list of options; a packet shorter than the header has none. -/
structure DhcpMessage where
  data : Nat → UInt8
  length : Nat
  options : List Opt
  listed : dhcpHeaderSize ≤ length → Listed data length options

/-- A message that was handled, with what was sent. -/
structure DhcpStep where
  before : DHCPClient
  message : DhcpMessage
  after : DHCPClient
  sent : List Datagram

def dhcpRun (client : DHCPClient) : List DhcpMessage → List DhcpStep
  | [] => []
  | message :: rest =>
    let (after, sent) := handleDHCP client message.data message.length
    ⟨client, message, after, sent⟩ :: dhcpRun after rest

namespace DhcpMessage

section

variable (message : DhcpMessage)
include message

def type : UInt8 := latest 53 (fun value => value.getD 0 0) 0 message.options

/-- The first four bytes of the last option of a code, zero if there is none. -/
def value (code : UInt8) : UInt32 := latest code firstWord 0 message.options

def isReply : Bool := accepted message.data message.length

def IsOffer (state : DHCPState) : Prop :=
  message.isReply = true ∧ state = .discoverSent ∧ message.type = 2

def IsAck (state : DHCPState) : Prop :=
  message.isReply = true ∧ state = .requestSent ∧ message.type = 5

end

end DhcpMessage

/-- A datagram carries a word in an option of the list behind its header. -/
def Datagram.Carries (datagram : Datagram) (code : UInt8) (word : UInt32) : Prop :=
  ∃ header options, header.length = dhcpHeaderSize ∧ (∀ option ∈ options, option.Valid) ∧
    datagram.data = header ++ options.flatMap Opt.encode ++ [255] ∧ latest code firstWord 0 options = word

/-- The card is configured from the acknowledged lease, a request carries what was offered, and
nothing else has an effect. -/
structure DhcpStep.Configures (step : DhcpStep) : Prop where
  ack : step.message.IsAck step.before.state →
    step.after.card = { step.before.card with
      ip := yiAddr step.message.data
      subnetMask := step.message.value 1
      gateway := step.message.value 3
      dnsServer := step.message.value 6 } ∧
    step.after.info = ⟨yiAddr step.message.data, step.message.value 54, step.message.value 1, step.message.value 3,
      step.message.value 6⟩ ∧
    step.after.state = .bound ∧ step.sent = []
  offer : step.message.IsOffer step.before.state →
    step.after.card = step.before.card ∧ step.after.info = { step.before.info with serverIP := step.message.value 54 } ∧
    step.after.state = .requestSent ∧ ∃ request, step.sent = [request] ∧
      request.Carries 50 (yiAddr step.message.data) ∧ request.Carries 54 (step.message.value 54)
  other : ¬step.message.IsAck step.before.state → ¬step.message.IsOffer step.before.state →
    step.after = step.before ∧ step.sent = []

/-- An acknowledgement names no name server or zero, and any other message that passes the checks
names none or the one that the card has. -/
def DhcpStep.KeepsDns (step : DhcpStep) : Prop :=
  (step.message.IsAck step.before.state → step.message.value 6 = 0) ∧
    (step.message.isReply = true → ¬step.message.IsAck step.before.state →
      latest 6 firstWord step.before.card.dnsServer step.message.options = step.before.card.dnsServer)

section

variable {client : DHCPClient} {message : DhcpMessage}

theorem DhcpMessage.parse (message : DhcpMessage) (isReply : message.isReply = true) (dns : UInt32) :
    parseOptions message.data message.length message.length dhcpHeaderSize ⟨0, 0, 0, 0, dns⟩ =
      ⟨message.type, message.value 54, message.value 1, message.value 3, latest 6 firstWord dns message.options⟩ := by
  have long : dhcpHeaderSize ≤ message.length := by
    simp only [DhcpMessage.isReply, accepted, Bool.and_eq_true, decide_eq_true_eq] at isReply
    exact isReply.1.1
  obtain ⟨valid, holds, fits, ends⟩ := message.listed long
  exact parseOptions_listed valid holds fits ends (Nat.le_trans (Nat.le_add_left _ _) fits)

theorem length_dhcpHeader (card : NetworkCard) : (dhcpHeader card).length = dhcpHeaderSize := by
  simp only [dhcpHeader, List.length_append, List.length_replicate, Vector.length_toList]
  rfl

theorem carries_request (client : DHCPClient) (requestedIP serverIP : UInt32) :
    (sendDHCPRequest client requestedIP serverIP).2.Carries 50 requestedIP ∧
      (sendDHCPRequest client requestedIP serverIP).2.Carries 54 serverIP := by
  have data : (sendDHCPRequest client requestedIP serverIP).2.data = dhcpHeader client.card ++
      [Opt.opt 53 [3], .opt 50 (wordBytes requestedIP), .opt 54 (wordBytes serverIP), .opt 55 [1, 3, 6]].flatMap Opt.encode ++
      [255] := by
    simp only [sendDHCPRequest, List.flatMap_cons, List.flatMap_nil, Opt.encode, List.append_nil, List.append_assoc]
  have valid : ∀ option ∈ [Opt.opt 53 [3], .opt 50 (wordBytes requestedIP), .opt 54 (wordBytes serverIP), .opt 55 [1, 3, 6]],
      option.Valid := by
    simp only [List.forall_mem_cons]
    refine ⟨?_, ?_, ?_, ?_, fun _ mem => nomatch mem⟩ <;> constructor <;> simp [wordBytes]
  refine ⟨⟨_, _, length_dhcpHeader client.card, valid, data, ?_⟩, ⟨_, _, length_dhcpHeader client.card, valid, data, ?_⟩⟩
  · exact firstWord_wordBytes requestedIP
  · exact firstWord_wordBytes serverIP

theorem setDns_eq_iff {card : NetworkCard} {dns : UInt32} : { card with dnsServer := dns } = card ↔ dns = card.dnsServer := by
  constructor
  · exact fun eq => congrArg NetworkCard.dnsServer eq
  · rintro rfl
    rfl

theorem handleDHCP_configures_iff (client : DHCPClient) (message : DhcpMessage) :
    (DhcpStep.mk client message (handleDHCP client message.data message.length).1
        (handleDHCP client message.data message.length).2).Configures ↔
      (DhcpStep.mk client message (handleDHCP client message.data message.length).1
        (handleDHCP client message.data message.length).2).KeepsDns := by
  cases isReply : message.isReply with
  | false =>
    have ignored : handleDHCP client message.data message.length = (client, []) := by
      unfold DhcpMessage.isReply at isReply
      unfold handleDHCP
      rw [isReply]
      rfl
    have notAck : ∀ state, ¬message.IsAck state := fun state ack => nomatch isReply.symm.trans ack.1
    have notOffer : ∀ state, ¬message.IsOffer state := fun state offer => nomatch isReply.symm.trans offer.1
    rw [ignored]
    constructor
    · exact fun _ => ⟨fun ack => absurd ack (notAck _), fun reply => nomatch isReply.symm.trans reply⟩
    · exact fun _ => ⟨fun ack => absurd ack (notAck _), fun offer => absurd offer (notOffer _), fun _ _ => ⟨rfl, rfl⟩⟩
  | true =>
    have parsed := message.parse isReply client.card.dnsServer
    have checks : accepted message.data message.length = true := isReply
    unfold handleDHCP
    rw [checks]
    simp only [Bool.not_true, Bool.false_eq_true, if_false, parsed]
    generalize nextDns : latest 6 firstWord client.card.dnsServer message.options = dns
    by_cases offer : client.state = .discoverSent ∧ message.type = 2
    · have isOffer : message.IsOffer client.state := ⟨isReply, offer⟩
      have notAck : ¬message.IsAck client.state := fun ack => nomatch offer.1.symm.trans ack.2.1
      obtain ⟨addr, server⟩ := carries_request
        { client with
          card := { client.card with dnsServer := dns }
          info := { client.info with serverIP := message.value 54 } } (yiAddr message.data) (message.value 54)
      rw [if_pos offer]
      constructor
      · intro configures
        refine ⟨fun ack => absurd ack notAck, fun _ _ => ?_⟩
        exact nextDns.trans (setDns_eq_iff.mp (configures.offer isOffer).1)
      · intro keeps
        have eq : dns = client.card.dnsServer := nextDns.symm.trans (keeps.2 isReply notAck)
        exact ⟨fun ack => absurd ack notAck, fun _ => ⟨setDns_eq_iff.mpr eq, rfl, rfl, _, rfl, addr, server⟩,
          fun _ notOffer => absurd isOffer notOffer⟩
    · have notOffer : ¬message.IsOffer client.state := fun isOffer => offer isOffer.2
      rw [if_neg offer]
      by_cases ack : client.state = .requestSent ∧ message.type = 5
      · have isAck : message.IsAck client.state := ⟨isReply, ack⟩
        rw [if_pos ack]
        constructor
        · intro configures
          have dns := congrArg NetworkCard.dnsServer (configures.ack isAck).1
          exact ⟨fun _ => dns.symm, fun _ notAck => absurd isAck notAck⟩
        · intro keeps
          have zero : (0 : UInt32) = message.value 6 := (keeps.1 isAck).symm
          refine ⟨fun _ => ⟨?_, ?_, rfl, rfl⟩, fun isOffer => absurd isOffer notOffer, fun notAck => absurd isAck notAck⟩
          · rw [← zero]
          · rw [← zero]
      · have notAck : ¬message.IsAck client.state := fun isAck => ack isAck.2
        rw [if_neg ack]
        constructor
        · intro configures
          have card := congrArg DHCPClient.card (configures.other notAck notOffer).1
          exact ⟨fun isAck => absurd isAck notAck, fun _ _ => nextDns.trans (setDns_eq_iff.mp card)⟩
        · intro keeps
          have eq : dns = client.card.dnsServer := nextDns.symm.trans (keeps.2 isReply notAck)
          refine ⟨fun isAck => absurd isAck notAck, fun isOffer => absurd isOffer notOffer, fun _ _ => ⟨?_, rfl⟩⟩
          have card : { client.card with dnsServer := dns } = client.card := setDns_eq_iff.mpr eq
          rw [card]

theorem forall_dhcpRun {P Q : DhcpStep → Prop}
    (eq : ∀ client message, P ⟨client, message, (handleDHCP client message.data message.length).1,
      (handleDHCP client message.data message.length).2⟩ ↔ Q ⟨client, message, (handleDHCP client message.data message.length).1,
      (handleDHCP client message.data message.length).2⟩) (client : DHCPClient) (messages : List DhcpMessage) :
    (∀ step ∈ dhcpRun client messages, P step) ↔ ∀ step ∈ dhcpRun client messages, Q step := by
  induction messages generalizing client with
  | nil => exact ⟨fun _ _ mem => (nomatch mem), fun _ _ mem => (nomatch mem)⟩
  | cons message rest ih =>
    simp only [dhcpRun, List.forall_mem_cons]
    exact and_congr (eq client message) (ih _)

/-- After `SendDHCPDiscover`, a run configures the card from the acknowledged lease and from nothing
else if and only if no message of it changes the name server. -/
theorem dhcp_configures_iff (client : DHCPClient) (messages : List DhcpMessage) :
    (∀ step ∈ dhcpRun (sendDHCPDiscover client).1 messages, step.Configures) ↔
      ∀ step ∈ dhcpRun (sendDHCPDiscover client).1 messages, step.KeepsDns :=
  forall_dhcpRun handleDHCP_configures_iff (sendDHCPDiscover client).1 messages

/-- A reply with the current transaction, an address and options. -/
def replyBytes (yiAddr : UInt32) (options : List Opt) : Bytes :=
  [dhcpOpReply, 1, 6, 0] ++ wordBytes (swap32 currentXID) ++ List.replicate 8 0 ++ wordBytes yiAddr ++ List.replicate 220 0 ++
    options.flatMap Opt.encode ++ [255]

theorem holds_getD {whole front back : Bytes} (split : ∃ rest, whole = front ++ back ++ rest) :
    Holds (fun i => whole.getD i 0) front.length back := by
  obtain ⟨rest, rfl⟩ := split
  induction back generalizing front with
  | nil => trivial
  | cons byte back ih =>
    refine ⟨by simp, ?_⟩
    have later := @ih (front ++ [byte])
    simpa only [List.append_assoc, List.singleton_append, List.length_append, List.length_singleton] using later

def replyMessage (address : UInt32) (options : List Opt) (valid : ∀ option ∈ options, option.Valid) : DhcpMessage where
  data i := (replyBytes address options).getD i 0
  length := (replyBytes address options).length
  options := options
  listed _ := by
    have size : ([dhcpOpReply, 1, 6, 0] ++ wordBytes (swap32 currentXID) ++ List.replicate 8 0 ++ wordBytes address ++
        List.replicate 220 0).length = dhcpHeaderSize := by
      rfl
    have ends : Holds (fun i => (replyBytes address options).getD i 0)
        (dhcpHeaderSize + (options.flatMap Opt.encode).length) [255] := by
      have last := @holds_getD (replyBytes address options)
        ([dhcpOpReply, 1, 6, 0] ++ wordBytes (swap32 currentXID) ++ List.replicate 8 0 ++ wordBytes address ++
          List.replicate 220 0 ++ options.flatMap Opt.encode) [255] ⟨[], (List.append_nil _).symm⟩
      rwa [List.length_append, size] at last
    refine ⟨valid, ?_, ?_, .inr ends.1⟩
    · rw [← size]
      exact holds_getD ⟨[255], rfl⟩
    · unfold replyBytes
      rw [List.length_append, List.length_append, size]
      exact Nat.le_add_right _ _

def blankClient : DHCPClient := ⟨⟨⟨0, 0, 0⟩, Vector.replicate 6 0, 0⟩, ⟨0, 0, 0, 0, 0⟩, .none⟩

def offerMessage : DhcpMessage := replyMessage (word 10 0 0 2) [.opt 53 [2], .opt 54 [10, 0, 0, 1]] <| by
  simp only [List.forall_mem_cons]
  exact ⟨⟨by decide, by decide, by decide, by decide⟩, ⟨by decide, by decide, by decide, by decide⟩, fun _ member => nomatch member⟩

def ackMessage : DhcpMessage := replyMessage (word 10 0 0 2) [.opt 53 [5], .opt 1 [255, 255, 255, 0], .opt 6 [8, 8, 8, 8]] <| by
  simp only [List.forall_mem_cons]
  exact ⟨⟨by decide, by decide, by decide, by decide⟩, ⟨by decide, by decide, by decide, by decide⟩,
    ⟨by decide, by decide, by decide, by decide⟩, fun _ member => nomatch member⟩

/-- The acknowledgement names a name server, and the card ends up without one. -/
theorem dhcp_loses_dns :
    ∃ step ∈ dhcpRun (sendDHCPDiscover blankClient).1 [offerMessage, ackMessage],
      step.message.IsAck step.before.state ∧ step.message.value 6 = word 8 8 8 8 ∧ step.after.card.ip = word 10 0 0 2 ∧
        step.after.card.dnsServer = 0 ∧ ¬step.Configures := by
  have isAck : ackMessage.IsAck (handleDHCP (sendDHCPDiscover blankClient).1 offerMessage.data offerMessage.length).1.state :=
    ⟨by decide +kernel, by decide +kernel, by decide +kernel⟩
  have named : ackMessage.value 6 = word 8 8 8 8 := by decide +kernel
  have addr : (handleDHCP (handleDHCP (sendDHCPDiscover blankClient).1 offerMessage.data offerMessage.length).1
      ackMessage.data ackMessage.length).1.card.ip = word 10 0 0 2 := by decide +kernel
  have dns : (handleDHCP (handleDHCP (sendDHCPDiscover blankClient).1 offerMessage.data offerMessage.length).1
      ackMessage.data ackMessage.length).1.card.dnsServer = 0 := by decide +kernel
  rw [dhcpRun]
  generalize handleDHCP (sendDHCPDiscover blankClient).1 offerMessage.data offerMessage.length = offered at *
  dsimp only
  rw [dhcpRun]
  generalize handleDHCP offered.1 ackMessage.data ackMessage.length = acknowledged at *
  refine ⟨_, .tail _ (.head _), isAck, named, addr, dns, fun configures => ?_⟩
  have eq := congrArg NetworkCard.dnsServer (configures.ack isAck).1
  have zero : (0 : UInt32) = word 8 8 8 8 := dns.symm.trans (eq.trans named)
  exact absurd zero (by decide)

end

end RosKernel.Network
