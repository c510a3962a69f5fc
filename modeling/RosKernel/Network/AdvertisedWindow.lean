import RosKernel.Network.SendSide

/-! The advertised window against the room in the receive ring.

The window is the number of free cells, but a ring whose equal indices mean empty
takes one item less. Between two reads a segment changes the ring through the
copy loop of `receive` only, so the promise is stated for that loop.
-/

set_option autoImplicit false

namespace RosKernel.Network

open Library List

/-- Payloads that go through the copy loop of ESTABLISHED or of `ProcessOOOList`, one after the other. -/
def receiveAll (payloads : List Bytes) (sock : TCPSocket) : TCPSocket :=
  payloads.foldl (fun sock payload => receive payload sock) sock

/-- Free cells of the ring, as `SendTCPRaw` and `TCPRecv` count them. -/
def freeSpace (recv : RingBuffer UInt8) : Nat := recv.size - recv.used

/-- What the window of a socket promises its peer, for the next read of `len` bytes. -/
structure KeepsPromise (env : Surroundings) (len : Nat) (sock : TCPSocket) : Prop where
  /-- No more bytes than the window allows ever move the read index. -/
  fits : ∀ payloads : List Bytes, payloads.flatten.length ≤ (windowSize sock.recv).toNat →
    (receiveAll payloads sock).recv.read = sock.recv.read
  /-- A read that frees enough space behind a zero window says so. -/
  reopens : windowSize sock.recv = 0 → windowSize (tcpRecv env len sock).2.1.recv ≠ 0 →
    ∃ packet, .sent packet ∈ (tcpRecv env len sock).2.2 ∧ packet.windowSize ≠ 0

section

/-- What a call made of a socket: bytes went into its ring, and it was not allocated by it. -/
structure Follows (sock after : TCPSocket) : Prop where
  fed : ∃ bytes, after.recv = sock.recv.putAll bytes
  allocated : after.allocated = true → sock.allocated = true

variable {sock middle after : TCPSocket} (env : Surroundings) (nth : Nat) (flags : UInt8) (seg : Segment)

theorem Follows.of_same (recv : after.recv = sock.recv) (alloc : after.allocated = sock.allocated) :
    Follows sock after := ⟨⟨[], recv⟩, fun alive => alloc ▸ alive⟩

theorem Follows.refl : Follows sock sock := .of_same rfl rfl

theorem Follows.trans (first : Follows sock middle) (snd : Follows middle after) : Follows sock after := by
  obtain ⟨⟨front, fed⟩, alive⟩ := first
  obtain ⟨⟨back, fed'⟩, alive'⟩ := snd
  refine ⟨⟨front ++ back, ?_⟩, fun alloc => alive (alive' alloc)⟩
  rw [fed', fed, RingBuffer.putAll, RingBuffer.putAll, RingBuffer.putAll, foldl_append]

theorem Follows.onward (follows : Follows middle after) (recv : middle.recv = sock.recv)
    (alloc : middle.allocated = sock.allocated) : Follows sock after := (Follows.of_same recv alloc).trans follows

theorem Follows.next {first : Exchange} {call : TCPSocket → Exchange} (begun : Follows sock first.1)
    (continued : ∀ middle, Follows middle (call middle).1) : Follows sock (first.next call).1 :=
  begun.trans (continued first.1)

theorem sendTCPRaw_follows (payload copied : Bytes) (sock : TCPSocket) :
    Follows sock (sendTCPRaw env nth flags payload copied sock).1 := by
  obtain ⟨_, _, _, _, _, eq⟩ := sendTCPRaw_frame env nth flags sock payload copied
  rw [eq]
  exact .of_same rfl rfl

variable (sock : TCPSocket)

theorem sendFlags_follows : Follows sock (sendFlags env nth flags sock).1 := sendTCPRaw_follows ..

theorem become_follows (state : TCPState) (sock : TCPSocket) : Follows sock (become state sock).1 := .of_same rfl rfl

theorem freeSocket_follows : Follows sock (freeSocket sock).1 := ⟨⟨[], rfl⟩, fun alive => nomatch alive⟩

theorem acknowledge_follows (ack : UInt32) (sock : TCPSocket) : Follows sock (acknowledge ack sock) := by
  obtain ⟨_, _, eq⟩ := acknowledge_eq ack sock
  rw [eq]
  exact .of_same rfl rfl

theorem sendTCPData_follows (data : Bytes) (sock : TCPSocket) : Follows sock (sendTCPData env nth data sock).1 := by
  unfold sendTCPData
  split
  · exact .refl
  · have sent := sendTCPRaw_follows env nth (tcpPsh ||| tcpAck) data data sock
    exact sent.trans (.of_same rfl rfl)

theorem acceptSyn_follows : Follows sock (acceptSyn env seg sock).1 := by
  have drawn : Follows sock (drawSequence env { sock with targetSequence := seg.sequenceNum + 1 }).1 := .of_same rfl rfl
  refine (drawn.next (sendFlags_follows env 0 _)).next fun middle => ?_
  exact (become_follows .synRcvd middle).trans (.of_same rfl rfl)

theorem connectSyn_follows : Follows sock (connectSyn env sock).1 := by
  have drawn : Follows sock (drawSequence env sock).1 := .of_same rfl rfl
  exact (drawn.next (sendFlags_follows env 0 _)).next (become_follows _)

theorem receive_follows (payload : Bytes) (sock : TCPSocket) : Follows sock (receive payload sock) := ⟨⟨payload, rfl⟩, id⟩

theorem processNodes_follows (nodes : List TCPSegmentNode) (sock : TCPSocket) : Follows sock (processNodes nodes sock) := by
  induction nodes generalizing sock with
  | nil => exact .of_same rfl rfl
  | cons head rest ih =>
    unfold processNodes
    split
    · exact (receive_follows head.payload sock).trans (ih _)
    · split
      · exact ih sock
      · exact .of_same rfl rfl

theorem takeData_follows : Follows sock (takeData env seg sock).1 := by
  rw [takeData_socket]
  split
  · exact (receive_follows seg.payload sock).trans (processNodes_follows ..)
  · split
    · unfold addOOOSegment
      split
      · exact .of_same rfl rfl
      · exact .refl
    · exact .refl

theorem respond_follows : Follows sock (respond env sock).1 := by
  refine ((sendTCPData_follows env 1 htmlResponse sock).next (sendFlags_follows env 2 _)).next fun middle => ?_
  exact (become_follows .finWait1 middle).trans (.of_same rfl rfl)

theorem closeByFin_follows : Follows sock (closeByFin env sock).1 := by
  have acked := sendFlags_follows env 3 tcpAck { sock with targetSequence := sock.targetSequence + 1 }
  exact ((@Follows.onward sock _ _ acked rfl rfl).next (sendFlags_follows env 4 _)).next (become_follows _)

theorem freeByFin_follows : Follows sock (freeByFin env sock).1 := by
  have acked := sendFlags_follows env 0 tcpAck { sock with targetSequence := sock.targetSequence + 1 }
  exact (@Follows.onward sock _ _ acked rfl rfl).next freeSocket_follows

theorem finish_follows : Follows sock (finish env seg sock).1 := by
  have acked := acknowledge_follows seg.ackNum sock
  unfold finish
  split
  · exact acked.trans (closeByFin_follows env _)
  · exact acked

theorem caseEstablished_follows : Follows sock (caseEstablished env seg sock).1 := by
  have ht := takeData_follows env seg sock
  unfold caseEstablished
  split
  · exact ht
  · split
    · split
      · exact (ht.next (respond_follows env)).next (finish_follows env seg)
      · exact ht.next (finish_follows env seg)
    · exact finish_follows env seg sock

theorem caseListen_follows : Follows sock (caseListen env seg sock).1 := by
  unfold caseListen
  split
  · have ans := acceptSyn_follows env seg { sock with remoteIP := seg.srcIP, remotePort := seg.srcPort }
    exact ans.onward rfl rfl
  · exact .refl

theorem caseSynSent_follows : Follows sock (caseSynSent env seg sock).1 := by
  unfold caseSynSent
  split
  · have acked := sendFlags_follows env 0 tcpAck { sock with
      remoteIP := seg.srcIP, targetSequence := seg.sequenceNum + 1, mySequence := sock.mySequence + 1 }
    have opened := @Follows.onward sock _ _ acked rfl rfl
    refine (opened.next (become_follows _)).next fun middle => ?_
    have sent := sendTCPData_follows env 1 (httpRequest middle.domain) { middle with mySequence := middle.mySequence + 1 }
    exact sent.onward rfl rfl
  · split
    · have acked := sendFlags_follows env 0 tcpAck { sock with
        targetSequence := seg.sequenceNum + 1, mySequence := sock.mySequence + 1 }
      exact (@Follows.onward sock _ _ acked rfl rfl).next (become_follows _)
    · exact .refl

theorem caseSynRcvd_follows : Follows sock (caseSynRcvd env seg sock).1 := by
  unfold caseSynRcvd
  split
  · have resent := sendFlags_follows env 0 (tcpSyn ||| tcpAck) { sock with mySequence := sock.mySequence - 1 }
    exact (@Follows.onward sock _ _ resent rfl rfl).trans (.of_same rfl rfl)
  · split
    · refine ((become_follows .established sock).next fun middle => ?_).next (caseEstablished_follows env seg)
      exact .of_same rfl rfl
    · exact .refl

theorem caseFinWait1_follows : Follows sock (caseFinWait1 env seg sock).1 := by
  have acked : Follows sock (if has seg.flags tcpAck then become .finWait2 (acknowledge seg.ackNum sock) else (sock, [])).1 := by
    split
    · exact (acknowledge_follows seg.ackNum sock).trans (become_follows ..)
    · exact .refl
  unfold caseFinWait1
  dsimp only
  split
  · exact acked.next (freeByFin_follows env)
  · exact acked

theorem dispatch_follows : Follows sock (dispatch env seg sock).1 := by
  unfold dispatch
  split
  case h_1 => exact caseListen_follows env seg sock
  case h_2 => exact caseSynSent_follows env seg sock
  case h_3 => exact caseSynRcvd_follows env seg sock
  case h_4 => exact caseEstablished_follows env seg sock
  case h_5 => exact caseFinWait1_follows env seg sock
  case h_6 =>
    unfold caseFinWait2
    split
    · exact freeByFin_follows env sock
    · exact .refl
  case h_7 =>
    unfold caseLastAck
    split
    · exact freeSocket_follows sock
    · exact .refl
  all_goals exact .refl

theorem retransmit_follows : Follows sock (retransmit env nth sock).1 := by
  have sent := sendTCPRaw_follows env nth sock.lastFlags (lastPayload sock)
    ((range sock.lastPacketLen).map (env.freed nth)) { sock with mySequence := rewound sock }
  exact (@Follows.onward sock _ _ sent rfl rfl).trans (.of_same rfl rfl)

end

section

/-- The ring of an allocated socket is the one `AllocateSocket` made, with both indices inside. -/
def Ringed (sock : TCPSocket) : Prop := sock.allocated = true → sock.recv.Valid ∧ sock.recv.size = recvBufferSize

variable {sock after : TCPSocket} {env : Surroundings}

theorem Ringed.follow (ringed : Ringed sock) (follows : Follows sock after) : Ringed after := by
  intro alloc
  obtain ⟨valid, size⟩ := ringed (follows.allocated alloc)
  obtain ⟨bytes, fed⟩ := follows.fed
  rw [fed]
  exact (valid.putAll bytes).imp id fun eq => eq.trans size

theorem initSocket_ringed (slot : Slot) (sock : TCPSocket) : Ringed (initSocket slot sock) := fun _ =>
  ⟨⟨show 0 < recvBufferSize by decide, show 0 < recvBufferSize by decide⟩, rfl⟩

theorem Ringed.read (ringed : Ringed sock) (len : Nat) : Ringed (tcpRecv env len sock).2.1 := by
  unfold tcpRecv
  split
  · exact ringed
  · have emptied : Ringed { sock with recv := (RingBuffer.take len sock.recv).2 } := by
      intro alloc
      obtain ⟨valid, size⟩ := ringed alloc
      obtain ⟨_, _, valid', eq⟩ := RingBuffer.take_spec len valid
      exact ⟨valid', eq.trans size⟩
    dsimp only
    split
    · exact emptied.follow (sendFlags_follows ..)
    · exact emptied

/-- The same beside the record of the connection, which it does not read. -/
def RingedBeside (sock : TCPSocket) (_ : Connection) : Prop := Ringed sock

theorem World.step_ringed {world : World} {op : Op} {slot : Slot}
    (ringed : RingedBeside (world.table slot) (world.connection slot)) :
    RingedBeside ((world.step op).table slot) ((world.step op).connection slot) := by
  have fresh := initSocket_ringed slot (world.table slot)
  have followed {after : TCPSocket} (follows : Follows (world.table slot) after) : Ringed after := Ringed.follow ringed follows
  change Slotwise (perform world.table op) world.connection slot RingedBeside
  cases op with
  | socket => exact onNewSocket_leads ringed fun _ => fresh
  | listen env localPort =>
    exact onNewSocket_leads ringed fun _ => fresh.follow (.of_same rfl rfl)
  | connect env targetIP targetPort domain =>
    refine onNewSocket_leads ringed fun _ => fresh.follow ?_
    exact (connectSyn_follows env _).onward rfl rfl
  | sysConnect env target remoteIP remotePort =>
    refine onSocket_leads ringed fun _ => followed ?_
    unfold sysConnect
    split
    · exact .refl
    · exact (connectSyn_follows env _).onward rfl rfl
  | segment env seg =>
    refine handleTCP_leads ringed (fun _ => followed (dispatch_follows env seg _)) fun _ _ => fresh.follow ?_
    exact (acceptSyn_follows env seg _).onward rfl rfl
  | send env target data =>
    exact onSocket_leads ringed fun _ => followed (sendTCPData_follows env 0 data _)
  | recv env target len => exact onSocket_leads ringed fun _ => Ringed.read ringed len
  | close target => exact onSocket_leads ringed fun _ => followed (freeSocket_follows _)
  | timer env =>
    unfold perform Slotwise tcpCheckRetransmission
    dsimp only
    split
    · exact followed (retransmit_follows env _ _)
    · exact .silent ringed

end

section

variable {sock : TCPSocket} {env : Surroundings} {len : Nat}

theorem receiveAll_recv (payloads : List Bytes) (sock : TCPSocket) :
    (receiveAll payloads sock).recv = sock.recv.putAll payloads.flatten := by
  induction payloads generalizing sock with
  | nil => rfl
  | cons payload rest ih =>
    have later := ih (receive payload sock)
    rw [flatten_cons, RingBuffer.putAll, foldl_append]
    exact later

theorem windowSize_toNat {recv : RingBuffer UInt8} (size : recv.size = recvBufferSize) :
    (windowSize recv).toNat = if freeSpace recv < 1460 then 0 else freeSpace recv := by
  have bound : freeSpace recv ≤ 8192 := by rw [freeSpace, size]; exact Nat.sub_le ..
  have exact16 : (UInt16.ofNat (freeSpace recv)).toNat = freeSpace recv := by
    rw [UInt16.toNat_ofNat', Nat.mod_eq_of_lt (by omega)]
  have compared : UInt16.ofNat (freeSpace recv) < 1460 ↔ freeSpace recv < 1460 := by
    rw [UInt16.lt_iff_toNat_lt, exact16]
    rfl
  change (if UInt16.ofNat (freeSpace recv) < 1460 then (0 : UInt16) else UInt16.ofNat (freeSpace recv)).toNat = _
  by_cases lt : freeSpace recv < 1460
  · rw [if_pos (compared.mpr lt), if_pos lt]
    rfl
  · rw [if_neg (mt compared.mp lt), if_neg lt, exact16]

theorem windowSize_eq_zero_iff {recv : RingBuffer UInt8} (size : recv.size = recvBufferSize) :
    windowSize recv = 0 ↔ freeSpace recv < 1460 := by
  rw [← UInt16.toNat_inj, windowSize_toNat size]
  change (if freeSpace recv < 1460 then 0 else freeSpace recv) = 0 ↔ _
  split <;> omega

theorem receiveAll_overwrites {payloads : List Bytes} (valid : sock.recv.Valid) (size : sock.recv.size = recvBufferSize)
    (opened : windowSize sock.recv ≠ 0) (whole : payloads.flatten.length = (windowSize sock.recv).toNat) :
    (receiveAll payloads sock).recv.read ≠ sock.recv.read := by
  have used := valid.used_lt
  rw [windowSize_toNat size, if_neg (mt (windowSize_eq_zero_iff size).mpr opened), freeSpace] at whole
  rw [receiveAll_recv]
  exact RingBuffer.read_putAll_full valid _ (by rw [size]; decide) (by omega)

theorem fits_iff (valid : sock.recv.Valid) (size : sock.recv.size = recvBufferSize) :
    (∀ payloads : List Bytes, payloads.flatten.length ≤ (windowSize sock.recv).toNat →
      (receiveAll payloads sock).recv.read = sock.recv.read) ↔ freeSpace sock.recv < 1460 := by
  rw [← windowSize_eq_zero_iff size]
  constructor
  · intro fits
    by_contra opened
    have whole : [replicate (windowSize sock.recv).toNat (0 : UInt8)].flatten.length =
        (windowSize sock.recv).toNat := by
      rw [flatten_singleton, length_replicate]
    exact receiveAll_overwrites valid size opened whole (fits _ (Nat.le_of_eq whole))
  · intro closed payloads within
    rw [closed] at within
    rw [receiveAll_recv, length_eq_zero_iff.mp (Nat.le_zero.mp within)]
    rfl

theorem tcpRecv_recv (alloc : sock.allocated = true) :
    (tcpRecv env len sock).2.1.recv = (RingBuffer.take len sock.recv).2 := by
  unfold tcpRecv
  rw [if_neg (by simp [alloc])]
  dsimp only
  split
  · rw [sendFlags_ack]
  · rfl

theorem mem_tcpRecv_sent (alloc : sock.allocated = true) (valid : sock.recv.Valid) (packet : Packet) :
    .sent packet ∈ (tcpRecv env len sock).2.2 ↔
      freeSpace sock.recv < 1460 ∧ 0 < min len sock.recv.used ∧ getMacFromCache env 0 sock = true ∧
        packet = buildPacket { sock with recv := (RingBuffer.take len sock.recv).2 } tcpAck [] := by
  obtain ⟨ht, _⟩ := RingBuffer.take_spec len valid
  have count : (RingBuffer.take len sock.recv).1.length = min len sock.recv.used := by
    rw [ht, length_take, RingBuffer.length_unread]
  have logged : (sendFlags env 0 tcpAck { sock with recv := (RingBuffer.take len sock.recv).2 }).2 =
      if getMacFromCache env 0 sock = true then
        [.sent (buildPacket { sock with recv := (RingBuffer.take len sock.recv).2 } tcpAck [])]
      else [.dropped (buildPacket { sock with recv := (RingBuffer.take len sock.recv).2 } tcpAck [])] := by
    unfold sendFlags sendTCPRaw
    split
    case isTrue cached => exact (if_pos cached).symm
    case isFalse miss => exact (if_neg miss).symm
  unfold tcpRecv
  rw [if_neg (by simp [alloc])]
  dsimp only
  rw [count]
  by_cases update : sock.recv.size - sock.recv.used < 1460 ∧ 0 < min len sock.recv.used
  · rw [if_pos update, logged]
    by_cases cached : getMacFromCache env 0 sock = true
    · rw [if_pos cached, mem_singleton]
      simp [update.2, cached, show freeSpace sock.recv < 1460 from update.1]
    · simp [cached]
  · rw [if_neg update]
    constructor
    · intro hin
      exact absurd hin not_mem_nil
    · rintro ⟨lt, some, _⟩
      exact absurd ⟨lt, some⟩ update

theorem reopens_iff (alloc : sock.allocated = true) (valid : sock.recv.Valid) (size : sock.recv.size = recvBufferSize) :
    (windowSize sock.recv = 0 → windowSize (tcpRecv env len sock).2.1.recv ≠ 0 →
      ∃ packet, .sent packet ∈ (tcpRecv env len sock).2.2 ∧ packet.windowSize ≠ 0) ↔
    (freeSpace sock.recv < 1460 → 1460 ≤ freeSpace sock.recv + len → getMacFromCache env 0 sock = true) := by
  obtain ⟨_, left, _, eq⟩ := RingBuffer.take_spec len valid
  have used := valid.used_lt
  have after : freeSpace (RingBuffer.take len sock.recv).2 = sock.recv.size - (sock.recv.used - len) := by
    rw [freeSpace, eq, ← RingBuffer.length_unread, left, length_drop, RingBuffer.length_unread]
  have enough (lt : freeSpace sock.recv < 1460) :
      windowSize (RingBuffer.take len sock.recv).2 ≠ 0 ↔ 1460 ≤ freeSpace sock.recv + len := by
    have whole : sock.recv.size = 8192 := size
    rw [Ne, windowSize_eq_zero_iff (eq.trans size), after]
    rw [freeSpace] at lt ⊢
    omega
  rw [windowSize_eq_zero_iff size, tcpRecv_recv alloc]
  refine imp_congr_right fun lt => ?_
  rw [enough lt]
  refine imp_congr_right fun frees => ?_
  have whole : sock.recv.size = 8192 := size
  constructor
  · rintro ⟨packet, sent, _⟩
    exact ((mem_tcpRecv_sent alloc valid packet).mp sent).2.2.1
  · intro cached
    have some : 0 < min len sock.recv.used := by
      rw [freeSpace] at lt frees
      omega
    exact ⟨_, (mem_tcpRecv_sent alloc valid _).mpr ⟨lt, some, cached, rfl⟩, (enough lt).mpr frees⟩

/-- In every run the promise of a socket is kept exactly while it promises nothing
and the update that reopens the window finds the address of the next hop. -/
theorem window_promise_iff {boot world : World} (booted : boot.Booted)
    (reached : Reaches World.next (fun _ _ => True) boot world) {slot : Slot}
    (allocated : (world.table slot).allocated = true) (env : Surroundings) (len : Nat) :
    KeepsPromise env len (world.table slot) ↔
      freeSpace (world.table slot).recv < 1460 ∧
        (1460 ≤ freeSpace (world.table slot).recv + len → getMacFromCache env 0 (world.table slot) = true) := by
  have initial (slot : Slot) : RingedBeside (boot.table slot) (boot.connection slot) :=
    fun alive => absurd alive (by simp [booted.allocated slot])
  have ringed := reached.invariant (fun world => ∀ slot, RingedBeside (world.table slot) (world.connection slot)) initial
    fun _ _ _ ringed _ ht slot => by
      cases Option.some.inj ht
      exact World.step_ringed (ringed slot)
  obtain ⟨valid, size⟩ := ringed slot allocated
  have fits := fits_iff valid size
  have reopens := @reopens_iff _ env len allocated valid size
  constructor
  · intro keeps
    have lt := fits.mp keeps.fits
    exact ⟨lt, reopens.mp keeps.reopens lt⟩
  · rintro ⟨lt, reachable⟩
    exact ⟨fits.mpr lt, reopens.mpr fun _ => reachable⟩

theorem opened_reached : Reaches World.next (fun _ _ => True) bootWorld opened :=
  ((Reaches.start.next (.listen quiet 80) trivial rfl).next (.segment quiet (fromClient tcpSyn 0)) trivial rfl).next
    (.segment quiet (fromClient tcpAck 1)) trivial rfl

/-- 8000 bytes in sequence for the accepted connection. -/
def bulk : Segment := { fromClient tcpAck 1 with sequenceNum := 501, len := 8020 }

def crowded : World := opened.step (.segment quiet bulk)

theorem bulk_payload : bulk.payload = replicate 8000 0 := by
  have constant : bulk.payload = (range 8000).map (Function.const Nat (0 : UInt8)) := rfl
  rw [constant, map_const, length_range]

theorem dispatch_stores {seg : Segment} (established : sock.state = .established) (filled : 0 < seg.payload.length)
    (noFin : has seg.flags tcpFin = false) (noRequest : seg.request = false)
    (inSequence : seg.sequenceNum = sock.targetSequence) (empty : sock.oooList = []) :
    (dispatch env seg sock).1.recv = sock.recv.putAll seg.payload ∧ (dispatch env seg sock).1.allocated = sock.allocated := by
  obtain ⟨wait, packet, handled⟩ := caseEstablished_plain env sock filled noFin noRequest
  have stored : (takeData env seg sock).1 = processNodes [] (receive seg.payload sock) := by
    rw [takeData_socket, if_pos inSequence, processOOOList]
    exact congrArg (processNodes · _) empty
  have h : (dispatch env seg sock).1 = (caseEstablished env seg sock).1 := by rw [dispatch, established]
  rw [h, handled, stored]
  exact ⟨rfl, rfl⟩

/-- A ring with 192 free cells promises nothing, and a read of one byte keeps it so. -/
theorem window_promise_crowded : KeepsPromise quiet 1 (crowded.table 1) := by
  have child : getSocket opened.table bulk.destPort bulk.srcIP bulk.srcPort = some 1 := by decide
  have length : bulk.payload.length = 8000 := by rw [bulk_payload, length_replicate]
  have plain : bulk.request = false := by
    rw [Segment.request, bulk_payload, take_replicate]
    decide
  have landed : crowded.table 1 = (dispatch quiet bulk (opened.table 1)).1 := by
    rw [crowded, World.step]
    dsimp only [perform]
    rw [handleTCP_table child, Function.update_self]
  obtain ⟨stored, alive⟩ := @dispatch_stores (opened.table 1) quiet bulk (by decide) (by rw [length]; omega) (by decide)
    plain (by decide) (by decide)
  have valid : (opened.table 1).recv.Valid := ⟨by decide, by decide⟩
  have vacant : (opened.table 1).recv.used = 0 := by decide
  have cells : (opened.table 1).recv.size = 8192 := by decide
  obtain ⟨_, unread, size⟩ := RingBuffer.putAll_spec valid bulk.payload (by rw [length, vacant, cells]; omega)
  have free : freeSpace (crowded.table 1).recv = 192 := by
    rw [landed, stored, freeSpace, size, cells, ← RingBuffer.length_unread, unread, length_append, length,
      RingBuffer.length_unread, vacant]
  have alloc : (crowded.table 1).allocated = true := by
    rw [landed, alive]
    decide
  have hr : Reaches World.next (fun _ _ => True) bootWorld crowded :=
    opened_reached.next (.segment quiet bulk) trivial rfl
  exact (window_promise_iff bootWorld_booted hr alloc quiet 1).mpr ⟨by rw [free]; omega, by rw [free]; omega⟩

/-- An empty ring advertises 8192 bytes, and the last of them overwrites the first. -/
theorem window_promise_empty : ∃ world, Reaches World.next (fun _ _ => True) bootWorld world ∧
    (world.table 1).state = .established ∧ (world.connection 1).sent.map Packet.windowSize = [8192] ∧
    ¬ KeepsPromise quiet 1 (world.table 1) := by
  refine ⟨opened, opened_reached, by decide, by decide, fun keeps => ?_⟩
  have advertised : (windowSize (opened.table 1).recv).toNat = 8192 := by decide
  have whole : [replicate 8192 (0 : UInt8)].flatten.length = (windowSize (opened.table 1).recv).toNat := by
    rw [flatten_singleton, length_replicate, advertised]
  have overwritten := receiveAll_overwrites ⟨by decide, by decide⟩ (by decide) (by decide) whole
  exact overwritten (keeps.fits _ (Nat.le_of_eq whole))

end

end RosKernel.Network
