import RosKernel.Network.SendSide

/-! The state changes of a socket and the segments that cause them.

What a change needs is stated with the numbers of the connection: the initial
sequence number it drew, the number its own FIN took and the number the FIN of the
peer takes behind the data it comes with.
-/

set_option autoImplicit false

namespace RosKernel.Network

open Library List Option

/-- The sequence number of the FIN a segment carries. -/
def Segment.finNumber (seg : Segment) : UInt32 := seg.sequenceNum + UInt32.ofNat seg.payload.length

/-- What the segment did to a socket had the acknowledgement or the FIN it needs. -/
structure Guarded (seg : Segment) (sock : TCPSocket) (conn : Connection) (result : Exchange) : Prop where
  opens : .moved .established ∈ result.2 → seg.ackNum = conn.initial + 1
  /-- A FIN is accepted when it is the next byte to come. -/
  closes : .moved .lastAck ∈ result.2 ∨
      ((sock.state = .finWait1 ∨ sock.state = .finWait2) ∧ .moved .closed ∈ result.2) →
    result.1.targetSequence = seg.finNumber + 1
  /-- Our own FIN is acknowledged. -/
  covers : .moved .finWait2 ∈ result.2 ∨ (sock.state = .lastAck ∧ .moved .closed ∈ result.2) →
    ∃ fin, conn.fin = some fin ∧ seg.ackNum = fin + 1

/-- The segment comes from the peer of the socket and arrived at its local address. -/
structure Addressed (env : Surroundings) (seg : Segment) (sock : TCPSocket) : Prop where
  allocated : sock.allocated = true
  localIP : sock.localIP = env.card.ip
  localPort : sock.localPort = seg.destPort
  remoteIP : sock.remoteIP = seg.srcIP
  remotePort : sock.remotePort = seg.srcPort

/-- A slot a segment left alone, or in which a listener opened a connection. -/
def UntouchedOrNew (env : Surroundings) (seg : Segment) (table : SocketTable) (slot : Slot) (result : Exchange) : Prop :=
  result = (table slot, []) ∨
    (table slot).allocated = false ∧ (getListener table seg.destPort).isSome ∧ has seg.flags tcpSyn = true ∧
      result = acceptConnection env seg (initSocket slot (table slot))

/-- Where the sequence number of a socket stands to the numbers of its connection. -/
def Marked (state : TCPState) (sequence : UInt32) (conn : Connection) : Prop :=
  match state with
  | .synSent => sequence = conn.initial
  | .synRcvd => sequence = conn.initial + 1
  | .finWait1 | .finWait2 => ∃ fin, conn.fin = some fin ∧ sequence = fin + 1
  | .lastAck => conn.fin = some sequence
  | .closed | .listen | .established | .timeWait | .closeWait => True

abbrev Aligned (sock : TCPSocket) (conn : Connection) : Prop := Marked sock.state sock.mySequence conn

section

variable (env : Surroundings) (nth : Nat) (flags : UInt8) (sock : TCPSocket) (state : TCPState)

/-- The states a log passes through. -/
def moves (log : List Traffic) : List TCPState := log.filterMap fun
  | .moved state => some state
  | _ => none

@[simp] theorem moves_append (first snd : List Traffic) : moves (first ++ snd) = moves first ++ moves snd :=
  filterMap_append

@[simp] theorem moves_next (first : Exchange) (call : TCPSocket → Exchange) :
    moves (first.next call).2 = moves first.2 ++ moves (call first.1).2 := moves_append ..

theorem mem_moves {log : List Traffic} {state : TCPState} : .moved state ∈ log ↔ state ∈ moves log := by
  unfold moves
  rw [mem_filterMap]
  constructor
  · intro hin
    exact ⟨_, hin, rfl⟩
  · rintro ⟨event, hin, eq⟩
    cases event with
    | moved other => exact some.inj eq ▸ hin
    | _ => exact nomatch eq

@[simp] theorem moves_sendTCPRaw (payload copied : Bytes) : moves (sendTCPRaw env nth flags payload copied sock).2 = [] := by
  unfold sendTCPRaw
  cases getMacFromCache env nth sock with
  | false => rfl
  | true => cases kept flags payload <;> rfl

@[simp] theorem moves_sendFlags : moves (sendFlags env nth flags sock).2 = [] := moves_sendTCPRaw ..

@[simp] theorem moves_sendTCPData (data : Bytes) : moves (sendTCPData env nth data sock).2 = [] := by
  unfold sendTCPData
  split
  · rfl
  · exact moves_sendTCPRaw ..

@[simp] theorem moves_become : moves (become state sock).2 = [state] := rfl

@[simp] theorem moves_drawSequence : moves (drawSequence env sock).2 = [] := rfl

@[simp] theorem moves_freeSocket : moves (freeSocket sock).2 = [.closed] := rfl

@[simp] theorem moves_takeData (seg : Segment) : moves (takeData env seg sock).2 = [] := by
  obtain ⟨recv, target, nodes, eq⟩ := takeData_eq env sock seg
  rw [eq]
  exact moves_sendFlags ..

@[simp] theorem moves_respond : moves (respond env sock).2 = [.finWait1] := by simp [respond]

@[simp] theorem moves_acceptSyn (seg : Segment) : moves (acceptSyn env seg sock).2 = [.synRcvd] := by simp [acceptSyn]

@[simp] theorem moves_freeByFin : moves (freeByFin env sock).2 = [.closed] := by simp [freeByFin]

theorem moves_finish (seg : Segment) :
    moves (finish env seg sock).2 = if has seg.flags tcpFin then [.lastAck] else [] := by
  unfold finish
  split
  · simp [closeByFin]
  · rfl

/-- In ESTABLISHED a segment starts our own close or answers a FIN; early data does neither. -/
theorem moves_caseEstablished (seg : Segment) {state : TCPState} (passed : state ∈ moves (caseEstablished env seg sock).2) :
    state = .finWait1 ∨ state = .lastAck ∧ has seg.flags tcpFin = true ∧ seg.early sock.targetSequence = false := by
  unfold caseEstablished at passed
  by_cases early : seg.early sock.targetSequence = true
  · simp [early] at passed
  · have ans (after : TCPSocket) (passed : state ∈ moves (finish env seg after).2) :
        state = .lastAck ∧ has seg.flags tcpFin = true ∧ seg.early sock.targetSequence = false := by
      rw [moves_finish] at passed
      split at passed
      case isTrue closes => exact ⟨mem_singleton.mp passed, closes, by simpa using early⟩
      case isFalse => exact nomatch passed
    rw [if_neg early] at passed
    split at passed
    · split at passed
      · simp only [moves_next, moves_takeData, moves_respond, nil_append, mem_append, mem_singleton] at passed
        exact passed.imp_right (ans _)
      · simp only [moves_next, moves_takeData, nil_append] at passed
        exact .inr (ans _ passed)
    · exact .inr (ans _ passed)

end

section

variable (env : Surroundings) (nth : Nat) (flags : UInt8) (sock : TCPSocket)

@[simp] theorem sendFlags_target : (sendFlags env nth flags sock).1.targetSequence = sock.targetSequence := by
  obtain ⟨_, _, _, _, _, eq⟩ := sendTCPRaw_frame env nth flags sock [] []
  rw [sendFlags, eq]

@[simp] theorem sendTCPData_target (data : Bytes) :
    (sendTCPData env nth data sock).1.targetSequence = sock.targetSequence := by
  unfold sendTCPData
  split
  · rfl
  · obtain ⟨_, _, _, _, _, eq⟩ := sendTCPRaw_frame env nth (tcpPsh ||| tcpAck) sock data data
    dsimp only
    rw [eq]

@[simp] theorem acknowledge_target (ack : UInt32) : (acknowledge ack sock).targetSequence = sock.targetSequence := by
  obtain ⟨_, _, eq⟩ := acknowledge_eq ack sock
  rw [eq]

@[simp] theorem respond_target : (respond env sock).1.targetSequence = sock.targetSequence := by
  simp [respond, Traced.next, become]

@[simp] theorem freeByFin_target : (freeByFin env sock).1.targetSequence = sock.targetSequence + 1 := by
  simp [freeByFin, Traced.next, freeSocket]

theorem finish_target (seg : Segment) (closes : has seg.flags tcpFin = true) :
    (finish env seg sock).1.targetSequence = sock.targetSequence + 1 := by
  simp [finish, closes, closeByFin, Traced.next, become]

theorem processNodes_target {nodes : List TCPSegmentNode}
    (ne : ∀ node ∈ nodes, node.sequence ≠ sock.targetSequence) :
    (processNodes nodes sock).targetSequence = sock.targetSequence := by
  induction nodes with
  | nil => rfl
  | cons head rest ih =>
    rw [processNodes, if_neg (ne head (.head _))]
    split
    · exact ih fun node hin => ne node (.tail _ hin)
    · rfl

/-- A FIN that a socket in ESTABLISHED is ready for: the data it comes with is the
next to come and nothing waits behind it, or all of it has come before. -/
def ProperFin (seg : Segment) (sock : TCPSocket) : Prop :=
  has seg.flags tcpFin = true → seg.early sock.targetSequence = false →
    if seg.payload ≠ [] ∧ seg.sequenceNum = sock.targetSequence then
      ∀ node ∈ sock.oooList, node.sequence ≠ seg.finNumber
    else seg.finNumber = sock.targetSequence

variable {env sock} {seg : Segment}

theorem takeData_target (filled : seg.payload ≠ []) (onTime : seg.early sock.targetSequence = false)
    (proper : if seg.payload ≠ [] ∧ seg.sequenceNum = sock.targetSequence then
      ∀ node ∈ sock.oooList, node.sequence ≠ seg.finNumber else seg.finNumber = sock.targetSequence) :
    (takeData env seg sock).1.targetSequence = seg.finNumber := by
  have notBefore : ¬ sock.targetSequence < seg.sequenceNum := by
    intro pre
    simp [Segment.early, length_pos_of_ne_nil filled, pre] at onTime
  rw [takeData_socket]
  by_cases next : seg.sequenceNum = sock.targetSequence
  · rw [if_pos ⟨filled, next⟩] at proper
    rw [if_pos next]
    have ht : (receive seg.payload sock).targetSequence = seg.finNumber := by rw [receive, Segment.finNumber, next]
    refine (processNodes_target _ ?_).trans ht
    rw [ht]
    exact proper
  · grind

theorem caseEstablished_target (proper : ProperFin seg sock) (closes : has seg.flags tcpFin = true)
    (onTime : seg.early sock.targetSequence = false) :
    (caseEstablished env seg sock).1.targetSequence = seg.finNumber + 1 := by
  have ready := proper closes onTime
  rw [caseEstablished, if_neg (by simp [onTime])]
  split
  case isTrue filled =>
    have content : seg.payload ≠ [] := ne_nil_of_length_pos filled
    have ht := @takeData_target env _ _ content onTime ready
    split
    · rw [Traced.next, finish_target _ _ _ closes, Traced.next, respond_target, ht]
    · rw [Traced.next, finish_target _ _ _ closes, ht]
  case isFalse bare =>
    have empty : seg.payload = [] := length_eq_zero_iff.mp (by omega)
    rw [if_neg (fun both => both.1 empty)] at ready
    rw [finish_target _ _ _ closes, ready]

end

section

variable {env : Surroundings} {nth : Nat} {flags : UInt8} {sock : TCPSocket} {conn : Connection} {state : TCPState}
  {seg : Segment}

theorem Marked.of_same {sequence : UInt32} {seen : Connection} (marked : Marked state sequence conn)
    (initial : seen.initial = conn.initial) (fin : seen.fin = conn.fin) : Marked state sequence seen := by
  cases state <;> simp only [Marked, initial, fin] at marked ⊢ <;> exact marked

theorem Marked.send (marked : Marked state sock.mySequence conn) (env : Surroundings) (nth : Nat)
    (plain : has flags tcpFin = false) : (sendFlags env nth flags sock).Leads record conn
      fun after seen => Marked state after.mySequence seen := by
  have unnumbered : conn.finAt (buildPacket sock flags []) = conn.fin := if_neg (by simp [buildPacket, plain])
  refine sendTCPRaw_leads ?_ ?_ ?_
  all_goals exact fun _ => marked.of_same rfl unnumbered

theorem sendFin_marked (env : Surroundings) (nth : Nat) (sock : TCPSocket) : (sendFlags env nth (tcpFin ||| tcpAck) sock).Leads
    record conn fun after seen => Marked .lastAck after.mySequence seen := by
  have num : conn.finAt (buildPacket sock (tcpFin ||| tcpAck) []) = some sock.mySequence :=
    if_pos (show has (tcpFin ||| tcpAck) tcpFin = true by decide)
  refine sendTCPRaw_leads ?_ ?_ ?_
  · exact fun _ => num
  · exact fun _ => num
  · exact fun _ => num

theorem Aligned.send (hal : Aligned sock conn) (env : Surroundings) (nth : Nat) (plain : has flags tcpFin = false) :
    (sendFlags env nth flags sock).Leads record conn Aligned := by
  have still := sendFlags_state env nth flags sock
  unfold Traced.Leads Aligned
  rw [still]
  exact Marked.send hal env nth plain

theorem Aligned.of_established (h : sock.state = .established) : Aligned sock conn := by
  rw [Aligned, h]
  trivial

theorem acceptSyn_aligned : (acceptSyn env seg sock).Leads record conn Aligned := by
  have drawn : (drawSequence env { sock with targetSequence := seg.sequenceNum + 1 }).Leads record conn
      fun after seen => Marked .synSent after.mySequence seen := rfl
  have ans := drawn.next fun _ _ marked =>
    Marked.send marked env 0 (show has (tcpSyn ||| tcpAck) tcpFin = false by decide)
  exact ans.next fun _ _ sent => congrArg (· + 1) sent

theorem connectSyn_aligned : (connectSyn env sock).Leads record conn Aligned := by
  have drawn : (drawSequence env sock).Leads record conn fun after seen => Marked .synSent after.mySequence seen := rfl
  have asked := drawn.next fun _ _ marked => Marked.send marked env 0 (show has tcpSyn tcpFin = false by decide)
  exact asked.next fun _ _ sent => sent

theorem closeByFin_aligned : (closeByFin env sock).Leads record conn Aligned := by
  have acked : (sendFlags env 3 tcpAck { sock with targetSequence := sock.targetSequence + 1 }).Leads record conn
      fun _ _ => True := trivial
  have closed := acked.next fun sock _ _ => sendFin_marked env 4 sock
  exact closed.next fun _ _ marked => marked

theorem respond_aligned : (respond env sock).Leads record conn fun after seen =>
    after.state = .finWait1 ∧ Aligned after seen := by
  have ans : (sendTCPData env 1 htmlResponse sock).Leads record conn fun _ _ => True := trivial
  have closed := ans.next fun sock _ _ => sendFin_marked env 2 sock
  exact closed.next fun _ _ marked => ⟨rfl, _, marked, rfl⟩

theorem Aligned.acknowledge (hal : Aligned sock conn) (ack : UInt32) : Aligned (acknowledge ack sock) conn := by
  obtain ⟨_, _, eq⟩ := acknowledge_eq ack sock
  rw [eq]
  exact hal

theorem Aligned.finish (hal : Aligned sock conn) : (finish env seg sock).Leads record conn Aligned := by
  unfold Network.finish
  split
  · exact closeByFin_aligned
  · exact .silent (hal.acknowledge _)

theorem takeData_state : (takeData env seg sock).1.state = sock.state := by
  obtain ⟨recv, target, nodes, eq⟩ := takeData_eq env sock seg
  rw [eq, sendFlags_ack]

theorem caseEstablished_aligned (h : sock.state = .established) :
    (caseEstablished env seg sock).Leads record conn Aligned := by
  have ht : (takeData env seg sock).Leads record conn fun after _ => after.state = .established :=
    takeData_state.trans h
  unfold caseEstablished
  split
  · exact ht.mono fun _ _ h => .of_established h
  · split
    · split
      · exact (ht.next fun _ _ _ => respond_aligned).next fun _ _ responded => responded.2.finish
      · exact ht.next fun _ _ h => (Aligned.of_established h).finish
    · exact (Aligned.of_established h).finish

theorem freeByFin_aligned : (freeByFin env sock).Leads record conn Aligned := trivial

section

variable (hal : Aligned sock conn)
include hal

theorem Aligned.caseSynSent (h : sock.state = .synSent) : (caseSynSent env seg sock).Leads record conn Aligned := by
  have number : sock.mySequence = conn.initial := by rwa [Aligned, h] at hal
  unfold Network.caseSynSent
  split
  · exact .of_established (sendTCPData_state ..)
  · split
    · have cnt : Marked .synRcvd (sock.mySequence + 1) conn := congrArg (· + 1) number
      have ans : (sendFlags env 0 tcpAck { sock with
          targetSequence := seg.sequenceNum + 1, mySequence := sock.mySequence + 1 }).Leads record conn
          fun after seen => Marked .synRcvd after.mySequence seen := Marked.send cnt env 0 (by decide)
      exact ans.next fun _ _ sent => sent
    · exact .silent hal

theorem Aligned.caseSynRcvd (h : sock.state = .synRcvd) : (caseSynRcvd env seg sock).Leads record conn Aligned := by
  have number : sock.mySequence = conn.initial + 1 := by rwa [Aligned, h] at hal
  unfold Network.caseSynRcvd
  split
  · have back : Marked .synSent (sock.mySequence - 1) conn := by rw [Marked, number, UInt32.add_sub_cancel]
    have again : (sendFlags env 0 (tcpSyn ||| tcpAck) { sock with mySequence := sock.mySequence - 1 }).Leads record conn
        fun after seen => Marked .synSent after.mySequence seen := Marked.send back env 0 (by decide)
    have still : (sendFlags env 0 (tcpSyn ||| tcpAck) { sock with mySequence := sock.mySequence - 1 }).1.state =
        .synRcvd := (sendFlags_state ..).trans h
    unfold Traced.Leads Aligned
    rw [still]
    exact congrArg (· + 1) again
  · split
    · have opened : ((become .established sock).next fun sock => (stopTimer sock, [])).Leads record conn
          fun after _ => after.state = .established := rfl
      exact opened.next fun _ _ h => caseEstablished_aligned h
    · exact .silent hal

theorem Aligned.caseFinWait1 (h : sock.state = .finWait1) : (caseFinWait1 env seg sock).Leads record conn Aligned := by
  have marked : Marked .finWait1 sock.mySequence conn := by rwa [Aligned, h] at hal
  unfold Network.caseFinWait1
  dsimp only
  split
  · exact @Traced.Leads.next _ _ _ _ _ _ (fun _ _ => True) _ _ trivial fun _ _ _ => freeByFin_aligned
  · split
    · obtain ⟨_, _, eq⟩ := acknowledge_eq seg.ackNum sock
      rw [eq]
      exact marked
    · exact .silent hal

theorem Aligned.dispatch : (dispatch env seg sock).Leads record conn Aligned := by
  unfold Network.dispatch
  split
  case h_1 =>
    unfold caseListen
    split
    · exact acceptSyn_aligned
    · exact .silent hal
  case h_2 h => exact hal.caseSynSent h
  case h_3 h => exact hal.caseSynRcvd h
  case h_4 h => exact caseEstablished_aligned h
  case h_5 h => exact hal.caseFinWait1 h
  case h_6 =>
    unfold caseFinWait2
    split
    · exact freeByFin_aligned
    · exact .silent hal
  case h_7 =>
    unfold caseLastAck
    split
    · exact trivial
    · exact .silent hal
  all_goals exact .silent hal

end

end

section

variable {env : Surroundings} {sock : TCPSocket} {conn : Connection} {seg : Segment} {result : Exchange}

/-- A segment whose acknowledgement and FIN are the ones its socket waits for. -/
def Proper (seg : Segment) (sock : TCPSocket) : Prop :=
  match sock.state with
  | .synSent => has seg.flags tcpSyn = true → has seg.flags tcpAck = true → seg.ackNum = sock.mySequence + 1
  | .synRcvd => has seg.flags tcpSyn = false → has seg.flags tcpAck = true → seg.ackNum = sock.mySequence →
      ProperFin seg sock
  | .established => ProperFin seg sock
  | .finWait1 => (has seg.flags tcpAck = true → seg.ackNum = sock.mySequence) ∧
      (has seg.flags tcpFin = true → seg.finNumber = sock.targetSequence)
  | .finWait2 => has seg.flags tcpFin = true → seg.finNumber = sock.targetSequence
  | .lastAck => has seg.flags tcpAck = true → seg.ackNum = sock.mySequence + 1
  | .closed | .listen | .timeWait | .closeWait => True

theorem Guarded.of_moves {passed : List TCPState} (moved : moves result.2 = passed)
    (opens : .established ∈ passed → seg.ackNum = conn.initial + 1)
    (closes : .lastAck ∈ passed ∨ ((sock.state = .finWait1 ∨ sock.state = .finWait2) ∧ .closed ∈ passed) →
      result.1.targetSequence = seg.finNumber + 1)
    (covers : .finWait2 ∈ passed ∨ (sock.state = .lastAck ∧ .closed ∈ passed) →
      ∃ fin, conn.fin = some fin ∧ seg.ackNum = fin + 1) : Guarded seg sock conn result := by
  subst moved
  simp only [← mem_moves] at opens closes covers
  exact ⟨opens, closes, covers⟩

theorem Guarded.idle (still : moves result.2 = []) : Guarded seg sock conn result :=
  .of_moves still (fun passed => nomatch passed) (fun passed => by simp at passed) fun passed => by simp at passed

theorem Guarded.request (moved : moves result.2 = [.synRcvd]) : Guarded seg sock conn result :=
  .of_moves moved (fun passed => by simp at passed) (fun passed => by simp at passed) fun passed => by simp at passed

theorem Guarded.caseSynSent (hal : Aligned sock conn) (h : sock.state = .synSent)
    (proper : has seg.flags tcpSyn = true → has seg.flags tcpAck = true → seg.ackNum = sock.mySequence + 1) :
    Guarded seg sock conn (caseSynSent env seg sock) := by
  have number : sock.mySequence = conn.initial := by rwa [Aligned, h] at hal
  unfold Network.caseSynSent
  split
  case isTrue both =>
    refine .of_moves (by simp; rfl) ?_ ?_ ?_
    · exact fun _ => number ▸ proper both.1 both.2
    · simp [h]
    · simp [h]
  case isFalse =>
    split
    · exact .request (by simp)
    · exact .idle rfl

theorem caseEstablished_closes (proper : ProperFin seg sock)
    (passed : .lastAck ∈ moves (caseEstablished env seg sock).2) :
    (caseEstablished env seg sock).1.targetSequence = seg.finNumber + 1 := by
  rcases moves_caseEstablished env sock seg passed with early | ⟨_, closes, onTime⟩
  · exact nomatch early
  · exact caseEstablished_target proper closes onTime

theorem not_passed {state : TCPState} (started : state ≠ .finWait1) (closed : state ≠ .lastAck) :
    state ∉ moves (caseEstablished env seg sock).2 := by
  intro passed
  rcases moves_caseEstablished env sock seg passed with eq | ⟨eq, _⟩
  · exact started eq
  · exact closed eq

theorem Guarded.caseEstablished (h : sock.state = .established) (proper : ProperFin seg sock) :
    Guarded seg sock conn (caseEstablished env seg sock) := by
  refine .of_moves rfl ?_ ?_ ?_
  · exact fun passed => absurd passed (not_passed nofun nofun)
  · rintro (passed | ⟨state, _⟩)
    · exact caseEstablished_closes proper passed
    · simp [h] at state
  · rintro (passed | ⟨state, _⟩)
    · exact absurd passed (not_passed nofun nofun)
    · simp [h] at state

theorem Guarded.caseSynRcvd (hal : Aligned sock conn) (h : sock.state = .synRcvd)
    (proper : has seg.flags tcpSyn = false → has seg.flags tcpAck = true → seg.ackNum = sock.mySequence →
      ProperFin seg sock) : Guarded seg sock conn (caseSynRcvd env seg sock) := by
  have number : sock.mySequence = conn.initial + 1 := by rwa [Aligned, h] at hal
  unfold Network.caseSynRcvd
  split
  case isTrue => exact .idle (moves_sendFlags ..)
  case isFalse noSyn =>
    split
    case isTrue answer =>
      have ready : ProperFin seg (stopTimer { sock with state := .established }) :=
        proper (by simpa using noSyn) answer.1 answer.2
      refine .of_moves (moves_next ..) ?_ ?_ ?_
      · exact fun _ => answer.2.trans number
      · rintro (passed | ⟨state, _⟩)
        · exact caseEstablished_closes ready ((mem_cons.mp passed).resolve_left nofun)
        · simp [h] at state
      · rintro (passed | ⟨state, _⟩)
        · exact absurd ((mem_cons.mp passed).resolve_left nofun) (not_passed nofun nofun)
        · simp [h] at state
    case isFalse => exact .idle rfl

theorem Guarded.caseFinWait1 (hal : Aligned sock conn) (h : sock.state = .finWait1)
    (ack : has seg.flags tcpAck = true → seg.ackNum = sock.mySequence)
    (fin : has seg.flags tcpFin = true → seg.finNumber = sock.targetSequence) :
    Guarded seg sock conn (caseFinWait1 env seg sock) := by
  obtain ⟨own, recorded, number⟩ : Marked .finWait1 sock.mySequence conn := by rwa [Aligned, h] at hal
  unfold Network.caseFinWait1
  generalize pre : (if has seg.flags tcpAck = true then become TCPState.finWait2 (acknowledge seg.ackNum sock)
    else (sock, [])) = acked
  have passed : moves acked.2 = if has seg.flags tcpAck = true then [.finWait2] else [] := by
    rw [← pre]; split <;> rfl
  have target : acked.1.targetSequence = sock.targetSequence := by
    rw [← pre]
    split
    · exact acknowledge_target ..
    · rfl
  have covers (passes : .finWait2 ∈ moves acked.2) : ∃ fin, conn.fin = some fin ∧ seg.ackNum = fin + 1 := by
    rw [passed] at passes
    split at passes
    case isTrue acks => exact ⟨own, recorded, (ack acks).trans number⟩
    case isFalse => exact nomatch passes
  have notOpened : .established ∉ moves acked.2 ∧ .lastAck ∉ moves acked.2 ∧ .closed ∉ moves acked.2 := by
    rw [passed]; split <;> simp
  split
  case isTrue closes =>
    refine .of_moves (moves_next ..) ?_ ?_ ?_
    · simp [notOpened.1]
    · intro _
      rw [Traced.next, freeByFin_target, target, fin closes]
    · simp only [mem_append, moves_freeByFin, mem_singleton, h]
      rintro ((passes | other) | ⟨other, _⟩)
      · exact covers passes
      · exact nomatch other
      · exact nomatch other
  case isFalse =>
    refine .of_moves rfl ?_ ?_ ?_
    · exact fun passes => absurd passes notOpened.1
    · rintro (passes | ⟨_, passes⟩)
      · exact absurd passes notOpened.2.1
      · exact absurd passes notOpened.2.2
    · rintro (passes | ⟨state, _⟩)
      · exact covers passes
      · simp [h] at state

theorem Guarded.dispatch (hal : Aligned sock conn) (proper : Proper seg sock) :
    Guarded seg sock conn (dispatch env seg sock) := by
  unfold Network.dispatch
  unfold Proper at proper
  split
  case h_1 =>
    unfold caseListen
    split
    · exact .request (by simp)
    · exact .idle rfl
  case h_2 h =>
    rw [h] at proper
    exact .caseSynSent hal h proper
  case h_3 h =>
    rw [h] at proper
    exact .caseSynRcvd hal h proper
  case h_4 h =>
    rw [h] at proper
    exact .caseEstablished h proper
  case h_5 h =>
    rw [h] at proper
    exact .caseFinWait1 hal h proper.1 proper.2
  case h_6 h =>
    rw [h] at proper
    unfold caseFinWait2
    split
    case isTrue closes =>
      refine .of_moves (moves_freeByFin ..) (by simp) ?_ (by simp [h])
      intro _
      rw [freeByFin_target, proper closes]
    case isFalse => exact .idle rfl
  case h_7 h =>
    rw [h] at proper
    have own : conn.fin = some sock.mySequence := by rwa [Aligned, h] at hal
    unfold caseLastAck
    split
    case isTrue acks =>
      refine .of_moves (moves_freeSocket ..) (by simp) (by simp [h]) ?_
      exact fun _ => ⟨_, own, proper acks⟩
    case isFalse => exact .idle rfl
  all_goals exact .idle rfl

end

section

/-- The segments of a run are proper for the socket they reach, which was opened
under the address of the card. -/
def World.Proper (world : World) : Op → Prop
  | .segment env seg => ∀ slot, getSocket world.table seg.destPort seg.srcIP seg.srcPort = some slot →
      (world.table slot).localIP = env.card.ip ∧ Network.Proper seg (world.table slot)
  | .socket | .listen .. | .connect .. | .sysConnect .. | .send .. | .recv .. | .close .. | .timer .. => True

section

variable {sock : TCPSocket} {conn : Connection} (hal : Aligned sock conn)
include hal

theorem retransmit_aligned {env : Surroundings} {nth : Nat} : (retransmit env nth sock).Leads record conn Aligned := by
  unfold retransmit sendTCPRaw
  cases getMacFromCache env nth { sock with mySequence := rewound sock } with
  | false => exact hal
  | true =>
    cases kept sock.lastFlags (lastPayload sock) with
    | false => exact Marked.of_same hal rfl rfl
    | true => exact Marked.of_same hal rfl rfl

theorem tcpRecv_aligned {env : Surroundings} {len : Nat} : (tcpRecv env len sock).2.Leads record conn Aligned := by
  unfold tcpRecv
  split
  · exact .silent hal
  · dsimp only
    have emptied (recv : RingBuffer UInt8) : Aligned { sock with recv := recv } conn := hal
    split
    · exact (emptied _).send env 0 (show has tcpAck tcpFin = false by decide)
    · exact .silent (emptied _)

end

theorem World.step_aligned {world : World} {op : Op} {slot : Slot} (hal : Aligned (world.table slot) (world.connection slot)) :
    Aligned ((world.step op).table slot) ((world.step op).connection slot) := by
  change Slotwise (perform world.table op) world.connection slot Aligned
  cases op with
  | socket => exact onNewSocket_leads hal fun _ => trivial
  | listen env localPort => exact onNewSocket_leads hal fun _ => trivial
  | connect env targetIP targetPort domain => exact onNewSocket_leads hal fun _ => connectSyn_aligned
  | sysConnect env target remoteIP remotePort =>
    refine onSocket_leads hal fun _ => ?_
    unfold sysConnect
    split
    · exact .silent hal
    · exact connectSyn_aligned
  | segment env seg => exact handleTCP_leads hal (fun _ => hal.dispatch) fun _ _ => acceptSyn_aligned
  | send env target data =>
    refine onSocket_leads hal fun _ => ?_
    by_cases ready : (world.table slot).state = .established
    · exact .of_established ((sendTCPData_state ..).trans ready)
    · rw [sendTCPData, if_pos ready]
      exact .silent hal
  | recv env target len =>
    exact onSocket_leads hal fun _ => tcpRecv_aligned hal
  | close target => exact onSocket_leads hal fun _ => trivial
  | timer env =>
    unfold perform Slotwise tcpCheckRetransmission
    dsimp only
    split
    · exact retransmit_aligned hal
    · exact .silent hal

theorem handleTCP_slot {env : Surroundings} {seg : Segment} {table : SocketTable} (slot : Slot) :
    (handleTCP env seg table).1 slot = (table slot, []) ∨
    (getSocket table seg.destPort seg.srcIP seg.srcPort = some slot ∧
      (handleTCP env seg table).1 slot = dispatch env seg (table slot)) ∨
    ((table slot).allocated = false ∧ (getListener table seg.destPort).isSome ∧ has seg.flags tcpSyn = true ∧
      (handleTCP env seg table).1 slot = acceptConnection env seg (initSocket slot (table slot))) := by
  unfold handleTCP
  split
  case h_1 target hf =>
    by_cases h : slot = target
    · subst h
      exact .inr (.inl ⟨hf, Function.update_self ..⟩)
    · exact .inl (Function.update_of_ne h ..)
  case h_2 =>
    split
    case isTrue req =>
      obtain ⟨target, free⟩ := Option.isSome_iff_exists.mp req.2.2
      rw [onNewSocket, free]
      by_cases h : slot = target
      · subst h
        exact .inr (.inr ⟨freeSlot_free free, req.1, req.2.1, Function.update_self ..⟩)
      · exact .inl (Function.update_of_ne h ..)
    case isFalse => exact .inl rfl

/-- In a run of proper segments every state change has the acknowledgement or the
FIN it needs, and a segment concerns the socket of its addresses alone. -/
theorem state_changes_guarded {start world : World}
    (aligned : ∀ slot, Aligned (start.table slot) (start.connection slot))
    (reached : Reaches World.next World.Proper start world) {env : Surroundings} {seg : Segment}
    (proper : world.Proper (.segment env seg)) (slot : Slot) :
    Guarded seg (world.table slot) (world.connection slot) ((handleTCP env seg world.table).1 slot) ∧
    (¬ Addressed env seg (world.table slot) →
      UntouchedOrNew env seg world.table slot ((handleTCP env seg world.table).1 slot)) := by
  have aligned : ∀ slot, Aligned (world.table slot) (world.connection slot) :=
    reached.invariant (fun world => ∀ slot, Aligned (world.table slot) (world.connection slot)) aligned
      fun _ _ _ aligned _ ht slot => by
        cases some.inj ht
        exact World.step_aligned (aligned slot)
  rcases @handleTCP_slot env seg world.table slot with eq | ⟨hf, eq⟩ | ⟨free, listener, syn, eq⟩
  · rw [eq]
    exact ⟨.idle rfl, fun _ => .inl rfl⟩
  · rw [eq]
    obtain ⟨localIP, ready⟩ := proper slot hf
    refine ⟨.dispatch (aligned slot) ready, fun foreign => absurd ?_ foreign⟩
    have holds := findSlot_holds hf
    simp only [Bool.and_eq_true, beq_iff_eq] at holds
    exact ⟨holds.1.1.1, localIP, holds.1.1.2, holds.1.2, holds.2⟩
  · rw [eq]
    exact ⟨.request (by simp [acceptConnection]), fun _ => .inr ⟨free, listener, syn, rfl⟩⟩

/-- Somebody else's answer to the SYN of a client: it acknowledges nothing. -/
theorem state_changes_guarded_not_syn_sent : ∃ world, Reaches World.next (fun _ _ => True) bootWorld world ∧
    ¬ Guarded { synAck with ackNum := 77 } (world.table 0) (world.connection 0)
      ((handleTCP quiet { synAck with ackNum := 77 } world.table).1 0) := by
  refine ⟨connecting, Reaches.start.next (.connect quiet 2 80 []) trivial rfl, fun guarded => ?_⟩
  have entered : .moved .established ∈ ((handleTCP quiet { synAck with ackNum := 77 } connecting.table).1 0).2 := by
    decide
  exact absurd (guarded.opens entered) (by decide)

theorem bootWorld_aligned (slot : Slot) : Aligned (bootWorld.table slot) (bootWorld.connection slot) := trivial

theorem state_changes_guarded_accept :
    Guarded (fromClient tcpAck 1) (answered.table 1) (answered.connection 1)
      ((handleTCP quiet (fromClient tcpAck 1) answered.table).1 1) := by
  have child : getSocket answered.table 80 2 5000 = some 1 := by decide
  have nobody : getSocket listening.table 80 2 5000 = none := by decide
  have syn : listening.Proper (.segment quiet (fromClient tcpSyn 0)) :=
    fun _ hf => absurd (nobody.symm.trans hf) (by simp)
  have ack : answered.Proper (.segment quiet (fromClient tcpAck 1)) := by
    intro slot hf
    cases some.inj (child.symm.trans hf)
    exact ⟨by decide, fun _ _ _ closes => absurd closes (by decide)⟩
  have hr : Reaches World.next World.Proper bootWorld answered :=
    (Reaches.start.next (.listen quiet 80) trivial rfl).next (.segment quiet (fromClient tcpSyn 0)) syn rfl
  exact (state_changes_guarded bootWorld_aligned hr ack 1).1

end

end RosKernel.Network
