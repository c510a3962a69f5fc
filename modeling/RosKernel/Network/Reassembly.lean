import RosKernel.Network.Tcp
import RosKernel.Library.Runs

/-! Deliveries of the segments of one stream, in any order and any number of times.

The stream is cut into pieces; piece `j` starts at a sequence number of its own.
What the socket holds depends on the set of delivered pieces only: the pieces
before the first missing one are in the ring or were returned, the delivered
pieces behind it wait in the list.
-/

set_option autoImplicit false

namespace RosKernel.Network

open Library List Option

section

abbrev Ordered (nodes : List TCPSegmentNode) : Prop := nodes.Pairwise fun a b => a.sequence < b.sequence

section

variable {cur : TCPSegmentNode} {rest : List TCPSegmentNode} (node : TCPSegmentNode)
  (own : ∀ old ∈ cur :: rest, old.sequence = node.sequence → old = node)
include node own

theorem insertAfter_mem (item : TCPSegmentNode) : item ∈ insertAfter node cur rest ↔ item = node ∨ item ∈ cur :: rest := by
  induction rest generalizing cur with
  | nil =>
    have eq := own cur (.head _)
    unfold insertAfter
    split
    · rw [eq ‹_›]; simp
    · simp [or_comm]
  | cons next rest ih =>
    unfold insertAfter
    split
    · grind
    · split
      case isTrue hf =>
        -- the node is already in the list
        have hin : node ∈ cur :: next :: rest := by
          rcases hf with hf | hf
          · exact own cur (by simp) hf ▸ .head _
          · exact own next (by simp) hf ▸ .tail _ (.head _)
        exact ⟨.inr, fun either => either.elim (fun eq => eq ▸ hin) id⟩
      case isFalse =>
        simp only [mem_cons]
        exact or_left_comm

theorem insertAfter_ordered (ord : Ordered (cur :: rest)) (above : ¬ node.sequence < cur.sequence) :
    Ordered (insertAfter node cur rest) := by
  induction rest generalizing cur with
  | nil =>
    unfold insertAfter
    split
    · exact ord
    · exact pairwise_pair.mpr (by grind)
  | cons next rest ih =>
    obtain ⟨first, tail⟩ := pairwise_cons.mp ord
    have ownTail : ∀ old ∈ next :: rest, old.sequence = node.sequence → old = node :=
      fun old hin => own old (.tail _ hin)
    unfold insertAfter
    split
    case isTrue below =>
      refine pairwise_cons.mpr ⟨?_, ih ownTail tail (by grind)⟩
      intro item hin
      cases (insertAfter_mem node ownTail item).mp hin with
      | inl eq => grind
      | inr old => exact first item old
    case isFalse notBelow =>
      split
      · exact ord
      · apply pairwise_cons.mpr
        grind

end

variable {node : TCPSegmentNode} {nodes : List TCPSegmentNode}
  (own : ∀ old ∈ nodes, old.sequence = node.sequence → old = node)
include own

theorem insertSegment_mem (item : TCPSegmentNode) : item ∈ insertSegment node nodes ↔ item = node ∨ item ∈ nodes := by
  cases nodes with
  | nil => simp [insertSegment]
  | cons head rest =>
    by_cases below : node.sequence < head.sequence
    · rw [insertSegment, if_pos below, mem_cons]
    · rw [insertSegment, if_neg below]
      exact insertAfter_mem node own item

theorem insertSegment_ordered (ord : Ordered nodes) : Ordered (insertSegment node nodes) := by
  cases nodes with
  | nil => exact pairwise_singleton ..
  | cons head rest =>
    by_cases below : node.sequence < head.sequence
    · have first := (pairwise_cons.mp ord).1
      rw [insertSegment, if_pos below]
      refine pairwise_cons.mpr ⟨?_, ord⟩
      grind
    · rw [insertSegment, if_neg below]
      exact insertAfter_ordered node own ord below

end

/-- A byte stream cut into nonempty pieces, whose sequence numbers do not wrap. -/
structure Stream where
  start : UInt32
  pieces : List Bytes
  nonempty : ∀ piece ∈ pieces, piece ≠ []
  fits : start.toNat + pieces.flatten.length < 2 ^ 32

namespace Stream

variable (stream : Stream)

def before (j : Nat) : Bytes := (stream.pieces.take j).flatten

def piece (j : Nat) : Bytes := stream.pieces[j]?.getD []

def sequence (j : Nat) : UInt32 := stream.start + UInt32.ofNat (stream.before j).length

def node (j : Nat) : TCPSegmentNode := ⟨stream.sequence j, stream.piece j⟩

/-- The length of the longest prefix of pieces that have all been delivered. -/
def inOrder (delivered : List Nat) : Nat :=
  Nat.findGreatest (fun p => ∀ j < p, j ∈ delivered) stream.pieces.length

variable {stream}

theorem before_succ {j : Nat} (inside : j < stream.pieces.length) :
    stream.before (j + 1) = stream.before j ++ stream.piece j := by
  rw [before, before, piece, take_add_one, flatten_append, getElem?_eq_getElem inside]
  simp

theorem before_length_le (j : Nat) : (stream.before j).length ≤ stream.pieces.flatten.length := by
  have whole : stream.pieces.flatten = stream.before j ++ (stream.pieces.drop j).flatten := by
    rw [before, ← flatten_append, take_append_drop]
  rw [whole, length_append]
  exact Nat.le_add_right ..

theorem toNat_sequence (j : Nat) : (stream.sequence j).toNat = stream.start.toNat + (stream.before j).length := by
  have := stream.fits
  have := stream.before_length_le j
  rw [sequence, UInt32.toNat_add, UInt32.toNat_ofNat']
  omega

theorem sequence_succ {j : Nat} (hin : j < stream.pieces.length) :
    stream.sequence (j + 1) = stream.sequence j + UInt32.ofNat (stream.piece j).length := by
  simp only [sequence, before_succ hin, length_append, UInt32.ofNat_add, UInt32.add_assoc]

theorem piece_length_pos {j : Nat} (hin : j < stream.pieces.length) : 0 < (stream.piece j).length := by
  have filled := stream.nonempty _ (getElem_mem hin)
  rw [piece, getElem?_eq_getElem hin]
  exact length_pos_of_ne_nil filled

theorem before_length_lt {i j : Nat} (below : i < j) (hin : j ≤ stream.pieces.length) :
    (stream.before i).length < (stream.before j).length := by
  induction j with
  | zero => exact nomatch below
  | succ j ih =>
    have more := stream.piece_length_pos hin
    rw [before_succ hin, length_append]
    rcases Nat.lt_succ_iff_lt_or_eq.mp below with lower | rfl
    · have := ih lower (by omega)
      omega
    · omega

theorem sequence_lt {i j : Nat} (below : i < j) (hin : j ≤ stream.pieces.length) :
    stream.sequence i < stream.sequence j := by
  rw [UInt32.lt_iff_toNat_lt, toNat_sequence, toNat_sequence]
  exact Nat.add_lt_add_left (before_length_lt below hin) _

section

variable {i j : Nat} (left : i ≤ stream.pieces.length) (right : j ≤ stream.pieces.length)
include left right

theorem sequence_lt_iff : stream.sequence i < stream.sequence j ↔ i < j := by
  constructor
  · intro lower
    by_contra notBelow
    rcases Nat.lt_or_eq_of_le (Nat.not_lt.mp notBelow) with above | rfl
    · exact UInt32.lt_asymm lower (sequence_lt above left)
    · exact UInt32.lt_irrefl _ lower
  · intro below
    exact sequence_lt below right

theorem sequence_inj (eq : stream.sequence i = stream.sequence j) : i = j := by
  rcases Nat.lt_trichotomy i j with below | rfl | above
  · exact absurd (eq ▸ sequence_lt below right) (UInt32.lt_irrefl _)
  · rfl
  · exact absurd (eq ▸ sequence_lt above left) (UInt32.lt_irrefl _)

end

theorem inOrder_le (delivered : List Nat) : stream.inOrder delivered ≤ stream.pieces.length :=
  Nat.findGreatest_le _

theorem inOrder_eq {delivered : List Nat} {p : Nat} (hin : p ≤ stream.pieces.length)
    (all : ∀ j < p, j ∈ delivered) (miss : p < stream.pieces.length → p ∉ delivered) :
    stream.inOrder delivered = p := by
  refine Nat.findGreatest_eq_iff.mpr ⟨hin, fun _ => all, ?_⟩
  intro longer above bound gapless
  exact miss (by omega) (gapless p above)

theorem mem_of_lt_inOrder {delivered : List Nat} {j : Nat} (below : j < stream.inOrder delivered) : j ∈ delivered := by
  have spec : ∀ i < stream.inOrder delivered, i ∈ delivered :=
    @Nat.findGreatest_spec 0 (fun p => ∀ i < p, i ∈ delivered) _ _ (Nat.zero_le _) (fun _ below => nomatch below)
  exact spec j below

theorem inOrder_missing {delivered : List Nat} (hin : stream.inOrder delivered < stream.pieces.length) :
    stream.inOrder delivered ∉ delivered := by
  intro present
  have longer := @Nat.findGreatest_is_greatest (stream.inOrder delivered + 1) (fun p => ∀ i < p, i ∈ delivered) _ _
    (Nat.lt_succ_self _) hin
  apply longer
  intro i below
  rcases Nat.lt_succ_iff_lt_or_eq.mp below with lower | rfl
  · exact mem_of_lt_inOrder lower
  · exact present

end Stream

section

/-- A list that holds the delivered pieces from piece `p` on, ordered by sequence number. -/
structure Waits (stream : Stream) (delivered : List Nat) (p : Nat) (nodes : List TCPSegmentNode) : Prop where
  ordered : Ordered nodes
  exactly : ∀ node, node ∈ nodes ↔ ∃ j, p ≤ j ∧ j < stream.pieces.length ∧ j ∈ delivered ∧ node = stream.node j

variable {stream : Stream} {delivered : List Nat} {p : Nat} {nodes : List TCPSegmentNode}

theorem Waits.tail {head : TCPSegmentNode} (waits : Waits stream delivered p (head :: nodes))
    (hin : p < stream.pieces.length) (first : head = stream.node p) : Waits stream delivered (p + 1) nodes := by
  obtain ⟨above, ord⟩ := pairwise_cons.mp waits.ordered
  refine ⟨ord, fun node => ⟨?_, ?_⟩⟩
  · intro present
    obtain ⟨j, atLeast, bound, came, eq⟩ := (waits.exactly node).mp (.tail _ present)
    refine ⟨j, Nat.lt_of_le_of_ne atLeast ?_, bound, came, eq⟩
    rintro rfl
    have lower := above node present
    rw [first, eq] at lower
    exact UInt32.lt_irrefl _ lower
  · rintro ⟨j, later, bound, came, rfl⟩
    have present := (waits.exactly (stream.node j)).mpr ⟨j, by omega, bound, came, rfl⟩
    refine (mem_cons.mp present).resolve_left ?_
    intro eq
    have index := Stream.sequence_inj (by omega) (by omega) (congrArg TCPSegmentNode.sequence (eq.trans first))
    omega

theorem processNodes_spec {sock : TCPSocket} (waits : Waits stream delivered p nodes)
    (hin : p ≤ stream.pieces.length) (target : sock.targetSequence = stream.sequence p)
    (prior : ∀ j < p, j ∈ delivered) :
    ∃ drained rest, stream.before (stream.inOrder delivered) = stream.before p ++ drained ∧
      Waits stream delivered (stream.inOrder delivered) rest ∧
      processNodes nodes sock = { sock with
        recv := sock.recv.putAll drained
        targetSequence := stream.sequence (stream.inOrder delivered)
        oooList := rest } := by
  induction nodes generalizing p sock with
  | nil =>
    have stop : stream.inOrder delivered = p := by
      refine Stream.inOrder_eq hin prior fun bound came => ?_
      exact nomatch (waits.exactly (stream.node p)).mpr ⟨p, Nat.le_refl p, bound, came, rfl⟩
    refine ⟨[], [], by rw [stop, append_nil], stop.symm ▸ waits, ?_⟩
    rw [stop, ← target]
    rfl
  | cons head rest ih =>
    obtain ⟨j, atLeast, bound, came, eq⟩ := (waits.exactly head).mp (.head _)
    have sequence : head.sequence = stream.sequence j := congrArg TCPSegmentNode.sequence eq
    unfold processNodes
    split
    case isTrue next =>
      have index : j = p := Stream.sequence_inj (by omega) hin (sequence ▸ target ▸ next)
      subst index
      have payload : head.payload = stream.piece j := congrArg TCPSegmentNode.payload eq
      obtain ⟨drained, left, bytes, waits', res⟩ := @ih (j + 1) (receive head.payload sock)
        (waits.tail bound eq) bound
        (by rw [receive, target, payload, ← Stream.sequence_succ bound])
        (fun i below => (Nat.lt_succ_iff_lt_or_eq.mp below).elim (prior i) fun eq => eq ▸ came)
      refine ⟨stream.piece j ++ drained, left, ?_, waits', ?_⟩
      · rw [bytes, Stream.before_succ bound, append_assoc]
      · rw [res]
        simp only [receive, RingBuffer.putAll, foldl_append, payload]
    case isFalse differ =>
      have later : ¬ head.sequence < sock.targetSequence := by
        rw [sequence, target, Stream.sequence_lt_iff (by omega) hin]
        omega
      rw [if_neg later]
      have stop : stream.inOrder delivered = p := by
        refine Stream.inOrder_eq hin prior fun bound' came' => ?_
        -- the first node would be piece `p` itself
        have present := (waits.exactly (stream.node p)).mpr ⟨p, Nat.le_refl p, bound', came', rfl⟩
        rcases mem_cons.mp present with first | behind
        · exact differ (first ▸ target.symm)
        · exact later (target ▸ (pairwise_cons.mp waits.ordered).1 _ behind)
      refine ⟨[], head :: rest, by rw [stop, append_nil], stop.symm ▸ waits, ?_⟩
      rw [stop, ← target]
      rfl

end

/-- The tables a run goes through, what `TCPRecv` returned and which pieces came. -/
structure Receipt where
  table : SocketTable
  returned : Bytes
  delivered : List Nat

inductive Delivery where
  | segment (env : Surroundings) (seg : Segment) (j : Nat)
  | recv (env : Surroundings) (len : Nat)

def Receipt.step (slot : Slot) (state : Receipt) : Delivery → Option Receipt
  | .segment env seg j =>
    some { state with table := (handleTCP env seg state.table).1.table, delivered := j :: state.delivered }
  | .recv env len => (tcpRecv env len (state.table slot)).1.map fun bytes => { state with
      table := (onSocket state.table slot fun sock => (tcpRecv env len sock).2).table
      returned := state.returned ++ bytes }

/-- A segment of the connection that carries piece `j` of the stream and nothing else. -/
structure Carries (stream : Stream) (sock : TCPSocket) (seg : Segment) (j : Nat) : Prop where
  destPort : seg.destPort = sock.localPort
  srcIP : seg.srcIP = sock.remoteIP
  srcPort : seg.srcPort = sock.remotePort
  inside : j < stream.pieces.length
  sequence : seg.sequenceNum = stream.sequence j
  payload : seg.payload = stream.piece j
  noFin : has seg.flags tcpFin = false
  noSyn : has seg.flags tcpSyn = false
  noRequest : seg.request = false

/-- Deliveries of pieces, such that the ring can take what becomes deliverable. -/
def Receipt.Allowed (stream : Stream) (slot : Slot) (pending : Bytes) (state : Receipt) : Delivery → Prop
  | .segment env seg j => Carries stream (state.table slot) seg j ∧ env.heap = true ∧
      (pending ++ stream.before (stream.inOrder (j :: state.delivered))).length <
        state.returned.length + (state.table slot).recv.size
  | .recv _ _ => True

section

/-- What `GetSocket` compares. -/
structure TCPSocket.SameAddress (after sock : TCPSocket) : Prop where
  allocated : after.allocated = sock.allocated
  localPort : after.localPort = sock.localPort
  remoteIP : after.remoteIP = sock.remoteIP
  remotePort : after.remotePort = sock.remotePort

theorem getSocket_update {table : SocketTable} {slot : Slot} {after : TCPSocket} (eq : after.SameAddress (table slot))
    (localPort : UInt16) (remoteIP : UInt32) (remotePort : UInt16) :
    getSocket (Function.update table slot after) localPort remoteIP remotePort =
      getSocket table localPort remoteIP remotePort := by
  unfold getSocket findSlot
  congr 1
  funext other
  by_cases h : other = slot
  · subst h
    dsimp only
    rw [Function.update_self, eq.allocated, eq.localPort, eq.remoteIP, eq.remotePort]
  · rw [Function.update_of_ne h]

theorem sendFlags_ack (env : Surroundings) (nth : Nat) (sock : TCPSocket) : (sendFlags env nth tcpAck sock).1 = sock := by
  unfold sendFlags sendTCPRaw
  split
  · rfl
  · rfl

theorem acknowledge_eq (ack : UInt32) (sock : TCPSocket) : ∃ wait packet,
    acknowledge ack sock = { sock with waitingAck := wait, lastPacket := packet } := by
  unfold acknowledge
  split
  · exact ⟨_, _, rfl⟩
  · exact ⟨_, _, rfl⟩

theorem takeData_socket (env : Surroundings) (seg : Segment) (sock : TCPSocket) : (takeData env seg sock).1 =
    if seg.sequenceNum = sock.targetSequence then processOOOList (receive seg.payload sock)
    else if sock.targetSequence < seg.sequenceNum then addOOOSegment env seg.sequenceNum seg.payload sock
    else sock := by
  unfold takeData
  split
  · exact sendFlags_ack ..
  · split
    · exact sendFlags_ack ..
    · exact sendFlags_ack ..

theorem caseEstablished_plain (env : Surroundings) {seg : Segment} (sock : TCPSocket) (filled : 0 < seg.payload.length)
    (noFin : has seg.flags tcpFin = false) (noRequest : seg.request = false) :
    ∃ wait packet, (caseEstablished env seg sock).1 =
      { (takeData env seg sock).1 with waitingAck := wait, lastPacket := packet } := by
  have finished (sock : TCPSocket) : (finish env seg sock).1 = acknowledge seg.ackNum sock := by
    simp [finish, noFin]
  by_cases early : seg.early sock.targetSequence
  · rw [caseEstablished, if_pos early]
    exact ⟨_, _, rfl⟩
  · rw [caseEstablished, if_neg early, if_pos filled, if_neg (by simp [noRequest])]
    obtain ⟨wait, packet, eq⟩ := acknowledge_eq seg.ackNum (takeData env seg sock).1
    exact ⟨wait, packet, (finished _).trans eq⟩

theorem onSocket_table (table : SocketTable) (slot : Slot) (call : TCPSocket → Exchange) :
    (onSocket table slot call).table = Function.update table slot (call (table slot)).1 := by
  funext other
  by_cases eq : other = slot
  · subst eq; simp [Outcome.table, onSocket]
  · simp [Outcome.table, onSocket, eq, untouched]

theorem handleTCP_table {env : Surroundings} {seg : Segment} {table : SocketTable} {slot : Slot}
    (hf : getSocket table seg.destPort seg.srcIP seg.srcPort = some slot) :
    (handleTCP env seg table).1.table = Function.update table slot (dispatch env seg (table slot)).1 := by
  rw [handleTCP, hf]
  exact onSocket_table ..

theorem tcpRecv_socket {env : Surroundings} {len : Nat} {sock : TCPSocket} {bytes : Bytes}
    (ht : (tcpRecv env len sock).1 = some bytes) (valid : sock.recv.Valid) :
    ∃ recv, (tcpRecv env len sock).2.1 = { sock with recv := recv } ∧ bytes = sock.recv.unread.take len ∧
      recv.unread = sock.recv.unread.drop len ∧ recv.Valid := by
  obtain ⟨head, tail, after, _⟩ := RingBuffer.take_spec len valid
  by_cases alive : (!sock.allocated) = true
  · rw [tcpRecv, if_pos alive] at ht
    exact nomatch ht
  · rw [tcpRecv, if_neg alive] at ht ⊢
    dsimp only at ht ⊢
    split at ht
    case isTrue update =>
      rw [if_pos update]
      exact ⟨_, sendFlags_ack .., (some.inj ht).symm.trans head, tail, after⟩
    case isFalse update =>
      rw [if_neg update]
      exact ⟨_, rfl, (some.inj ht).symm.trans head, tail, after⟩

end

section

variable {stream : Stream} {slot : Slot} {pending : Bytes}

/-- The receiving side of a socket after deliveries of these pieces. -/
structure Assembled (stream : Stream) (pending returned : Bytes) (delivered : List Nat) (sock : TCPSocket) : Prop where
  established : sock.state = .established
  valid : sock.recv.Valid
  bytes : returned ++ sock.recv.unread = pending ++ stream.before (stream.inOrder delivered)
  target : sock.targetSequence = stream.sequence (stream.inOrder delivered)
  waits : Waits stream delivered (stream.inOrder delivered) sock.oooList

variable {returned : Bytes} {delivered : List Nat} {sock : TCPSocket}

theorem Waits.skip {p j : Nat} {nodes : List TCPSegmentNode} (waits : Waits stream delivered p nodes) (old : j < p) :
    Waits stream (j :: delivered) p nodes := by
  refine ⟨waits.ordered, fun node => (waits.exactly node).trans ?_⟩
  constructor
  · grind
  · grind

theorem Waits.insert {p j : Nat} {nodes : List TCPSegmentNode} (waits : Waits stream delivered p nodes) (later : p ≤ j)
    (hin : j < stream.pieces.length) : Waits stream (j :: delivered) p (insertSegment (stream.node j) nodes) := by
  have own : ∀ old ∈ nodes, old.sequence = (stream.node j).sequence → old = stream.node j := by
    intro old present eq
    obtain ⟨i, _, bound, _, rfl⟩ := (waits.exactly old).mp present
    rw [Stream.sequence_inj (by omega) (by omega) eq]
  refine ⟨insertSegment_ordered own waits.ordered, fun node => (insertSegment_mem own node).trans ?_⟩
  constructor
  · rintro (rfl | old)
    · exact ⟨j, later, hin, .head _, rfl⟩
    · obtain ⟨i, after, bound, came, eq⟩ := (waits.exactly node).mp old
      exact ⟨i, after, bound, .tail _ came, eq⟩
  · rintro ⟨i, after, bound, came, eq⟩
    rcases mem_cons.mp came with rfl | came
    · exact .inl eq
    · exact .inr ((waits.exactly node).mpr ⟨i, after, bound, came, eq⟩)

/-- Before the first missing piece nothing waits, so the list also starts one later. -/
theorem Waits.drop {nodes : List TCPSegmentNode}
    (waits : Waits stream delivered (stream.inOrder delivered) nodes)
    (hin : stream.inOrder delivered < stream.pieces.length) :
    Waits stream (stream.inOrder delivered :: delivered) (stream.inOrder delivered + 1) nodes := by
  have miss := Stream.inOrder_missing hin
  refine ⟨waits.ordered, fun node => (waits.exactly node).trans ?_⟩
  constructor
  · grind
  · grind

/-- One piece more: in sequence it is followed by all that waited for it, ahead of
the sequence it waits, behind it nothing changes. -/
theorem Assembled.take (assembled : Assembled stream pending returned delivered sock) {env : Surroundings} {seg : Segment}
    {j : Nat} (hin : j < stream.pieces.length) (sequence : seg.sequenceNum = stream.sequence j)
    (payload : seg.payload = stream.piece j) (heap : env.heap = true)
    (room : (pending ++ stream.before (stream.inOrder (j :: delivered))).length < returned.length + sock.recv.size) :
    ∃ recv target nodes, (takeData env seg sock).1 =
        { sock with recv := recv, targetSequence := target, oooList := nodes } ∧ recv.size = sock.recv.size ∧
      Assembled stream pending returned (j :: delivered)
        { sock with recv := recv, targetSequence := target, oooList := nodes } := by
  have bound : stream.inOrder delivered ≤ stream.pieces.length := Stream.inOrder_le delivered
  rw [takeData_socket, sequence, assembled.target]
  have same : j ≠ stream.inOrder delivered → stream.inOrder (j :: delivered) = stream.inOrder delivered := by
    intro away
    refine Stream.inOrder_eq bound (fun i below => .tail _ (Stream.mem_of_lt_inOrder below)) ?_
    intro short came
    exact Stream.inOrder_missing short ((mem_cons.mp came).resolve_left away.symm)
  rcases Nat.lt_trichotomy j (stream.inOrder delivered) with old | rfl | ahead
  · have eq := same (Nat.ne_of_lt old)
    have lower := Stream.sequence_lt old bound
    rw [if_neg (by grind), if_neg (by grind)]
    exact ⟨sock.recv, sock.targetSequence, sock.oooList, rfl, rfl, assembled.established, assembled.valid,
      eq ▸ assembled.bytes, eq ▸ assembled.target, eq ▸ assembled.waits.skip old⟩
  · have prior : ∀ i < stream.inOrder delivered + 1, i ∈ stream.inOrder delivered :: delivered := by
      intro i below
      rcases Nat.lt_succ_iff_lt_or_eq.mp below with lower | rfl
      · exact .tail _ (Stream.mem_of_lt_inOrder lower)
      · exact .head _
    obtain ⟨drained, rest, bytes, waits, res⟩ := @processNodes_spec _ _ _ _ (receive seg.payload sock)
      (assembled.waits.drop hin) hin
      (by rw [receive, assembled.target, payload, ← Stream.sequence_succ hin]) prior
    have content : stream.before (stream.inOrder (stream.inOrder delivered :: delivered)) =
        stream.before (stream.inOrder delivered) ++ (stream.piece (stream.inOrder delivered) ++ drained) := by
      rw [bytes, Stream.before_succ hin, append_assoc]
    have account := congrArg List.length assembled.bytes
    rw [content] at room
    simp only [length_append, RingBuffer.length_unread] at room account
    obtain ⟨valid, unread, size⟩ := RingBuffer.putAll_spec assembled.valid
      (stream.piece (stream.inOrder delivered) ++ drained) (by rw [length_append]; omega)
    have ring : (sock.recv.putAll (stream.piece (stream.inOrder delivered))).putAll drained =
        sock.recv.putAll (stream.piece (stream.inOrder delivered) ++ drained) := by
      simp only [RingBuffer.putAll, foldl_append]
    rw [if_pos rfl]
    refine ⟨_, stream.sequence (stream.inOrder (stream.inOrder delivered :: delivered)), rest, ?_, size, assembled.established, valid, ?_, rfl, waits⟩
    · refine Eq.trans res ?_
      simp only [receive, payload, ring]
    · rw [unread, ← append_assoc, assembled.bytes, append_assoc, ← content]
  · have eq := same (Nat.ne_of_gt ahead)
    have higher := Stream.sequence_lt ahead (Nat.le_of_lt hin)
    rw [if_neg (by grind), if_pos higher, addOOOSegment, if_pos heap, payload]
    exact ⟨sock.recv, sock.targetSequence, _, rfl, rfl, assembled.established, assembled.valid,
      eq ▸ assembled.bytes, eq ▸ assembled.target, eq ▸ assembled.waits.insert (by omega) hin⟩

section

variable {table : SocketTable} (assembled : Assembled stream pending returned delivered (table slot))
include assembled

theorem Assembled.deliver
    (hf : getSocket table (table slot).localPort (table slot).remoteIP (table slot).remotePort = some slot)
    {env : Surroundings} {seg : Segment} {j : Nat} (carries : Carries stream (table slot) seg j) (heap : env.heap = true)
    (room : (pending ++ stream.before (stream.inOrder (j :: delivered))).length < returned.length + (table slot).recv.size) :
    ∃ after, (handleTCP env seg table).1.table = Function.update table slot after ∧
      Assembled stream pending returned (j :: delivered) after ∧ after.SameAddress (table slot) := by
  obtain ⟨recv, target, nodes, ht, _, step⟩ :=
    assembled.take carries.inside carries.sequence carries.payload heap room
  have filled : 0 < seg.payload.length := carries.payload ▸ Stream.piece_length_pos carries.inside
  obtain ⟨wait, packet, res⟩ := caseEstablished_plain env (table slot) filled carries.noFin carries.noRequest
  refine ⟨_, handleTCP_table (by rw [carries.destPort, carries.srcIP, carries.srcPort]; exact hf), ?_⟩
  rw [dispatch, assembled.established, res, ht]
  exact ⟨⟨step.established, step.valid, step.bytes, step.target, step.waits⟩, ⟨rfl, rfl, rfl, rfl⟩⟩

theorem Assembled.read {env : Surroundings} {len : Nat} {bytes : Bytes} (ht : (tcpRecv env len (table slot)).1 = some bytes) :
    ∃ after, (onSocket table slot fun sock => (tcpRecv env len sock).2).table = Function.update table slot after ∧
      Assembled stream pending (returned ++ bytes) delivered after ∧ after.SameAddress (table slot) := by
  obtain ⟨recv, res, head, tail, valid⟩ := tcpRecv_socket ht assembled.valid
  refine ⟨_, onSocket_table .., ?_⟩
  rw [res]
  refine ⟨⟨assembled.established, valid, ?_, assembled.target, assembled.waits⟩, ⟨rfl, rfl, rfl, rfl⟩⟩
  rw [append_assoc, head, tail, take_append_drop]
  exact assembled.bytes

end

/-- What a run keeps: the connection is found in its slot and its socket is assembled. -/
structure Receipt.Sound (stream : Stream) (slot : Slot) (pending : Bytes) (state : Receipt) : Prop where
  found : getSocket state.table (state.table slot).localPort (state.table slot).remoteIP
    (state.table slot).remotePort = some slot
  assembled : Assembled stream pending state.returned state.delivered (state.table slot)

theorem Receipt.Sound.step {state after : Receipt} {op : Delivery} (sound : state.Sound stream slot pending)
    (allowed : state.Allowed stream slot pending op) (ht : state.step slot op = some after) :
    after.Sound stream slot pending := by
  -- the new table differs from the old one in the slot only, and not in its addresses
  have update {table : SocketTable} {sock : TCPSocket} {returned : Bytes} {delivered : List Nat}
      (changed : table = Function.update state.table slot sock) (eq : sock.SameAddress (state.table slot))
      (assembled : Assembled stream pending returned delivered sock) :
      Receipt.Sound stream slot pending ⟨table, returned, delivered⟩ := by
    subst changed
    refine ⟨?_, by simpa only [Function.update_self] using assembled⟩
    dsimp only
    rw [getSocket_update eq, Function.update_self, eq.localPort, eq.remoteIP, eq.remotePort]
    exact sound.found
  cases op with
  | segment env seg j =>
    obtain ⟨carries, heap, room⟩ := allowed
    obtain ⟨sock, changed, assembled, eq⟩ := sound.assembled.deliver sound.found carries heap room
    cases some.inj ht
    exact update changed eq assembled
  | recv env len =>
    obtain ⟨bytes, read, rfl⟩ := Option.map_eq_some_iff.mp ht
    obtain ⟨sock, changed, assembled, eq⟩ := sound.assembled.read read
    exact update changed eq assembled

/-- Whatever the order and the repetitions, the bytes that were returned and are
unread are the delivered prefix of the stream, and the list holds the rest. -/
theorem reassembly_exact {table : SocketTable} {state : Receipt}
    (found : getSocket table (table slot).localPort (table slot).remoteIP (table slot).remotePort = some slot)
    (established : (table slot).state = .established) (start : (table slot).targetSequence = stream.start)
    (empty : (table slot).oooList = []) (valid : (table slot).recv.Valid)
    (reached : Reaches (Receipt.step slot) (Receipt.Allowed stream slot (table slot).recv.unread) ⟨table, [], []⟩ state) :
    let prefixed := stream.inOrder state.delivered
    let sock := state.table slot
    state.returned ++ sock.recv.unread = (table slot).recv.unread ++ stream.before prefixed ∧
    sock.targetSequence.toNat = stream.start.toNat + (stream.before prefixed).length ∧
    Ordered sock.oooList ∧
    ∀ node, node ∈ sock.oooList ↔
      ∃ j, prefixed < j ∧ j < stream.pieces.length ∧ j ∈ state.delivered ∧ node = stream.node j := by
  have none : stream.inOrder [] = 0 := by
    refine Stream.inOrder_eq (Nat.zero_le _) (fun _ below => nomatch below) fun _ => not_mem_nil
  have initial : Receipt.Sound stream slot (table slot).recv.unread ⟨table, [], []⟩ := by
    refine ⟨found, established, valid, ?_, ?_, ?_, ?_⟩
    · rw [none]; exact (append_nil _).symm
    · rw [none, start]; exact (UInt32.add_zero _).symm
    · rw [empty]; exact List.Pairwise.nil
    · intro node
      rw [empty]
      constructor
      · intro hin; exact nomatch hin
      · rintro ⟨_, _, _, came, _⟩; exact nomatch came
  have sound := reached.invariant (Receipt.Sound stream slot (table slot).recv.unread) initial
    fun _ _ _ sound allowed ht => sound.step allowed ht
  refine ⟨sound.assembled.bytes, ?_, sound.assembled.waits.ordered, fun node => ?_⟩
  · rw [sound.assembled.target]
    exact Stream.toNat_sequence _
  · refine (sound.assembled.waits.exactly node).trans (exists_congr fun j => ?_)
    refine and_congr_left fun ⟨bound, came, _⟩ => ?_
    constructor
    · intro atLeast
      refine Nat.lt_of_le_of_ne atLeast ?_
      rintro rfl
      exact Stream.inOrder_missing bound came
    · exact Nat.le_of_lt

end

section

/-- An established socket that expects sequence number 7. -/
def awaiting : TCPSocket :=
  { id := 0, allocated := true, state := .established, localIP := 1, remoteIP := 2, localPort := 80, remotePort := 5000
    mySequence := 0, targetSequence := 7, lastSendTime := 0, waitingAck := false, lastPacket := none
    lastPacketLen := 0, lastFlags := 0, recv := ⟨fun _ => 0, 8192, 0, 0⟩, domain := none, oooList := [] }

def quiet : Surroundings :=
  { card := ⟨1, 0, 0⟩, cached := fun _ _ => true, ticks := 0, random := 0, heap := true, freed := fun _ _ => 0
    stack := awaiting }

def twoPieces : Stream :=
  { start := 7, pieces := [[10, 11], [12]], nonempty := by decide, fits := by decide }

def pieceSegment (j : Nat) : Segment :=
  { srcPort := 5000, destPort := 80, sequenceNum := twoPieces.sequence j, ackNum := 0, dataOffset := 0x50
    flags := tcpAck, data := fun k => (twoPieces.piece j).getD (k - 20) 0
    len := UInt32.ofNat (20 + (twoPieces.piece j).length), srcIP := 2 }

theorem reassembly_exact_swapped : ∃ state : Receipt, state.delivered = [0, 1] ∧
    state.returned ++ (state.table 0).recv.unread = awaiting.recv.unread ++ [10, 11, 12] ∧
    (state.table 0).targetSequence.toNat = 10 := by
  have carries (table : SocketTable) (j : Nat) (hin : j < 2) (eq : (table 0).SameAddress awaiting) :
      Carries twoPieces (table 0) (pieceSegment j) j := by
    have content : (pieceSegment j).payload = twoPieces.piece j ∧ (pieceSegment j).request = false := by
      rcases Nat.le_one_iff_eq_zero_or_eq_one.mp (Nat.le_of_lt_succ hin) with rfl | rfl <;> decide
    exact ⟨eq.localPort.symm, eq.remoteIP.symm, eq.remotePort.symm, hin, rfl, content.1,
      show has tcpAck tcpFin = false by decide, show has tcpAck tcpSyn = false by decide, content.2⟩
  have boot : Reaches (Receipt.step 0) (Receipt.Allowed twoPieces 0 awaiting.recv.unread) ⟨fun _ => awaiting, [], []⟩
      ⟨fun _ => awaiting, [], []⟩ := .start
  have later := boot.next (Delivery.segment quiet (pieceSegment 1) 1)
    (And.intro (carries _ 1 (by decide) ⟨rfl, rfl, rfl, rfl⟩) ⟨rfl, by decide⟩) rfl
  have both := later.next (Delivery.segment quiet (pieceSegment 0) 0)
    (And.intro (carries _ 0 (by decide) ⟨rfl, rfl, rfl, rfl⟩) ⟨rfl, by decide⟩) rfl
  obtain ⟨bytes, target, _⟩ := @reassembly_exact twoPieces 0 (fun _ => awaiting) _
    (by decide) rfl rfl rfl ⟨by decide, by decide⟩ both
  exact ⟨_, rfl, bytes, target⟩

end

end RosKernel.Network
