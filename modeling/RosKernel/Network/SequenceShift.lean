import RosKernel.Network.Connections

/-! Segments of an established connection whose sequence numbers are all moved by a constant.

Equal numbers stay equal, so what a move can change is the outcome of the three
plain comparisons. Every place that compares is given the condition under which
its outcome is the same in both runs.
-/

set_option autoImplicit false

namespace RosKernel.Network

open Library List

section

def TCPSegmentNode.shift (k : UInt32) (node : TCPSegmentNode) : TCPSegmentNode := { node with sequence := node.sequence + k }

def TCPSocket.shift (k : UInt32) (sock : TCPSocket) : TCPSocket :=
  { sock with targetSequence := sock.targetSequence + k, oooList := sock.oooList.map (.shift k) }

def Segment.shift (k : UInt32) (seg : Segment) : Segment := { seg with sequenceNum := seg.sequenceNum + k }

/-- The numbers compare as they do after the move. -/
abbrev SameOrder (k first second : UInt32) : Prop := first + k < second + k ↔ first < second

/-- The comparisons of `ProcessOOOList` from this list and expected number on. -/
def DrainsAlike (k : UInt32) : List TCPSegmentNode → UInt32 → Prop
  | [], _ => True
  | head :: rest, target =>
    if head.sequence = target then DrainsAlike k rest (target + UInt32.ofNat head.payload.length)
    else SameOrder k head.sequence target ∧ (head.sequence < target → DrainsAlike k rest target)

/-- The comparisons of `AddOOOSegment` behind the first node. -/
def WalksAlike (k sequence : UInt32) : List TCPSegmentNode → Prop
  | [] => True
  | next :: rest => SameOrder k next.sequence sequence ∧ (next.sequence < sequence → WalksAlike k sequence rest)

/-- The walk of `AddOOOSegment` stops at a node of that number. -/
def KnownAfter (sequence : UInt32) : TCPSegmentNode → List TCPSegmentNode → Prop
  | current, [] => current.sequence = sequence
  | current, next :: rest =>
    if next.sequence < sequence then KnownAfter sequence next rest
    else current.sequence = sequence ∨ next.sequence = sequence

/-- `AddOOOSegment` finds a duplicate. -/
def Known (sequence : UInt32) : List TCPSegmentNode → Prop
  | [] => False
  | head :: rest => ¬ sequence < head.sequence ∧ KnownAfter sequence head rest

/-- All comparisons of `AddOOOSegment` come out the same, or it finds a duplicate both times. -/
def PlacesAlike (k sequence : UInt32) (nodes : List TCPSegmentNode) : Prop :=
  (match nodes with
    | [] => True
    | head :: rest => SameOrder k sequence head.sequence ∧ (¬ sequence < head.sequence → WalksAlike k sequence rest)) ∨
  Known sequence nodes ∧ Known (sequence + k) (nodes.map (.shift k))

/-- A segment is kept for later in one run and ignored as old in the other, and no difference can be seen. -/
structure Unnoticed (env : Surroundings) (k : UInt32) (seg : Segment) (sock : TCPSocket) : Prop where
  notKept : env.heap = true → if sock.targetSequence < seg.sequenceNum then Known seg.sequenceNum sock.oooList
    else Known (seg.sequenceNum + k) (sock.oooList.map (.shift k))
  noRequest : seg.request = false
  noFin : has seg.flags tcpFin = false
  noAck : ¬ (sock.waitingAck = true ∧ seg.ackNum = sock.mySequence)

/-- Both runs take the same decisions about the segment. -/
def DecidesAlike (env : Surroundings) (k : UInt32) (seg : Segment) (sock : TCPSocket) : Prop :=
  seg.payload.length = 0 ∨
  if seg.sequenceNum = sock.targetSequence then
    DrainsAlike k sock.oooList (sock.targetSequence + UInt32.ofNat seg.payload.length)
  else if SameOrder k sock.targetSequence seg.sequenceNum then
    sock.targetSequence < seg.sequenceNum → env.heap = true → PlacesAlike k seg.sequenceNum sock.oooList
  else Unnoticed env k seg sock

theorem shift_eq_iff {k first snd : UInt32} : first + k = snd + k ↔ first = snd := UInt32.add_left_inj k

theorem TCPSegmentNode.shift_inj {k : UInt32} {first snd : TCPSegmentNode} (eq : first.shift k = snd.shift k) :
    first = snd := by
  obtain ⟨number, payload⟩ := first
  have numbers := shift_eq_iff.mp (congrArg TCPSegmentNode.sequence eq)
  have payloads := congrArg TCPSegmentNode.payload eq
  exact congr (congrArg TCPSegmentNode.mk numbers) payloads

theorem map_shift_eq_iff {k : UInt32} {first snd : List TCPSegmentNode} :
    first.map (TCPSegmentNode.shift k) = snd.map (TCPSegmentNode.shift k) ↔ first = snd :=
  (map_injective_iff.mpr fun _ _ => TCPSegmentNode.shift_inj).eq_iff

end

section

variable {k : UInt32} {node : TCPSegmentNode}

theorem insertAfter_head (cur : TCPSegmentNode) (rest : List TCPSegmentNode) :
    ∃ behind, insertAfter node cur rest = cur :: behind := by
  cases rest with
  | nil => unfold insertAfter; split <;> exact ⟨_, rfl⟩
  | cons next rest =>
    unfold insertAfter
    split
    · exact ⟨_, rfl⟩
    · split <;> exact ⟨_, rfl⟩

theorem insertAfter_eq_iff {cur : TCPSegmentNode} {rest : List TCPSegmentNode} :
    insertAfter node cur rest = cur :: rest ↔ KnownAfter node.sequence cur rest := by
  induction rest generalizing cur with
  | nil =>
    unfold insertAfter KnownAfter
    split
    case isTrue eq => exact ⟨fun _ => eq, fun _ => rfl⟩
    case isFalse other =>
      refine ⟨fun eq => ?_, fun eq => absurd eq other⟩
      have lengths := congrArg List.length eq
      simp at lengths
  | cons next rest ih =>
    unfold insertAfter KnownAfter
    split
    · rw [cons_inj_right]
      exact ih
    · split
      case isTrue eq => exact ⟨fun _ => eq, fun _ => rfl⟩
      case isFalse other =>
        refine ⟨fun eq => ?_, fun eq => absurd eq other⟩
        have lengths := congrArg List.length eq
        simp at lengths

theorem insertSegment_eq_iff {nodes : List TCPSegmentNode} :
    insertSegment node nodes = nodes ↔ Known node.sequence nodes := by
  cases nodes with
  | nil => exact iff_of_false (cons_ne_nil node []) id
  | cons head rest =>
    simp only [insertSegment, Known]
    by_cases below : node.sequence < head.sequence
    · rw [if_pos below]
      refine ⟨fun eq => ?_, fun known => absurd below known.1⟩
      have lengths := congrArg List.length eq
      simp at lengths
    · rw [if_neg below, insertAfter_eq_iff]
      exact ⟨fun known => ⟨below, known⟩, fun known => known.2⟩

theorem insertAfter_ne {cur next : TCPSegmentNode} {rest behind : List TCPSegmentNode}
    (passed : next.sequence < node.sequence) :
    cur :: node :: rest ≠ cur :: insertAfter node next behind := by
  intro eq
  obtain ⟨tail, starts⟩ := @insertAfter_head node next behind
  rw [starts] at eq
  have first := (cons.inj (cons.inj eq).2).1
  exact UInt32.lt_irrefl _ (first ▸ passed)

/-- What the walk leaves when it stops before a node. -/
def stopBefore (node current next : TCPSegmentNode) (rest : List TCPSegmentNode) : List TCPSegmentNode :=
  if current.sequence = node.sequence ∨ next.sequence = node.sequence then current :: next :: rest
  else current :: node :: next :: rest

theorem insertAfter_cons (cur next : TCPSegmentNode) (rest : List TCPSegmentNode) :
    insertAfter node cur (next :: rest) =
      if next.sequence < node.sequence then cur :: insertAfter node next rest else stopBefore node cur next rest := by
  rw [insertAfter]
  rfl

theorem stopBefore_shift (cur next : TCPSegmentNode) (rest : List TCPSegmentNode) :
    stopBefore (node.shift k) (cur.shift k) (next.shift k) (rest.map (.shift k)) =
      (stopBefore node cur next rest).map (.shift k) := by
  have hf : ((cur.shift k).sequence = (node.shift k).sequence ∨ (next.shift k).sequence = (node.shift k).sequence) ↔
      (cur.sequence = node.sequence ∨ next.sequence = node.sequence) := or_congr shift_eq_iff shift_eq_iff
  unfold stopBefore
  by_cases known : cur.sequence = node.sequence ∨ next.sequence = node.sequence
  · rw [if_pos known, if_pos (hf.mpr known)]
    rfl
  · rw [if_neg known, if_neg (mt hf.mp known)]
    rfl

theorem stopBefore_eq_iff {cur next : TCPSegmentNode} {rest : List TCPSegmentNode}
    (passes : next.sequence < node.sequence) :
    stopBefore node cur next rest = cur :: insertAfter node next rest ↔
      KnownAfter node.sequence next rest ∧ (cur.sequence = node.sequence ∨ next.sequence = node.sequence) := by
  unfold stopBefore
  by_cases known : cur.sequence = node.sequence ∨ next.sequence = node.sequence
  · rw [if_pos known, cons_inj_right, eq_comm, insertAfter_eq_iff]
    exact ⟨fun later => ⟨later, known⟩, fun later => later.1⟩
  · rw [if_neg known]
    exact iff_of_false (insertAfter_ne passes) fun both => known both.2

theorem insertAfter_shift_iff {cur : TCPSegmentNode} {rest : List TCPSegmentNode} :
    insertAfter (node.shift k) (cur.shift k) (rest.map (.shift k)) = (insertAfter node cur rest).map (.shift k) ↔
      WalksAlike k node.sequence rest ∨
        KnownAfter node.sequence cur rest ∧ KnownAfter (node.sequence + k) (cur.shift k) (rest.map (.shift k)) := by
  induction rest generalizing cur with
  | nil =>
    refine iff_of_true ?_ (.inl trivial)
    simp only [map_nil, insertAfter]
    by_cases eq : cur.sequence = node.sequence
    · rw [if_pos eq]
      exact if_pos (congrArg (· + k) eq)
    · rw [if_neg eq]
      exact if_neg (mt shift_eq_iff.mp eq)
  | cons next rest ih =>
    have equal : (cur.sequence + k = node.sequence + k ∨ next.sequence + k = node.sequence + k) ↔
        (cur.sequence = node.sequence ∨ next.sequence = node.sequence) := or_congr shift_eq_iff shift_eq_iff
    rw [map_cons, insertAfter_cons, insertAfter_cons, WalksAlike, KnownAfter, KnownAfter]
    change (if next.sequence + k < node.sequence + k then _ else _) = _ ↔
      _ ∨ _ ∧ if next.sequence + k < node.sequence + k then _
        else cur.sequence + k = node.sequence + k ∨ next.sequence + k = node.sequence + k
    rw [equal]
    -- the four outcomes of the comparison in the two runs
    by_cases first : next.sequence < node.sequence <;> by_cases snd : next.sequence + k < node.sequence + k
    · grind
    · rw [if_pos first, if_neg snd, if_pos first, if_neg snd, stopBefore_shift, map_shift_eq_iff,
        stopBefore_eq_iff first]
      simp only [SameOrder, first, snd, false_iff, not_true_eq_false, false_and, false_or]
    · rw [if_neg first, if_pos snd, if_neg first, if_pos snd, ← stopBefore_shift, eq_comm]
      have passes : (next.shift k).sequence < (node.shift k).sequence := snd
      rw [stopBefore_eq_iff passes]
      simp only [SameOrder, first, snd, iff_false, not_true_eq_false, false_and, false_or]
      rw [and_comm]
      exact and_congr_left fun _ => equal
    · rw [if_neg first, if_neg snd, stopBefore_shift]
      simp [SameOrder, first, snd]

theorem insertSegment_shift_iff {nodes : List TCPSegmentNode} :
    insertSegment (node.shift k) (nodes.map (.shift k)) = (insertSegment node nodes).map (.shift k) ↔
      PlacesAlike k node.sequence nodes := by
  cases nodes with
  | nil => exact iff_of_true rfl (.inl trivial)
  | cons head rest =>
    rw [map_cons]
    simp only [insertSegment, PlacesAlike, Known]
    change (if node.sequence + k < head.sequence + k then _ else _) = _ ↔ _ ∨ _ ∧ ¬ node.sequence + k < head.sequence + k ∧ _
    by_cases first : node.sequence < head.sequence <;> by_cases snd : node.sequence + k < head.sequence + k
    · grind
    · rw [if_pos first, if_neg snd]
      refine iff_of_false (fun eq => ?_) ?_
      · -- the shifted walk starts with the first node, the other list with the new one
        obtain ⟨tail, starts⟩ := @insertAfter_head (node.shift k) (head.shift k) (rest.map (.shift k))
        rw [starts] at eq
        have swapped := TCPSegmentNode.shift_inj (cons.inj eq).1
        exact UInt32.lt_irrefl _ (swapped ▸ first)
      · rintro (⟨order, _⟩ | ⟨⟨above, _⟩, _⟩)
        · exact snd (order.mpr first)
        · exact above first
    · rw [if_neg first, if_pos snd]
      refine iff_of_false (fun eq => ?_) ?_
      · obtain ⟨tail, starts⟩ := @insertAfter_head node head rest
        rw [starts] at eq
        have swapped := TCPSegmentNode.shift_inj (cons.inj eq).1
        exact UInt32.lt_irrefl _ (swapped ▸ snd)
      · rintro (⟨order, _⟩ | ⟨_, above, _⟩)
        · exact first (order.mp snd)
        · exact above snd
    · rw [if_neg first, if_neg snd, insertAfter_shift_iff]
      simp only [SameOrder, first, snd, not_false_eq_true, true_and, forall_const]

end

section

variable {k : UInt32}

theorem TCPSocket.shift_receive (payload : Bytes) (sock : TCPSocket) :
    receive payload (sock.shift k) = (receive payload sock).shift k := by
  have number : sock.targetSequence + k + UInt32.ofNat payload.length =
      sock.targetSequence + UInt32.ofNat payload.length + k := by ac_rfl
  unfold receive shift
  rw [number]

theorem processNodes_oooList (nodes : List TCPSegmentNode) (sock : TCPSocket) :
    (processNodes nodes sock).oooList.length ≤ nodes.length := by
  induction nodes generalizing sock with
  | nil => exact Nat.le_refl 0
  | cons head rest ih =>
    unfold processNodes
    split
    · exact Nat.le_succ_of_le (ih _)
    · split
      · exact Nat.le_succ_of_le (ih _)
      · exact Nat.le_refl _

theorem processNodes_shift {nodes : List TCPSegmentNode} {sock : TCPSocket}
    (alike : DrainsAlike k nodes sock.targetSequence) :
    processNodes (nodes.map (.shift k)) (sock.shift k) = (processNodes nodes sock).shift k := by
  induction nodes generalizing sock with
  | nil => rfl
  | cons head rest ih =>
    rw [DrainsAlike] at alike
    rw [map_cons, processNodes, processNodes]
    have equal : (head.shift k).sequence = (sock.shift k).targetSequence ↔ head.sequence = sock.targetSequence :=
      shift_eq_iff
    by_cases eq : head.sequence = sock.targetSequence
    · rw [if_pos eq] at alike ⊢
      rw [if_pos (equal.mpr eq), ← ih alike, ← TCPSocket.shift_receive]
      rfl
    · rw [if_neg eq] at alike ⊢
      rw [if_neg (mt equal.mp eq)]
      obtain ⟨order, later⟩ := alike
      by_cases old : head.sequence < sock.targetSequence
      · rw [if_pos old, ← ih (later old)]
        exact if_pos (order.mpr old)
      · rw [if_neg old]
        exact if_neg (mt order.mp old)

theorem DrainsAlike.of_left {nodes : List TCPSegmentNode} {sock : TCPSocket}
    (left : (processNodes (nodes.map (.shift k)) (sock.shift k)).oooList =
      (processNodes nodes sock).oooList.map (.shift k)) : DrainsAlike k nodes sock.targetSequence := by
  induction nodes generalizing sock with
  | nil => trivial
  | cons head rest ih =>
    rw [DrainsAlike]
    rw [map_cons, processNodes, processNodes] at left
    have equal : (head.shift k).sequence = (sock.shift k).targetSequence ↔ head.sequence = sock.targetSequence :=
      shift_eq_iff
    by_cases eq : head.sequence = sock.targetSequence
    · rw [if_pos eq]
      rw [if_pos eq, if_pos (equal.mpr eq)] at left
      apply @ih (receive head.payload sock)
      rw [← left, ← TCPSocket.shift_receive]
      rfl
    · rw [if_neg eq]
      rw [if_neg eq, if_neg (mt equal.mp eq)] at left
      change (if head.sequence + k < sock.targetSequence + k then _ else _ : TCPSocket).oooList = _ at left
      by_cases old : head.sequence < sock.targetSequence <;> by_cases old' : head.sequence + k < sock.targetSequence + k
      · grind
      · -- one run drops the node, the other stops pre it
        rw [if_pos old, if_neg old'] at left
        have lengths := congrArg List.length left
        have shorter := processNodes_oooList rest sock
        rw [length_map, length_cons, length_map] at lengths
        omega
      · rw [if_neg old, if_pos old'] at left
        have lengths := congrArg List.length left
        have shorter := processNodes_oooList (rest.map (.shift k)) (sock.shift k)
        rw [length_map, length_cons] at lengths
        rw [length_map] at shorter
        omega
      · grind

end

section

variable {k : UInt32} {env : Surroundings} {seg : Segment} {sock : TCPSocket}

theorem sendTCPRaw_shift (env : Surroundings) (nth : Nat) (flags : UInt8) (payload copied : Bytes) (sock : TCPSocket) :
    (sendTCPRaw env nth flags payload copied (sock.shift k)).1 = (sendTCPRaw env nth flags payload copied sock).1.shift k := by
  have route : getMacFromCache env nth (sock.shift k) = getMacFromCache env nth sock := rfl
  unfold sendTCPRaw
  rw [route]
  cases getMacFromCache env nth sock with
  | false => rfl
  | true => cases kept flags payload <;> rfl

theorem sendTCPData_shift (env : Surroundings) (nth : Nat) (data : Bytes) (sock : TCPSocket) :
    (sendTCPData env nth data (sock.shift k)).1 = (sendTCPData env nth data sock).1.shift k := by
  have eq : (sock.shift k).state = sock.state := rfl
  unfold sendTCPData
  rw [eq]
  split
  · rfl
  · dsimp only
    rw [sendTCPRaw_shift]
    rfl

theorem TCPSocket.shift_inj {first snd : TCPSocket} (eq : first.shift k = snd.shift k) : first = snd := by
  obtain ⟨⟩ := first
  obtain ⟨⟩ := snd
  simp only [TCPSocket.shift, TCPSocket.mk.injEq, shift_eq_iff, map_shift_eq_iff] at eq ⊢
  exact eq

/-- What ESTABLISHED does once the data is taken: the response to a request, then the acknowledgement and the FIN. -/
def settle (env : Surroundings) (seg : Segment) (sock : TCPSocket) : TCPSocket :=
  (finish env seg (if seg.request then (respond env sock).1 else sock)).1

theorem caseEstablished_settle (filled : ¬ seg.payload.length = 0) (onTime : ¬ sock.targetSequence < seg.sequenceNum) :
    (caseEstablished env seg sock).1 = settle env seg (takeData env seg sock).1 := by
  unfold caseEstablished settle
  rw [if_neg (by simp [Segment.early, onTime]), if_pos (Nat.pos_of_ne_zero filled)]
  split <;> rfl

theorem caseEstablished_early (filled : ¬ seg.payload.length = 0) (early : sock.targetSequence < seg.sequenceNum) :
    (caseEstablished env seg sock).1 = addOOOSegment env seg.sequenceNum seg.payload sock := by
  unfold caseEstablished
  rw [if_pos (by simp [Segment.early, early, Nat.pos_of_ne_zero filled]), takeData_socket, if_neg, if_pos early]
  exact fun eq => UInt32.lt_irrefl _ (eq ▸ early)

section

variable (env : Surroundings)

theorem respond_shift (sock : TCPSocket) : (respond env (sock.shift k)).1 = (respond env sock).1.shift k := by
  unfold respond sendFlags
  simp only [Traced.next, become]
  rw [sendTCPData_shift, sendTCPRaw_shift]
  rfl

theorem acknowledge_shift (ack : UInt32) (sock : TCPSocket) : acknowledge ack (sock.shift k) = (acknowledge ack sock).shift k := by
  unfold acknowledge
  change (if sock.waitingAck ∧ ack = sock.mySequence then _ else _) = _
  split <;> rfl

theorem closeByFin_shift (sock : TCPSocket) :
    (closeByFin env (sock.shift k)).1 = (closeByFin env sock).1.shift k := by
  have number : sock.targetSequence + k + 1 = sock.targetSequence + 1 + k := by ac_rfl
  have cnt : { sock.shift k with targetSequence := (sock.shift k).targetSequence + 1 } =
      { sock with targetSequence := sock.targetSequence + 1 }.shift k := by
    unfold TCPSocket.shift
    rw [number]
  unfold closeByFin sendFlags
  simp only [Traced.next, become]
  rw [cnt, sendTCPRaw_shift, sendTCPRaw_shift]
  rfl

theorem finish_shift (seg : Segment) (sock : TCPSocket) :
    (finish env (seg.shift k) (sock.shift k)).1 = (finish env seg sock).1.shift k := by
  unfold finish
  change (if has seg.flags tcpFin then closeByFin env (acknowledge seg.ackNum (sock.shift k)) else _ : Exchange).1 = _
  split
  · rw [acknowledge_shift, closeByFin_shift]
  · exact acknowledge_shift ..

theorem settle_shift (seg : Segment) (sock : TCPSocket) :
    settle env (seg.shift k) (sock.shift k) = (settle env seg sock).shift k := by
  unfold settle
  rw [← finish_shift]
  change (finish env (seg.shift k) (if seg.request then (respond env (sock.shift k)).1 else sock.shift k)).1 = _
  split
  · rw [respond_shift]
  · rfl

theorem sendTCPRaw_oooList (nth : Nat) (flags : UInt8) (payload copied : Bytes) (sock : TCPSocket) :
    (sendTCPRaw env nth flags payload copied sock).1.oooList = sock.oooList := by
  obtain ⟨_, _, _, _, _, eq⟩ := sendTCPRaw_frame env nth flags sock payload copied
  rw [eq]

theorem sendTCPData_oooList (nth : Nat) (data : Bytes) (sock : TCPSocket) :
    (sendTCPData env nth data sock).1.oooList = sock.oooList := by
  unfold sendTCPData
  split
  · rfl
  · exact sendTCPRaw_oooList ..

theorem settle_oooList (seg : Segment) (sock : TCPSocket) : (settle env seg sock).oooList = sock.oooList := by
  have responded : (respond env sock).1.oooList = sock.oooList := by
    unfold respond sendFlags
    simp only [Traced.next, become]
    rw [sendTCPRaw_oooList, sendTCPData_oooList]
  have acked (sock : TCPSocket) : (acknowledge seg.ackNum sock).oooList = sock.oooList := by
    obtain ⟨_, _, eq⟩ := acknowledge_eq seg.ackNum sock
    rw [eq]
  have finished (sock : TCPSocket) : (finish env seg sock).1.oooList = sock.oooList := by
    unfold finish closeByFin sendFlags
    split
    · simp only [Traced.next, become]
      rw [sendTCPRaw_oooList, sendTCPRaw_oooList, acked]
    · exact acked sock
  unfold settle
  rw [finished]
  split
  · exact responded
  · rfl

end

theorem settle_eq_iff (h : sock.state = .established) : settle env seg sock = sock ↔
    seg.request = false ∧ has seg.flags tcpFin = false ∧ ¬ (sock.waitingAck = true ∧ seg.ackNum = sock.mySequence) := by
  have finished (sock : TCPSocket) : (finish env seg sock).1.state = if has seg.flags tcpFin then .lastAck else sock.state := by
    unfold finish
    split
    · rfl
    · obtain ⟨_, _, eq⟩ := acknowledge_eq seg.ackNum sock
      rw [eq]
  constructor
  · intro eq
    have state := congrArg TCPSocket.state eq
    rw [settle, finished, h] at state
    have noFin : has seg.flags tcpFin = false := by
      by_contra closes
      rw [if_pos (Bool.eq_true_of_not_eq_false closes)] at state
      exact nomatch state
    have noRequest : seg.request = false := by
      by_contra asks
      rw [if_neg (by simp [noFin]), if_pos (Bool.eq_true_of_not_eq_false asks)] at state
      exact nomatch state
    refine ⟨noRequest, noFin, fun acked => ?_⟩
    have wait := congrArg TCPSocket.waitingAck eq
    rw [settle, if_neg (by simp [noRequest]), finish, if_neg (by simp [noFin]), acknowledge, if_pos acked, acked.1] at wait
    cases wait
  · rintro ⟨noRequest, noFin, noAck⟩
    rw [settle, if_neg (by simp [noRequest]), finish, if_neg (by simp [noFin])]
    exact if_neg noAck

theorem settle_eq_add_iff (h : sock.state = .established) :
    settle env seg sock = addOOOSegment env seg.sequenceNum seg.payload sock ↔
      (env.heap = true → Known seg.sequenceNum sock.oooList) ∧ seg.request = false ∧ has seg.flags tcpFin = false ∧
        ¬ (sock.waitingAck = true ∧ seg.ackNum = sock.mySequence) := by
  have unchanged : (env.heap = true → Known seg.sequenceNum sock.oooList) ↔
      (addOOOSegment env seg.sequenceNum seg.payload sock).oooList = sock.oooList := by
    unfold addOOOSegment
    split
    case isTrue heap =>
      rw [forall_prop_of_true heap]
      exact (@insertSegment_eq_iff ⟨seg.sequenceNum, seg.payload⟩ sock.oooList).symm
    case isFalse full => exact iff_of_true (fun heap => absurd heap full) rfl
  have absent (eq : (addOOOSegment env seg.sequenceNum seg.payload sock).oooList = sock.oooList) :
      addOOOSegment env seg.sequenceNum seg.payload sock = sock := by
    unfold addOOOSegment at eq ⊢
    split at eq
    case isTrue heap =>
      have lists : insertSegment ⟨seg.sequenceNum, seg.payload⟩ sock.oooList = sock.oooList := eq
      rw [if_pos heap, lists]
    case isFalse full => exact if_neg full
  rw [unchanged, ← settle_eq_iff h]
  constructor
  · intro eq
    have lists := (congrArg TCPSocket.oooList eq).symm.trans (settle_oooList env seg sock)
    exact ⟨lists, eq.trans (absent lists)⟩
  · grind

theorem addOOOSegment_shift_iff :
    addOOOSegment env (seg.sequenceNum + k) seg.payload (sock.shift k) =
      (addOOOSegment env seg.sequenceNum seg.payload sock).shift k ↔
    (env.heap = true → PlacesAlike k seg.sequenceNum sock.oooList) := by
  have ins := @insertSegment_shift_iff k ⟨seg.sequenceNum, seg.payload⟩ sock.oooList
  unfold addOOOSegment
  split
  case isTrue heap =>
    rw [forall_prop_of_true heap, ← ins]
    constructor
    · intro eq
      exact congrArg TCPSocket.oooList eq
    · intro eq
      unfold TCPSocket.shift
      rw [← eq]
      rfl
  case isFalse full => exact iff_of_true rfl fun heap => absurd heap full

/-- A segment means the same after every move of the numbers exactly when the plain
comparisons the code makes are decided the same way. -/
theorem dispatch_shift_iff (here : sock.state = .established) :
    (dispatch env (seg.shift k) (sock.shift k)).1 = (dispatch env seg sock).1.shift k ↔ DecidesAlike env k seg sock := by
  have opened : dispatch env seg sock = caseEstablished env seg sock := by rw [dispatch, here]
  have opened' : dispatch env (seg.shift k) (sock.shift k) = caseEstablished env (seg.shift k) (sock.shift k) := by
    have here' : (sock.shift k).state = .established := here
    rw [dispatch, here']
  rw [opened, opened', DecidesAlike]
  by_cases empty : seg.payload.length = 0
  · have finishes (seg : Segment) (sock : TCPSocket) (empty : seg.payload.length = 0) :
        (caseEstablished env seg sock).1 = (finish env seg sock).1 := by
      unfold caseEstablished
      rw [if_neg (by simp [Segment.early, empty]), if_neg (by simp [empty])]
    rw [finishes _ _ empty, finishes (seg.shift k) _ empty, finish_shift]
    exact iff_of_true rfl (.inl empty)
  · have empty' : ¬ (seg.shift k).payload.length = 0 := empty
    have ht := takeData_socket env seg sock
    have taken' := takeData_socket env (seg.shift k) (sock.shift k)
    rw [or_iff_right empty]
    by_cases inSequence : seg.sequenceNum = sock.targetSequence
    · have late (first snd : UInt32) (eq : first = snd) : ¬ snd < first := fun lower => UInt32.lt_irrefl _ (eq ▸ lower)
      have inSequence' : (seg.shift k).sequenceNum = (sock.shift k).targetSequence := shift_eq_iff.mpr inSequence
      rw [if_pos inSequence] at ht
      rw [if_pos inSequence', processOOOList] at taken'
      rw [if_pos inSequence, caseEstablished_settle empty (late _ _ inSequence),
        caseEstablished_settle empty' (late _ _ inSequence'), ht, taken', ← settle_shift]
      have received : receive (seg.shift k).payload (sock.shift k) = (receive seg.payload sock).shift k :=
        TCPSocket.shift_receive ..
      rw [received]
      constructor
      · intro eq
        have lists := congrArg TCPSocket.oooList eq
        rw [settle_oooList, settle_oooList] at lists
        exact @DrainsAlike.of_left k sock.oooList (receive seg.payload sock) lists
      · intro alike
        exact congrArg _ (@processNodes_shift k sock.oooList (receive seg.payload sock) alike)
    · have ne : ¬ (seg.shift k).sequenceNum = (sock.shift k).targetSequence := mt shift_eq_iff.mp inSequence
      rw [if_neg inSequence] at ht ⊢
      rw [if_neg ne] at taken'
      -- which of the two runs keep the segment for later
      by_cases early : sock.targetSequence < seg.sequenceNum <;>
        by_cases early' : (sock.shift k).targetSequence < (seg.shift k).sequenceNum
      · have order : SameOrder k sock.targetSequence seg.sequenceNum := iff_of_true early' early
        rw [caseEstablished_early empty early, caseEstablished_early empty' early', if_pos order, forall_prop_of_true early]
        exact addOOOSegment_shift_iff
      · rw [if_neg early'] at taken'
        rw [caseEstablished_early empty early, caseEstablished_settle empty' early', taken', settle_shift,
          if_neg fun order => early' (order.mpr early)]
        have decided := @settle_eq_add_iff env seg sock here
        constructor
        · intro eq
          obtain ⟨notKept, noRequest, noFin, noAck⟩ := decided.mp (TCPSocket.shift_inj eq)
          exact ⟨fun heap => by rw [if_pos early]; exact notKept heap, noRequest, noFin, noAck⟩
        · intro unnoticed
          refine congrArg _ (decided.mpr ⟨fun heap => ?_, unnoticed.noRequest, unnoticed.noFin, unnoticed.noAck⟩)
          have known := unnoticed.notKept heap
          rwa [if_pos early] at known
      · rw [if_neg early] at ht
        rw [caseEstablished_settle empty early, ht, caseEstablished_early empty' early', ← settle_shift,
          if_neg fun order => early (order.mp early'), eq_comm]
        have decided := @settle_eq_add_iff env (seg.shift k) (sock.shift k) here
        constructor
        · intro eq
          obtain ⟨notKept, noRequest, noFin, noAck⟩ := decided.mp eq
          exact ⟨fun heap => by rw [if_neg early]; exact notKept heap, noRequest, noFin, noAck⟩
        · intro unnoticed
          refine decided.mpr ⟨fun heap => ?_, unnoticed.noRequest, unnoticed.noFin, unnoticed.noAck⟩
          have known := unnoticed.notKept heap
          rwa [if_neg early] at known
      · rw [if_neg early] at ht
        rw [if_neg early'] at taken'
        have order : SameOrder k sock.targetSequence seg.sequenceNum := iff_of_false early' early
        rw [caseEstablished_settle empty early, caseEstablished_settle empty' early', ht, taken', settle_shift,
          if_pos order]
        exact iff_of_true rfl fun lower => absurd lower early

/-- A segment two numbers ahead, moved by 100: nothing wraps. -/
theorem dispatch_shift_ahead :
    (dispatch quiet ((pieceSegment 1).shift 100) (awaiting.shift 100)).1 =
      (dispatch quiet (pieceSegment 1) awaiting).1.shift 100 := by
  have alike : DecidesAlike quiet 100 (pieceSegment 1) awaiting := by
    refine .inr ?_
    rw [if_neg (by decide), if_pos (by decide)]
    exact fun _ _ => .inl trivial
  exact (dispatch_shift_iff rfl).mpr alike

/-- A socket whose stream has just passed number 0. -/
def wrapped : TCPSocket := { awaiting with targetSequence := 5 }

/-- A segment from before the passage, 21 numbers behind what is expected. -/
def duplicate : Segment := { pieceSegment 0 with sequenceNum := 0xFFFFFFF0 }

/-- The old duplicate is kept for later, and ignored when all numbers are moved by 256. -/
theorem dispatch_shift_wrapped : wrapped.targetSequence - duplicate.sequenceNum = 21 ∧
    (dispatch quiet duplicate wrapped).1.oooList = [⟨0xFFFFFFF0, [10, 11]⟩] ∧
    (dispatch quiet (duplicate.shift 256) (wrapped.shift 256)).1 ≠ (dispatch quiet duplicate wrapped).1.shift 256 := by
  refine ⟨by decide, by decide, fun eq => ?_⟩
  have lists := congrArg TCPSocket.oooList eq
  exact absurd lists (by decide)

end

end RosKernel.Network
