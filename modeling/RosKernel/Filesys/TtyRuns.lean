import RosKernel.Filesys.Tty

/-! Runs of a terminal: what reads return, when the buffer is full, and the flow control. -/

set_option autoImplicit false

namespace RosKernel.Filesys

open Library List

namespace Tty

variable {tty : Tty}

/-- What `OnInput` makes of a carriage return. -/
def received (tty : Tty) (c : UInt8) : UInt8 := if c == carriageReturn && tty.termios.icrnl then newline else c

/-- A byte that is neither a control character nor left out. -/
def accepts (tty : Tty) (c : UInt8) : Bool :=
  !(tty.termios.ixon && (c == tty.termios.vstop || c == tty.termios.vstart)) && c != 0 &&
    !(tty.termios.isig && (c == tty.termios.vintr || c == tty.termios.vquit)) && !(c == carriageReturn && tty.termios.igncr)

/-- No byte can be stored any more. -/
def Full (tty : Tty) : Prop := lineBufferSize - 1 ≤ tty.lineWritePos

instance (tty : Tty) : Decidable tty.Full := inferInstanceAs (Decidable (_ ≤ _))

/-- The bytes that a round takes, copied or not. -/
def takes (tty : Tty) (reader : TtyReader) : Nat :=
  min (reader.size - reader.copied.length) (tty.unread.findIdx (fun c => tty.eofChar c || reader.canonical && c == newline) + 1)

/-- Both positions are in the buffer, and start again once all is read. -/
structure Placed (tty : Tty) : Prop where
  ordered : tty.lineReadPos ≤ tty.lineWritePos
  inside : tty.lineWritePos < lineBufferSize
  restarts : tty.lineReadPos = tty.lineWritePos → tty.lineWritePos = 0

theorem placed_discard (tty : Tty) : tty.discard.Placed :=
  ⟨Nat.le_refl _, show 0 < lineBufferSize by decide, fun _ => rfl⟩

theorem not_full_discard (tty : Tty) : ¬ tty.discard.Full := show ¬ lineBufferSize - 1 ≤ 0 by decide

end Tty

namespace TtyRun

variable {Id : Type}

/-- The steps that keep what is typed: output that is stopped is not asked to start; no raw read meets the
end-of-file character, and no canonical one an end-of-file character that is no signed character; and a full
buffer in canonical mode has an end of line. -/
def Behaves (run : TtyRun Id) : TtyOp Id → Prop
  | .input c _ =>
    (run.tty.termios.ixon = true → c ≠ run.tty.termios.vstop → c = run.tty.termios.vstart → run.tty.outputStopped = false) ∧
    (run.tty.termios.icanon = true → run.tty.lineWritePos + 2 = lineBufferSize → run.tty.accepts c = true →
      run.tty.unread.any run.tty.lineEnd = true ∨ run.tty.lineEnd (run.tty.received c) = true)
  | .round id signals => ∀ reader, run.readers id = some reader → signals = false → run.tty.dataReady reader.canonical = true →
    (reader.canonical = false → ∀ c ∈ run.tty.unread.take reader.size, run.tty.eofChar c = false) ∧
    (reader.canonical = true → ∀ c ∈ (run.tty.unread.takeWhile (· != newline)).take reader.size,
      c = run.tty.termios.veof → run.tty.eofChar c = true) ∧
    (run.tty.termios.icanon = true → run.tty.Full →
      run.tty.unread.drop (run.tty.takes reader) = [] ∨ (run.tty.unread.drop (run.tty.takes reader)).any run.tty.lineEnd = true)
  | .setTermios termios => termios.icanon = true → run.tty.Full → run.tty.unread.any (fun c => c == newline || c == termios.veof) = true
  | .resume | .read _ _ => True

/-- What holds of a terminal, of what reads returned and of what became of the other bytes. -/
structure Faithful (run : TtyRun Id) : Prop where
  placed : run.tty.Placed
  order : run.consumed.map Prod.fst ++ run.tty.unread = run.stored
  returned : (run.consumed.filter fun byte => byte.2 = .copied).map Prod.fst = run.results.flatMap Prod.snd
  raw : ∀ byte ∈ run.consumed, byte.2 ≠ .eof false
  lines : ∀ result ∈ run.results, result.1 = true → newline ∉ result.2.dropLast
  ready : run.tty.Full → run.tty.dataReady run.tty.termios.icanon = true
  flow : run.tty.outputStopped = run.flowStopped

/-- The invariant of the runs: also, no reader waits with bytes that it has copied. -/
structure Kept (run : TtyRun Id) : Prop extends Faithful run where
  waiting : ∀ id reader, run.readers id = some reader → reader.copied = []

variable {run : TtyRun Id}

theorem initial_kept : (initial : TtyRun Id).Kept where
  placed := Tty.placed_discard Tty.initial
  order := rfl
  returned := rfl
  raw := forall_mem_nil _
  lines := forall_mem_nil _
  ready full := (Tty.not_full_discard Tty.initial full).elim
  flow := rfl
  waiting _ _ none := nomatch none

theorem Kept.discardAll (kept : run.Kept) : run.discardAll.Kept where
  placed := Tty.placed_discard run.tty
  order := by
    have none : run.tty.discard.unread = [] := Tty.unread_nil (Nat.le_refl _)
    change (run.consumed ++ run.tty.unread.map fun c => (c, Fate.discarded)).map Prod.fst ++ run.tty.discard.unread = run.stored
    rw [none, append_nil, map_append, map_map, ← kept.order]
    congr 1
    exact map_id _
  returned := by
    change ((run.consumed ++ run.tty.unread.map fun c => (c, Fate.discarded)).filter _).map Prod.fst = run.results.flatMap Prod.snd
    have none : (run.tty.unread.map fun c => (c, Fate.discarded)).filter (fun byte => byte.2 = .copied) = [] := by
      apply filter_eq_nil_iff.mpr
      intro byte mem
      obtain ⟨c, _, rfl⟩ := mem_map.mp mem
      exact Bool.false_ne_true
    rw [filter_append, none, append_nil]
    exact kept.returned
  raw byte mem := by
    rcases mem_append.mp mem with before | isNew
    · exact kept.raw byte before
    · grind
  lines := kept.lines
  ready full := (Tty.not_full_discard run.tty full).elim
  flow := kept.flow
  waiting := kept.waiting

end TtyRun

namespace Tty

variable {tty : Tty} {c : UInt8} {foreground : Bool}

theorem onInput_cases (tty : Tty) (c : UInt8) (foreground : Bool) :
    (tty.onInput c foreground = (tty, .ignored) ∨ tty.onInput c foreground = ({ tty with outputStopped := true }, .ignored) ∨
      tty.onInput c foreground = (tty, .suspended) ∨ tty.onInput c foreground = (tty.discard, .discarded)) ∨
    tty.accepts c = true ∧ ¬ tty.Full ∧ tty.onInput c foreground = ({ tty with
      lineBuffer := Function.update tty.lineBuffer tty.lineWritePos (tty.received c)
      lineWritePos := tty.lineWritePos + 1 }, .stored (tty.received c)) := by
  unfold onInput
  split
  · exact .inl (.inr (.inl rfl))
  · rename_i notStop
    split
    · exact .inl (.inl rfl)
    · rename_i notStart
      split
      · exact .inl (.inl rfl)
      · rename_i nz
        split
        · split
          · exact .inl (.inl rfl)
          · split
            · exact .inl (.inr (.inr (.inl rfl)))
            · exact .inl (.inr (.inr (.inr rfl)))
        · rename_i notSignal
          split
          · exact .inl (.inl rfl)
          · rename_i notIgnored
            dsimp only
            split
            · exact .inl (.inl rfl)
            · rename_i room
              refine .inr ⟨?_, room, rfl⟩
              unfold accepts
              grind

end Tty

namespace TtyRun

variable {Id : Type} {run : TtyRun Id}

theorem flow_input {c : UInt8} (foreground : Bool) (kept : run.Kept)
    (starts : run.tty.termios.ixon = true → c ≠ run.tty.termios.vstop → c = run.tty.termios.vstart → run.tty.outputStopped = false) :
    (run.tty.onInput c foreground).1.outputStopped = run.flowAfter c := by
  have flow := kept.flow
  unfold flowAfter
  by_cases stop : (run.tty.termios.ixon && c == run.tty.termios.vstop) = true
  · rw [if_pos stop, Tty.onInput, if_pos stop]
  · rw [if_neg stop]
    by_cases start : (run.tty.termios.ixon && c == run.tty.termios.vstart) = true
    · rw [if_pos start, Tty.onInput, if_neg stop, if_pos start]
      rw [Bool.and_eq_true_iff, beq_iff_eq] at start
      exact starts start.1 (fun eq => stop (by simp [start.1, eq])) start.2
    · rw [if_neg start, ← flow]
      rcases Tty.onInput_cases run.tty c foreground with (eq | eq | eq | eq) | ⟨_, _, eq⟩
      · rw [eq]
      · -- only a stop character stops the output
        rw [Tty.onInput, if_neg stop, if_neg start] at eq ⊢
        grind
      · rw [eq]
      · rw [eq]
        rfl
      · rw [eq]

theorem Kept.input {c : UInt8} {foreground : Bool} (kept : run.Kept) (behaves : run.Behaves (.input c foreground)) :
    (run.input c foreground).Kept := by
  obtain ⟨starts, fills⟩ := behaves
  have flow := flow_input foreground kept starts
  have placed := kept.placed
  unfold TtyRun.input
  rcases Tty.onInput_cases run.tty c foreground with (eq | eq | eq | eq) | ⟨accepts, room, eq⟩ <;> rw [eq] at flow ⊢
  · exact ⟨⟨placed, kept.order, kept.returned, kept.raw, kept.lines, kept.ready, flow⟩, kept.waiting⟩
  · exact ⟨⟨⟨placed.ordered, placed.inside, placed.restarts⟩, kept.order, kept.returned, kept.raw, kept.lines, kept.ready, flow⟩, kept.waiting⟩
  · exact ⟨⟨placed, kept.order, kept.returned, kept.raw, kept.lines, kept.ready, flow⟩, kept.waiting⟩
  · have discarded := kept.discardAll
    exact ⟨⟨discarded.placed, discarded.order, discarded.returned, discarded.raw, discarded.lines, discarded.ready, flow⟩, discarded.waiting⟩
  · have ord := placed.ordered
    have hin : run.tty.lineWritePos < lineBufferSize - 1 := Nat.not_le.mp room
    let stored : Tty := { run.tty with
      lineBuffer := Function.update run.tty.lineBuffer run.tty.lineWritePos (run.tty.received c)
      lineWritePos := run.tty.lineWritePos + 1 }
    have unread : stored.unread = run.tty.unread ++ [run.tty.received c] := by
      change (range (run.tty.lineWritePos + 1 - run.tty.lineReadPos)).map (fun k => stored.lineBuffer (run.tty.lineReadPos + k)) = _
      rw [Nat.sub_add_comm ord, range_succ, map_append]
      congr 1
      · apply map_congr_left
        intro k low
        have below := mem_range.mp low
        exact Function.update_of_ne (by omega) _ _
      · grind
    refine ⟨⟨⟨Nat.le_succ_of_le ord, Nat.lt_pred_iff.mp hin, fun eq => ?_⟩, ?_, kept.returned, kept.raw, kept.lines, ?_, flow⟩, kept.waiting⟩
    · have reads : run.tty.lineReadPos = run.tty.lineWritePos + 1 := eq
      omega
    · change run.consumed.map Prod.fst ++ stored.unread = run.stored ++ [run.tty.received c]
      rw [unread, ← append_assoc, kept.order]
    · intro full
      have last : run.tty.lineWritePos + 2 = lineBufferSize := by
        have high : lineBufferSize - 1 ≤ run.tty.lineWritePos + 1 := full
        omega
      cases canonical : run.tty.termios.icanon with
      | true =>
        change stored.unread.any run.tty.lineEnd = true
        rw [unread, any_append, Bool.or_eq_true]
        exact (fills canonical last accepts).imp id fun ends => by simpa using ends
      | false =>
        change decide (1 ≤ run.tty.lineWritePos + 1 - run.tty.lineReadPos) = true
        exact decide_eq_true (by omega)

end TtyRun

namespace Tty

variable {tty : Tty} {pos : Nat}

theorem resetIfRead_spec (placed : tty.Placed) (low : pos ≤ tty.lineWritePos) :
    (resetIfRead { tty with lineReadPos := pos }).Placed ∧
      (resetIfRead { tty with lineReadPos := pos }).unread = Tty.unread { tty with lineReadPos := pos } ∧
      (resetIfRead { tty with lineReadPos := pos }).termios = tty.termios ∧
      (resetIfRead { tty with lineReadPos := pos }).outputStopped = tty.outputStopped ∧
      ((resetIfRead { tty with lineReadPos := pos }).Full → tty.Full ∧ Tty.unread { tty with lineReadPos := pos } ≠ []) := by
  unfold resetIfRead
  by_cases all : pos = tty.lineWritePos
  · rw [if_pos all]
    have none : Tty.unread { tty with lineReadPos := pos } = [] := unread_nil (Nat.le_of_eq all.symm)
    rw [none]
    exact ⟨placed_discard _, unread_nil (Nat.le_refl _), rfl, rfl, fun full => (not_full_discard _ full).elim⟩
  · rw [if_neg all]
    refine ⟨⟨low, placed.inside, fun eq => (all eq).elim⟩, rfl, rfl, rfl, fun full => ⟨full, unread_ne_nil ?_⟩⟩
    exact Nat.lt_of_le_of_ne low all

end Tty

namespace TtyRun

variable {Id : Type} [DecidableEq Id] {run : TtyRun Id} {id : Id} {reader : TtyReader} {tty : Tty} {bytes dropped : List UInt8} {canonical : Bool}

theorem Kept.returns (kept : run.Kept) (split : run.tty.unread = bytes ++ dropped ++ tty.unread) (placed : tty.Placed)
    (raw : canonical = false → dropped = []) (line : canonical = true → newline ∉ bytes.dropLast)
    (ready : tty.Full → tty.dataReady tty.termios.icanon = true) (flow : tty.outputStopped = run.tty.outputStopped) :
    TtyRun.Kept { run with
      tty
      readers := Function.update run.readers id none
      consumed := run.consumed ++ (bytes.map fun c => (c, Fate.copied)) ++ dropped.map fun c => (c, Fate.eof canonical)
      results := run.results ++ [(canonical, bytes)] } where
  placed := placed
  order := by
    change (run.consumed ++ (bytes.map fun c => (c, Fate.copied)) ++ dropped.map fun c => (c, Fate.eof canonical)).map Prod.fst ++ tty.unread =
      run.stored
    rw [← kept.order, split, map_append, map_append, map_map, map_map]
    simp only [Function.comp_def, map_id', append_assoc]
  returned := by
    change ((run.consumed ++ (bytes.map fun c => (c, Fate.copied)) ++ dropped.map fun c => (c, Fate.eof canonical)).filter
      fun byte => byte.2 = .copied).map Prod.fst = (run.results ++ [(canonical, bytes)]).flatMap Prod.snd
    have all : (bytes.map fun c => (c, Fate.copied)).filter (fun byte => byte.2 = .copied) = bytes.map fun c => (c, Fate.copied) := by
      apply filter_eq_self.mpr
      intro byte mem
      obtain ⟨c, _, rfl⟩ := mem_map.mp mem
      rfl
    have none : (dropped.map fun c => (c, Fate.eof canonical)).filter (fun byte => byte.2 = .copied) = [] := by
      apply filter_eq_nil_iff.mpr
      intro byte mem
      obtain ⟨c, _, rfl⟩ := mem_map.mp mem
      exact Bool.false_ne_true
    rw [filter_append, filter_append, all, none, append_nil, map_append, kept.returned, flatMap_append]
    congr 1
    simp only [map_map, Function.comp_def, map_id', flatMap_singleton]
  raw byte mem := by
    rcases mem_append.mp mem with before | isDropped
    · rcases mem_append.mp before with old | isCopied
      · exact kept.raw byte old
      · grind
    · obtain ⟨c, isDropped, rfl⟩ := mem_map.mp isDropped
      intro same
      have isRaw : canonical = false := Fate.eof.inj same
      rw [raw isRaw] at isDropped
      exact not_mem_nil isDropped
  lines result mem := by
    rcases mem_append.mp mem with before | isLast
    · exact kept.lines result before
    · obtain rfl := mem_singleton.mp isLast
      exact line
  ready := ready
  flow := flow.trans kept.flow
  waiting other own isOwn := by
    have old : Function.update run.readers id none other = some own := isOwn
    by_cases same : other = id
    · grind
    · rw [Function.update_of_ne same] at old
      exact kept.waiting other own old

theorem Kept.round {signals : Bool} (kept : run.Kept) (waits : run.readers id = some reader) (behaves : run.Behaves (.round id signals)) :
    (run.round id reader signals).Kept := by
  have fresh := kept.waiting id reader waits
  unfold TtyRun.round
  cases signals with
  | true =>
    rw [if_pos rfl]
    refine ⟨⟨kept.placed, kept.order, kept.returned, kept.raw, kept.lines, kept.ready, kept.flow⟩, fun other own isOwn => ?_⟩
    have old : Function.update run.readers id none other = some own := isOwn
    by_cases eq : other = id
    · grind
    · rw [Function.update_of_ne eq] at old
      exact kept.waiting other own old
  | false =>
    rw [if_neg Bool.false_ne_true]
    by_cases isReady : run.tty.dataReady reader.canonical = true
    · rw [isReady, if_neg (by simp)]
      obtain ⟨noRaw, noCanonical, staysReady⟩ := behaves reader waits rfl isReady
      obtain ⟨isCanonical, size, already⟩ := reader
      obtain rfl : already = [] := fresh
      obtain ⟨pos, _, high, copied, split⟩ := @Tty.copyBytes_eq run.tty isCanonical size kept.placed.ordered
      obtain ⟨placed, unread, termios, flow, full⟩ := Tty.resetIfRead_spec kept.placed high
      generalize run.tty.copyBytes isCanonical size = copying at copied split
      obtain ⟨copying, bytes, ending⟩ := copying
      obtain rfl : copying = { run.tty with lineReadPos := pos } := copied
      have whole := splitRound_split run.tty.eofChar isCanonical size run.tty.unread
      have rest := splitRound_rest run.tty.eofChar isCanonical size run.tty.unread
      have raw : isCanonical = false → ending.dropped = [] := by
        intro isRaw
        have none := @splitRound_dropped isCanonical size run.tty.eofChar run.tty.unread (noRaw isRaw)
        rwa [← split] at none
      have line : isCanonical = true → newline ∉ bytes.dropLast := by
        rintro rfl
        have last := splitRound_line run.tty.eofChar size run.tty.unread
        rwa [← split] at last
      rw [← split] at whole rest
      dsimp only at whole rest ⊢
      rw [← unread] at whole
      have ready : ∀ full : (Tty.resetIfRead { run.tty with lineReadPos := pos }).Full,
          (Tty.resetIfRead { run.tty with lineReadPos := pos }).dataReady
            (Tty.resetIfRead { run.tty with lineReadPos := pos }).termios.icanon = true := by
        intro isFull
        obtain ⟨wasFull, remains⟩ := full isFull
        rw [termios]
        unfold Tty.dataReady
        cases mode : run.tty.termios.icanon with
        | true =>
          rw [if_pos rfl, unread, rest]
          have ends := (staysReady mode wasFull).resolve_left fun none => remains (rest.trans none)
          unfold Tty.lineEnd at ends ⊢
          rw [termios]
          exact ends
        | false =>
          rw [if_neg Bool.false_ne_true, decide_eq_true_eq, ← Tty.unread_length, unread]
          exact length_pos_iff.mpr remains
      have ret := @Kept.returns _ _ _ id _ _ _ _ kept whole placed raw line ready flow
      cases ending with
      | eof c => exact ret
      | line =>
        rw [show CopyEnd.line.dropped = [] from rfl, map_nil, append_nil] at ret
        exact ret
      | ranOut =>
        rw [show CopyEnd.ranOut.dropped = [] from rfl, map_nil, append_nil] at ret
        have isOver : (!isCanonical && (Tty.resetIfRead { run.tty with lineReadPos := pos }).lineWritePos ≤
            (Tty.resetIfRead { run.tty with lineReadPos := pos }).lineReadPos || size ≤ 0 + bytes.length) = true := by
          have ranOut := @splitRound_ranOut isCanonical size run.tty.eofChar run.tty.unread (by rw [← split])
          rw [← split] at ranOut
          cases isCanonical with
          | true =>
            have ends := @splitRound_ready size run.tty.eofChar run.tty.termios.veof run.tty.unread isReady (noCanonical rfl) (by rw [← split])
            rw [← split] at ends
            simp [Nat.le_of_eq ends.symm]
          | false =>
            rcases ranOut with noRoom | none
            · simp [Nat.le_of_eq noRoom.symm]
            · have empty : ¬ (Tty.resetIfRead { run.tty with lineReadPos := pos }).lineReadPos <
                  (Tty.resetIfRead { run.tty with lineReadPos := pos }).lineWritePos := by
                intro hin
                exact Tty.unread_ne_nil hin (unread.trans none)
              simp [Nat.not_lt.mp empty]
        rw [length_nil, if_pos isOver]
        exact ret
    · grind

theorem Kept.step {after : TtyRun Id} {op : TtyOp Id} (kept : run.Kept) (behaves : run.Behaves op) (hs : run.step op = some after) :
    after.Kept := by
  cases op with
  | input c foreground =>
    unfold TtyRun.step at hs
    split at hs
    case h_1 => exact nomatch hs
    case h_2 eq =>
      obtain ⟨rfl, rfl⟩ := TtyOp.input.inj eq
      cases hs
      exact kept.input behaves
    all_goals contradiction
  | resume =>
    simp only [TtyRun.step] at hs
    split at hs
    · exact nomatch hs
    · cases hs
      have discarded := kept.discardAll
      exact ⟨⟨discarded.placed, discarded.order, discarded.returned, discarded.raw, discarded.lines, discarded.ready, discarded.flow⟩,
        discarded.waiting⟩
  | read id size =>
    simp only [TtyRun.step] at hs
    split at hs
    · exact nomatch hs
    · split at hs
      · exact Option.some.inj hs ▸ kept
      · cases hs
        refine ⟨⟨kept.placed, kept.order, kept.returned, kept.raw, kept.lines, kept.ready, kept.flow⟩, fun other own isOwn => ?_⟩
        have update : Function.update run.readers id (some ⟨run.tty.termios.icanon, size, []⟩) other = some own := isOwn
        by_cases eq : other = id
        · grind
        · rw [Function.update_of_ne eq] at update
          exact kept.waiting other own update
  | round id signals =>
    simp only [TtyRun.step] at hs
    split at hs
    · exact nomatch hs
    · rename_i reader waits
      cases hs
      exact kept.round waits behaves
  | setTermios termios =>
    cases hs
    have placed := kept.placed
    refine ⟨⟨⟨placed.ordered, placed.inside, placed.restarts⟩, kept.order, kept.returned, kept.raw, kept.lines, ?_, kept.flow⟩, kept.waiting⟩
    intro full
    cases mode : termios.icanon with
    | true => exact behaves mode full
    | false =>
      have high : lineBufferSize - 1 ≤ run.tty.lineWritePos := full
      have ne : run.tty.lineReadPos ≠ run.tty.lineWritePos := fun eq => absurd (placed.restarts eq ▸ high) (by decide)
      have ord := placed.ordered
      change decide (1 ≤ run.tty.lineWritePos - run.tty.lineReadPos) = true
      exact decide_eq_true (by omega)

/-- What is read is what was stored, as long as each step behaves. -/
theorem reached_faithful (reached : Reaches step Behaves initial run) : run.Faithful :=
  (Reaches.invariant reached Kept initial_kept fun _ _ _ kept behaves hs => kept.step behaves hs).toFaithful

/-- One line that is typed and read. -/
theorem reached_faithful_line : ∃ run : TtyRun Unit, run.results = [(true, [0x61, newline])] ∧ run.Faithful := by
  let typed : TtyRun Unit := (initial.input 0x61 true).input carriageReturn true
  let reading : TtyRun Unit := { typed with readers := Function.update typed.readers () (some ⟨true, 80, []⟩) }
  have first : Reaches step Behaves initial (initial.input 0x61 true : TtyRun Unit) :=
    .next (.input 0x61 true) .start ⟨by decide, by decide⟩ rfl
  have snd : Reaches step Behaves initial typed :=
    .next (.input carriageReturn true) first ⟨by decide, by decide +kernel⟩ rfl
  have third : Reaches step Behaves initial reading := .next (.read () 80) snd trivial rfl
  refine ⟨reading.round () ⟨true, 80, []⟩ false, by decide +kernel, reached_faithful (.next (.round () false) third ?_ rfl)⟩
  intro reader isReader _ _
  cases isReader
  exact ⟨by decide, by decide +kernel, by decide +kernel⟩

/-- A start character leaves the output stopped, and a raw read takes a byte 4 that it does not return. -/
theorem faithful_fails :
    (∃ run : TtyRun Unit, Reaches step (fun _ _ => True) initial run ∧ run.tty.outputStopped = true ∧ run.flowStopped = false) ∧
    ∃ run : TtyRun Unit, Reaches step (fun _ _ => True) initial run ∧ run.stored = [4, 0x61] ∧ run.results = [(false, [])] ∧
      run.tty.unread = [0x61] := by
  constructor
  · let ops : List (TtyOp Unit) := [.input 0x13 true, .input 0x11 true]
    obtain ⟨run, hf⟩ := Option.isSome_iff_exists.mp (show (runAll step (fun _ _ => True) ops initial).isSome = true by decide +kernel)
    have facts : ∀ run ∈ runAll step (fun _ _ => True) ops initial, run.tty.outputStopped = true ∧ run.flowStopped = false := by
      decide +kernel
    exact ⟨run, Reaches.start.runAll hf, facts run hf⟩
  · let ops : List (TtyOp Unit) := [.setTermios { Tty.initial.termios with icanon := false }, .input 4 true, .input 0x61 true,
      .read () 10, .round () false]
    obtain ⟨run, hf⟩ := Option.isSome_iff_exists.mp (show (runAll step (fun _ _ => True) ops initial).isSome = true by decide +kernel)
    have facts : ∀ run ∈ runAll step (fun _ _ => True) ops initial, run.stored = [4, 0x61] ∧ run.results = [(false, [])] ∧
        run.tty.unread = [0x61] := by
      decide +kernel
    exact ⟨run, Reaches.start.runAll hf, facts run hf⟩

end TtyRun

end RosKernel.Filesys
