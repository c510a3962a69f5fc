import RosKernel.Fat32.ExactRemoval
import RosKernel.Library.Utf16
import Mathlib.Data.List.GetD

/-! Which long names of Unicode characters `ReadDirectory` spells right.

Each part of thirteen units is converted on its own and put where a name of ASCII characters
would have it; a part that is longer in bytes hides the beginning of the next.
-/

set_option autoImplicit false

namespace RosKernel.Fat32

open Library List

variable {units before behind : List Nat} {text : List Char} {w next count : Nat} {part : Name} {parts : List Name} {state : LongName}

/-! ## The converter -/

/-- Units of a name. -/
def Plain (units : List Nat) : Prop := ∀ w ∈ units, w ≠ 0 ∧ w < 65536

theorem Plain.left (plain : Plain (before ++ behind)) : Plain before :=
  fun w mem => plain w (mem_append_left _ mem)

theorem Plain.right (plain : Plain (before ++ behind)) : Plain behind :=
  fun w mem => plain w (mem_append_right _ mem)

theorem Plain.of_cons (plain : Plain (w :: units)) : Plain units :=
  fun v mem => plain v (.tail _ mem)

def loneUnit (w : Nat) : Nat := if isHigh w || isLow w then 0xFFFD else w

theorem utf16ToUtf8_pair (high : isHigh w = true) (low : isLow next = true) : utf16ToUtf8 (w :: next :: units) =
    encodeUtf8 (0x10000 + ((w - 0xD800) * 1024 + (next - 0xDC00))) ++ utf16ToUtf8 units := by
  rw [isHigh_iff] at high
  rw [isLow_iff] at low
  rw [utf16ToUtf8, if_neg (by omega), if_pos high, if_pos low]

theorem utf16ToUtf8_lone (nz : w ≠ 0) (alone : isHigh w = true → startsLow units = false) :
    utf16ToUtf8 (w :: units) = encodeUtf8 (loneUnit w) ++ utf16ToUtf8 units := by
  have surrogate : (isHigh w || isLow w) = true ↔ 0xD800 ≤ w ∧ w ≤ 0xDFFF := by
    rw [Bool.or_eq_true, isHigh_iff, isLow_iff]
    omega
  unfold loneUnit
  cases units with
  | nil =>
    simp only [utf16ToUtf8, append_nil, surrogate]
    rw [if_neg nz]
    split <;> rfl
  | cons next rest =>
    simp only [isHigh_iff, startsLow_cons, Bool.eq_false_iff, ne_eq, isLow_iff] at alone
    rw [utf16ToUtf8, if_neg nz]
    simp only [surrogate]
    by_cases high : 0xD800 ≤ w ∧ w ≤ 0xDBFF
    · rw [if_pos high, if_neg (alone high), if_pos (by omega)]
    · rw [if_neg high]
      by_cases low : 0xDC00 ≤ w ∧ w ≤ 0xDFFF
      · rw [if_pos low, if_pos (by omega)]
      · rw [if_neg low, if_neg (by omega)]

@[elab_as_elim]
theorem units_induction {motive : List Nat → Prop} (nil : motive [])
    (pair : ∀ w next units, isHigh w = true → isLow next = true → motive units → motive (w :: next :: units))
    (lone : ∀ w units, (isHigh w = true → startsLow units = false) → motive units → motive (w :: units))
    (units : List Nat) : motive units := by
  generalize size : units.length = length
  induction length using Nat.strongRecOn generalizing units with
  | ind length ih =>
    cases units with
    | nil => exact nil
    | cons w rest =>
      by_cases alone : isHigh w = true → startsLow rest = false
      · grind
      · obtain ⟨high, starts⟩ := Classical.not_imp.mp alone
        cases rest with
        | nil => exact absurd rfl starts
        | cons next rest =>
          rw [Bool.not_eq_false, startsLow_cons] at starts
          refine pair w next rest high starts (ih rest.length ?_ rest rfl)
          rw [← size, length_cons, length_cons]
          omega

theorem utf16ToUtf8_append (plain : Plain before) (whole : endsHigh before = true → startsLow behind = false) :
    utf16ToUtf8 (before ++ behind) = utf16ToUtf8 before ++ utf16ToUtf8 behind := by
  induction before using units_induction with
  | nil => rfl
  | pair w next units high low ih =>
    rw [cons_append, cons_append, utf16ToUtf8_pair high low, utf16ToUtf8_pair high low, append_assoc,
      ih (fun v mem => plain v (by simp [mem])) fun ends => whole ?_]
    cases units with
    | nil => exact absurd ends Bool.false_ne_true
    | cons third units => rwa [endsHigh_cons_cons, endsHigh_cons_cons]
  | lone w units alone ih =>
    have nz := (plain w (.head _)).1
    cases units with
    | nil =>
      rw [cons_append, nil_append, utf16ToUtf8_lone nz whole, utf16ToUtf8_lone nz alone, append_assoc]
      rfl
    | cons next units =>
      rw [cons_append, utf16ToUtf8_lone nz (show isHigh w = true → startsLow (next :: units ++ behind) = false from alone), utf16ToUtf8_lone nz alone,
        append_assoc, ih (fun v mem => plain v (.tail _ mem)) fun ends => whole ?_]
      rwa [endsHigh_cons_cons]

theorem encodeUtf8_char (c : Char) : encodeUtf8 c.toNat = String.utf8EncodeChar c := by
  have top : c.val.toNat < 0x110000 := (char_lt c).1
  unfold encodeUtf8 String.utf8EncodeChar Char.toNat
  dsimp only
  have snd : c.val.toNat ≤ 0x7FF → c.val.toNat / 64 % 0x20 = c.val.toNat / 64 := by omega
  have third : c.val.toNat ≤ 0xFFFF → c.val.toNat / 4096 % 0x10 = c.val.toNat / 4096 := by omega
  have fourth : c.val.toNat / 262144 % 0x08 = c.val.toNat / 262144 := by omega
  split
  · rfl
  · split
    · rw [snd ‹_›, Nat.add_comm 0xC0, Nat.add_comm 0x80]
    · split
      · grind
      · grind

theorem utf16ToUtf8_char {c : Char} (nz : c.toNat ≠ 0) : utf16ToUtf8 (utf16Char c) = String.utf8EncodeChar c := by
  obtain ⟨top, plain⟩ := char_lt c
  unfold utf16Char
  split
  · have notHigh : isHigh c.toNat = false := by
      rw [Bool.eq_false_iff, ne_eq, isHigh_iff]
      omega
    have notLow : isLow c.toNat = false := by
      rw [Bool.eq_false_iff, ne_eq, isLow_iff]
      omega
    rw [utf16ToUtf8_lone nz fun _ => rfl, loneUnit, notHigh, notLow, utf16ToUtf8, append_nil]
    exact encodeUtf8_char c
  · have number : 0x10000 + ((0xD800 + (c.toNat - 0x10000) / 1024 - 0xD800) * 1024 +
        (0xDC00 + (c.toNat - 0x10000) % 1024 - 0xDC00)) = c.toNat := by omega
    rw [utf16ToUtf8_pair (isHigh_iff.mpr (by omega)) (isLow_iff.mpr (by omega)), utf16ToUtf8, append_nil, number]
    exact encodeUtf8_char c

theorem utf16_plain (noZero : ∀ c ∈ text, c.toNat ≠ 0) : Plain (utf16 text) := by
  intro w mem
  obtain ⟨c, inText, lt, zero, -⟩ := mem_utf16 mem
  exact ⟨fun isZero => noZero c inText (zero isZero), lt⟩

theorem utf16ToUtf8_utf16 (noZero : ∀ c ∈ text, c.toNat ≠ 0) : utf16ToUtf8 (utf16 text) = utf8 text := by
  induction text with
  | nil => rfl
  | cons c rest ih =>
    have plain : Plain (utf16Char c) := fun w mem => utf16_plain noZero w (mem_append_left _ mem)
    have onward := ih fun d mem => noZero d (.tail _ mem)
    rw [show utf16 (c :: rest) = utf16Char c ++ utf16 rest from flatMap_cons, utf16ToUtf8_append plain, onward,
      utf16ToUtf8_char (noZero c (.head _))]
    · rfl
    · exact fun _ => (utf16_spec rest).2.1

/-! ## Lengths -/

/-- The bytes of a unit in a whole text; a unit of a pair has half of four. -/
def weight (w : Nat) : Nat := if w < 0x80 then 1 else if w < 0x800 then 2 else if 0xD800 ≤ w ∧ w ≤ 0xDFFF then 2 else 3

def bytes (units : List Nat) : Nat := (units.map weight).sum

theorem weight_bounds (w : Nat) : 1 ≤ weight w ∧ (weight w = 1 ↔ w < 0x80) := by
  unfold weight
  split
  · omega
  · split
    · omega
    · split <;> omega

theorem weight_surrogate (surrogate : 0xD800 ≤ w ∧ w ≤ 0xDFFF) : weight w = 2 := by
  unfold weight
  rw [if_neg (by omega), if_neg (by omega), if_pos surrogate]

theorem bytes_cons : bytes (w :: units) = weight w + bytes units := by
  unfold bytes
  rw [map_cons, sum_cons]

theorem bytes_append : bytes (before ++ behind) = bytes before + bytes behind := by
  unfold bytes
  rw [map_append, sum_append]

theorem length_le_bytes (units : List Nat) :
    units.length ≤ bytes units ∧ (bytes units = units.length ↔ ∀ w ∈ units, w < 0x80) := by
  induction units with
  | nil => exact ⟨le_rfl, iff_of_true rfl (forall_mem_nil _)⟩
  | cons w rest ih =>
    obtain ⟨pos, ascii⟩ := weight_bounds w
    rw [bytes_cons, length_cons, forall_mem_cons, ← ascii, ← ih.2]
    omega

theorem startsLow_of_ascii (ascii : ∀ w ∈ units, w < 0x80) : startsLow units = false := by
  cases units with
  | nil => rfl
  | cons w rest =>
    have lt := ascii w (.head _)
    rw [startsLow_cons, Bool.eq_false_iff, ne_eq, isLow_iff]
    omega

theorem endsHigh_split (ends : endsHigh units = true) : ∃ front high, units = front ++ [high] ∧ isHigh high = true := by
  rcases eq_nil_or_concat units with rfl | ⟨front, high, rfl⟩
  · exact absurd ends Bool.false_ne_true
  · rw [concat_eq_append, endsHigh_append (cons_ne_nil _ _), endsHigh_singleton] at ends
    exact ⟨front, high, concat_eq_append .., ends⟩

theorem encodeUtf8_lone (lt : w < 65536) : (encodeUtf8 (loneUnit w)).length = weight w + (isLow w).toNat + (isHigh w).toNat := by
  have lengths : ∀ codepoint < 65536, (encodeUtf8 codepoint).length =
      if codepoint ≤ 0x7F then 1 else if codepoint ≤ 0x7FF then 2 else 3 := by
    intro codepoint bound
    unfold encodeUtf8
    split
    · rfl
    · split
      · rfl
      · rw [if_pos (by omega)]
        rfl
  unfold loneUnit
  cases high : isHigh w with
  | true =>
    have surrogate := isHigh_iff.mp high
    rw [not_low_of_high high, weight_surrogate (by omega)]
    rfl
  | false =>
    cases low : isLow w with
    | true =>
      have surrogate := isLow_iff.mp low
      rw [weight_surrogate (by omega)]
      rfl
    | false =>
      rw [Bool.eq_false_iff, ne_eq, isHigh_iff] at high
      rw [Bool.eq_false_iff, ne_eq, isLow_iff] at low
      simp only [Bool.or_self, Bool.false_eq_true, if_false, Bool.toNat_false, lengths w lt]
      unfold weight
      rcases Nat.lt_or_ge w 0x80 with ascii | wide
      · rw [if_pos (show w ≤ 0x7F by omega), if_pos ascii]
      · rw [if_neg (show ¬ w ≤ 0x7F by omega), if_neg (show ¬ w < 0x80 by omega)]
        rcases Nat.lt_or_ge w 0x800 with two | three
        · rw [if_pos (show w ≤ 0x7FF by omega), if_pos two]
        · grind

theorem utf16ToUtf8_length (linked : Linked units) (plain : Plain units) :
    (utf16ToUtf8 units).length = bytes units + (startsLow units).toNat + (endsHigh units).toNat := by
  induction units using units_induction with
  | nil => rfl
  | pair w next units high low ih =>
    have onward := ih linked.of_cons.of_cons plain.of_cons.of_cons
    have weights : weight w = 2 ∧ weight next = 2 := by
      have first := isHigh_iff.mp high
      have snd := isLow_iff.mp low
      exact ⟨weight_surrogate (by omega), weight_surrogate (by omega)⟩
    have four : (encodeUtf8 (0x10000 + ((w - 0xD800) * 1024 + (next - 0xDC00)))).length = 4 := by
      unfold encodeUtf8
      rw [if_neg (by omega), if_neg (by omega), if_neg (by omega)]
      rfl
    have notHigh : isHigh next = false := by
      rw [isLow_iff] at low
      rw [Bool.eq_false_iff, ne_eq, isHigh_iff]
      omega
    have ends : startsLow units = false ∧ endsHigh (w :: next :: units) = endsHigh units := by
      cases units with
      | nil => exact ⟨rfl, notHigh⟩
      | cons third units =>
        have cut := (isChain_cons_cons.mp (isChain_cons_cons.mp linked).2).1
        exact ⟨cut.symm.trans notHigh, by rw [endsHigh_cons_cons, endsHigh_cons_cons]⟩
    rw [utf16ToUtf8_pair high low, length_append, four, onward, ends.1, ends.2, startsLow_cons, not_low_of_high high,
      bytes_cons, bytes_cons, weights.1, weights.2]
    omega
  | lone w units alone ih =>
    have onward := ih linked.of_cons plain.of_cons
    obtain ⟨nz, lt⟩ := plain w (.head _)
    have ends : startsLow units = false ∧ (isHigh w).toNat + (endsHigh units).toNat = (endsHigh (w :: units)).toNat := by
      cases units with
      | nil => exact ⟨rfl, rfl⟩
      | cons next units =>
        have cut : isHigh w = startsLow (next :: units) := (isChain_cons_cons.mp linked).1
        have notLow : startsLow (next :: units) = false := by
          by_contra low
          rw [Bool.not_eq_false] at low
          exact absurd (alone (cut.trans low)) (by simp [low])
        rw [cut, notLow, endsHigh_cons_cons]
        exact ⟨rfl, Nat.zero_add _⟩
    rw [utf16ToUtf8_lone nz alone, length_append, encodeUtf8_lone lt, onward, ends.1, startsLow_cons, bytes_cons,
      ← ends.2, Bool.toNat_false]
    omega

/-! ## The parts of a name -/

/-- What the buffer spells when every part but the last fills its thirteen places. -/
def spell : List Name → Name
  | [] => []
  | part :: rest => part ++ (spell rest).drop (part.length - 13)

def partTexts : Nat → List Nat → List Name
  | 0, _ => []
  | count + 1, units => utf16ToUtf8 (units.take 13) :: partTexts count (units.drop 13)

/-- So many parts are needed for the units. -/
def Fills (count : Nat) (units : List Nat) : Prop := 13 * count < units.length ∧ units.length ≤ 13 * (count + 1)

theorem Fills.split (fills : Fills (count + 1) units) : ∃ first rest, units = first ++ rest ∧ first.length = 13 ∧ Fills count rest ∧
    partTexts (count + 2) units = utf16ToUtf8 first :: partTexts (count + 1) rest ∧
    units.take (13 * (count + 1)) = first ++ rest.take (13 * count) := by
  obtain ⟨low, high⟩ := fills
  refine ⟨units.take 13, units.drop 13, (take_append_drop 13 units).symm, ?_, ⟨?_, ?_⟩, rfl, ?_⟩
  · rw [length_take]
    omega
  · rw [length_drop]
    omega
  · rw [length_drop]
    omega
  · rw [Nat.mul_succ, Nat.add_comm, take_add]

theorem partTexts_single (fills : Fills 0 units) : partTexts 1 units = [utf16ToUtf8 units] := by
  rw [partTexts, partTexts, take_of_length_le fills.2]

theorem spell_single (part : Name) : spell [part] = part := by
  rw [spell, spell, drop_nil, append_nil]

theorem Fills.nonempty (fills : Fills count units) : units ≠ [] := by
  rintro rfl
  exact absurd fills.1 (Nat.not_lt_zero _)

theorem spell_length_le (fills : Fills count units) (linked : Linked units) (plain : Plain units) (whole : endsHigh units = false) :
    (spell (partTexts (count + 1) units)).length ≤ bytes units + (startsLow units).toNat := by
  induction count generalizing units with
  | zero =>
    rw [partTexts_single fills, spell_single, utf16ToUtf8_length linked plain, whole]
    exact le_rfl
  | succ count ih =>
    obtain ⟨first, rest, rfl, full, fillsRest, texts, -⟩ := fills.split
    have nonempty : first ≠ [] := by
      rintro rfl
      exact absurd full (by decide)
    rw [endsHigh_append fillsRest.nonempty] at whole
    have tail := ih fillsRest linked.right plain.right whole
    have cut := linked.cut nonempty fillsRest.nonempty
    have starts : startsLow (first ++ rest) = startsLow first := by
      unfold startsLow
      rw [head?_append_of_ne_nil _ nonempty]
    have pos := (length_le_bytes rest).1
    obtain ⟨least, ascii⟩ := length_le_bytes first
    -- a piece that ends in half a pair is not ASCII
    have high : endsHigh first = true → first.length < bytes first := by
      intro ends
      refine lt_of_le_of_ne least fun eq => ?_
      obtain ⟨front, w, rfl, isHigh⟩ := endsHigh_split ends
      have := ascii.mp eq.symm w (by simp)
      rw [isHigh_iff] at isHigh
      omega
    have length := utf16ToUtf8_length linked.left plain.left
    have some := fillsRest.1
    rw [texts, spell, length_append, length_drop, length, starts, bytes_append]
    rw [← cut] at tail
    cases ends : endsHigh first with
    | true =>
      have := high ends
      simp only [ends, Bool.toNat_true] at tail ⊢
      omega
    | false =>
      simp only [ends, Bool.toNat_false] at tail ⊢
      omega

theorem lone_ne_pair {some others : Name} (high : isHigh w = true) (low : isLow next = true) :
    utf16ToUtf8 [w] ++ some ≠ encodeUtf8 (0x10000 + ((w - 0xD800) * 1024 + (next - 0xDC00))) ++ others := by
  intro eq
  have first := congrArg (List.head? ·) eq
  rw [isHigh_iff] at high
  rw [isLow_iff] at low
  have lone : utf16ToUtf8 [w] = [0xEF, 0xBF, 0xBD] := by
    rw [utf16ToUtf8, if_neg (by omega), if_pos (by omega)]
    rfl
  simp only [lone, encodeUtf8] at first
  rw [if_neg (by omega), if_neg (by omega), if_neg (by omega)] at first
  have number := congrArg UInt8.toNat (Option.some.inj first)
  rw [UInt8.toNat_ofNat'] at number
  change 239 = _ at number
  omega

/-- A first part of ASCII characters leaves the others where they should be; any other one spoils the name. -/
theorem spell_eq_iff (fills : Fills count units) (linked : Linked units) (plain : Plain units) (whole : endsHigh units = false) :
    spell (partTexts (count + 1) units) = utf16ToUtf8 units ↔ ∀ w ∈ units.take (13 * count), w < 0x80 := by
  induction count generalizing units with
  | zero =>
    rw [partTexts_single fills, spell_single]
    exact iff_of_true rfl fun w mem => nomatch mem
  | succ count ih =>
    obtain ⟨first, rest, rfl, full, fillsRest, texts, front⟩ := fills.split
    have nonempty : first ≠ [] := by
      rintro rfl
      exact absurd full (by decide)
    rw [endsHigh_append fillsRest.nonempty] at whole
    have cut := linked.cut nonempty fillsRest.nonempty
    rw [texts, spell, front, forall_mem_append]
    cases ends : endsHigh first with
    | false =>
      rw [ends] at cut
      rw [utf16ToUtf8_append plain.left (by simp [ends]), append_cancel_left_eq]
      have length := utf16ToUtf8_length linked.left plain.left
      rw [ends, Bool.toNat_false, Nat.add_zero] at length
      by_cases ascii : ∀ w ∈ first, w < 0x80
      · have exactly : (utf16ToUtf8 first).length - 13 = 0 := by
          rw [length, (length_le_bytes first).2.mpr ascii, startsLow_of_ascii ascii]
          exact Nat.sub_eq_zero_of_le (by simp [full])
        rw [exactly, drop_zero, and_iff_right ascii]
        exact ih fillsRest linked.right plain.right whole
      · refine iff_of_false (fun eq => ?_) fun both => ascii both.1
        have short := spell_length_le fillsRest linked.right plain.right whole
        have correct := utf16ToUtf8_length linked.right plain.right
        have some := fillsRest.1
        have least := length_le_bytes rest
        have more := length_le_bytes first
        have strict : bytes first ≠ first.length := mt more.2.mp ascii
        rw [← cut, Bool.toNat_false, Nat.add_zero] at short
        rw [← cut, whole, ← eq, length_drop, length] at correct
        omega
    | true =>
      rw [ends] at cut
      refine iff_of_false (fun eq => ?_) fun both => ?_
      · obtain ⟨init, high, rfl, isHigh⟩ := endsHigh_split ends
        obtain ⟨low, tail, rfl⟩ := exists_cons_of_ne_nil fillsRest.nonempty
        have before : ∀ behind, utf16ToUtf8 (init ++ high :: behind) = utf16ToUtf8 init ++ utf16ToUtf8 (high :: behind) :=
          fun behind => utf16ToUtf8_append plain.left.left fun _ => show startsLow (high :: behind) = false from not_low_of_high isHigh
        rw [append_assoc, singleton_append, before, before, append_assoc, append_cancel_left_eq,
          utf16ToUtf8_pair isHigh cut.symm] at eq
        exact lone_ne_pair isHigh cut.symm eq
      · obtain ⟨init, high, rfl, isHigh⟩ := endsHigh_split ends
        have := both.1 high (by simp)
        rw [isHigh_iff] at isHigh
        omega

/-! ## The buffer -/

/-- The bytes of the buffer: of two parts over a place the first has it. -/
def overlay : List Name → Bytes
  | [], _ => 0
  | part :: rest, i => if i < part.length then part.getD i 0 else if 13 ≤ i then overlay rest (i - 13) else 0

/-- The buffer holds the parts from a number on. -/
structure Layered (parts : List Name) (k : Nat) (state : LongName) : Prop where
  buffer : ∀ i, state.buffer i = if 13 * k ≤ i then overlay parts (i - 13 * k) else 0
  ended : ∀ i, state.charsFilled ≤ i → state.buffer i = 0

def slotText (slot : Slot) : Name := utf16ToUtf8 slot.part

theorem place_layered {k : Nat} (few : k < 20) (short : part.length ≤ 39) (layered : Layered parts (k + 1) state) :
    Layered (part :: parts) k (state.place (k * 13) part) := by
  have fits : min part.length (LongName.capacity - 1 - k * 13) = part.length := by
    unfold LongName.capacity
    omega
  have copied : ∀ i, (state.place (k * 13) part).buffer i =
      if k * 13 ≤ i ∧ i < k * 13 + part.length then part.getD (i - k * 13) 0 else state.buffer i := by
    intro i
    unfold LongName.place
    dsimp only
    rw [fits]
    by_cases last : i = max state.charsFilled (k * 13 + part.length)
    · rw [last, Function.update_self, if_neg (by omega), layered.ended _ (le_max_left ..)]
    · rw [Function.update_of_ne last]
  have filled : (state.place (k * 13) part).charsFilled = max state.charsFilled (k * 13 + part.length) := by
    unfold LongName.place
    rw [fits]
  refine ⟨fun i => ?_, fun i behind => ?_⟩
  · rw [copied, layered.buffer]
    by_cases low : 13 * k ≤ i
    · rw [if_pos low, overlay, show k * 13 = 13 * k from Nat.mul_comm ..]
      by_cases hin : i - 13 * k < part.length
      · rw [if_pos hin, if_pos (by omega)]
      · grind
    · rw [if_neg low, if_neg (by omega), if_neg (by omega)]
  · rw [filled] at behind
    rw [copied, if_neg (by omega)]
    exact layered.ended i (by omega)

theorem encodeUtf8_length_le (codepoint : Nat) : (encodeUtf8 codepoint).length ≤ if codepoint < 65536 then 3 else 4 := by
  unfold encodeUtf8
  repeat' split
  all_goals simp only [length_cons, length_nil]
  all_goals omega

theorem loneUnit_lt (lt : w < 65536) : loneUnit w < 65536 := by
  unfold loneUnit
  split <;> omega

theorem utf16ToUtf8_length_le (plain : Plain units) : (utf16ToUtf8 units).length ≤ 3 * units.length := by
  induction units using units_induction with
  | nil => exact le_rfl
  | pair w next units high low ih =>
    have onward := ih plain.of_cons.of_cons
    have first := encodeUtf8_length_le (0x10000 + ((w - 0xD800) * 1024 + (next - 0xDC00)))
    rw [if_neg (by omega)] at first
    rw [utf16ToUtf8_pair high low, length_append, length_cons, length_cons]
    omega
  | lone w units alone ih =>
    obtain ⟨nz, lt⟩ := plain w (.head _)
    have onward := ih plain.of_cons
    have first := encodeUtf8_length_le (loneUnit w)
    rw [if_pos (loneUnit_lt lt)] at first
    rw [utf16ToUtf8_lone nz alone, length_append, length_cons]
    omega

theorem slotPart_spec (slot : Slot) : slot.part.length ≤ 13 ∧ Plain slot.part ∧ ∀ w ∈ slot.part, w ≠ 0xFFFF := by
  have words : ∀ low high, slot.word low high < 65536 := by
    intro low high
    have := (slot low).toNat_lt
    have := (slot high).toNat_lt
    unfold Slot.word
    omega
  have lt : ∀ w ∈ slot.name1 ++ slot.name2 ++ slot.name3, w < 65536 := by
    simp only [Slot.name1, Slot.name2, Slot.name3, forall_mem_append, forall_mem_cons, words, true_and]
    exact ⟨⟨forall_mem_nil _, forall_mem_nil _⟩, forall_mem_nil _⟩
  have kept : ∀ field : List Nat, ∀ w ∈ field.takeWhile (!endsPart ·), w ∈ field ∧ w ≠ 0 ∧ w ≠ 0xFFFF := by
    intro field w mem
    have goesOn := mem_takeWhile_imp mem
    refine ⟨takeWhile_subset _ mem, ?_, ?_⟩ <;> rintro rfl <;> exact absurd goesOn (by decide)
  have shorter : ∀ field : List Nat, (field.takeWhile (!endsPart ·)).length ≤ field.length :=
    fun field => (takeWhile_sublist _).length_le
  have spec : ∀ w ∈ slot.part, w ∈ slot.name1 ++ slot.name2 ++ slot.name3 ∧ w ≠ 0 ∧ w ≠ 0xFFFF := by
    intro w mem
    simp only [Slot.part, mem_append] at mem ⊢
    rcases mem with (first | snd) | third
    · grind
    · grind
    · exact ⟨.inr (kept _ w third).1, (kept _ w third).2⟩
  refine ⟨?_, fun w mem => ⟨(spec w mem).2.1, lt w (spec w mem).1⟩, fun w mem => (spec w mem).2.2⟩
  have first : slot.name1.length = 5 := rfl
  have snd : slot.name2.length = 6 := rfl
  have third : slot.name3.length = 2 := rfl
  have := shorter slot.name1
  have := shorter slot.name2
  have := shorter slot.name3
  rw [Slot.part, length_append, length_append]
  omega

theorem slotText_length_le (slot : Slot) : (slotText slot).length ≤ 39 := by
  obtain ⟨short, plain, -⟩ := slotPart_spec slot
  have := utf16ToUtf8_length_le plain
  rw [slotText]
  omega

/-- One slot puts its text before what the buffer holds; the slot of the last part clears the buffer. -/
theorem take_layered {k : Nat} {slot : Slot} {isLast : Bool} (few : k < 20)
    (first : slot 0 = UInt8.ofNat (k + 1) ||| (if isLast then 0x40 else 0))
    (layered : if isLast then parts = [] else Layered parts (k + 1) state) :
    Layered (slotText slot :: parts) k (state.take slot) ∧ (state.take slot).haveLfn = true := by
  obtain ⟨-, -, index, last⟩ := seq_facts (k + 1) (by omega) (Nat.succ_ne_zero k) isLast _ first
  unfold LongName.take
  dsimp only
  rw [index, last, if_neg (by omega), Nat.add_sub_cancel]
  refine ⟨place_layered few (slotText_length_le slot) ?_, rfl⟩
  cases isLast with
  | false => exact layered
  | true =>
    obtain rfl : parts = [] := layered
    refine ⟨fun i => ?_, fun i _ => rfl⟩
    simp only [overlay, ite_self]
    rfl

theorem foldl_layered {slots : List Slot} (few : slots.length < 20)
    (firsts : ∀ i, ∀ hin : i < slots.length, slots[i] 0 = UInt8.ofNat (slots.length - i))
    (layered : Layered parts slots.length state) (haveLfn : state.haveLfn = true) :
    Layered ((slots.map slotText).reverse ++ parts) 0 (slots.foldl LongName.take state) ∧
      (slots.foldl LongName.take state).haveLfn = true := by
  induction slots generalizing parts state with
  | nil => exact ⟨layered, haveLfn⟩
  | cons slot rest ih =>
    have first : slot 0 = UInt8.ofNat (rest.length + 1) ||| (if false then 0x40 else 0) := by
      simpa using firsts 0 (Nat.succ_pos _)
    obtain ⟨next, still⟩ := take_layered (Nat.lt_of_succ_lt few) first layered
    rw [foldl_cons, map_cons, reverse_cons, append_assoc, singleton_append]
    refine ih (Nat.lt_of_succ_lt few) (fun i hin => ?_) next still
    have onward := firsts (i + 1) (Nat.succ_lt_succ hin)
    rwa [getElem_cons_succ, length_cons, Nat.add_sub_add_right] at onward

theorem LongGroup.layered {slots : List Slot} (group : LongGroup slots) (nonempty : slots ≠ []) (state : LongName) :
    Layered (slots.map slotText).reverse 0 (slots.foldl LongName.take state) ∧
      (slots.foldl LongName.take state).haveLfn = true := by
  obtain ⟨few, all⟩ := group
  obtain ⟨slot, rest, rfl⟩ := exists_cons_of_ne_nil nonempty
  rw [length_cons] at few
  have first : slot 0 = UInt8.ofNat (rest.length + 1) ||| (if true then 0x40 else 0) := by
    simpa using (all 0 (Nat.succ_pos _)).2
  obtain ⟨next, still⟩ := @take_layered [] state rest.length slot true (by omega) first rfl
  rw [foldl_cons, map_cons, reverse_cons]
  refine foldl_layered (by omega) (fun i hin => ?_) next still
  have onward := (all (i + 1) (Nat.succ_lt_succ hin)).2
  rwa [getElem_cons_succ, if_neg (Nat.succ_ne_zero i), length_cons, Nat.add_sub_add_right, UInt8.or_zero] at onward

theorem Layered.text_eq (layered : Layered parts 0 state) :
    state.text = cString ((range LongName.capacity).map (overlay parts)) := by
  unfold LongName.text
  congr 2
  funext i
  rw [layered.buffer, if_pos (Nat.zero_le _)]
  rfl

/-! ## Parts without the noncharacter -/

theorem overlay_eq_spell (fills : Fills count units) (linked : Linked units) (plain : Plain units) (i : Nat) :
    overlay (partTexts (count + 1) units) i = (spell (partTexts (count + 1) units)).getD i 0 := by
  induction count generalizing units i with
  | zero =>
    rw [partTexts_single fills, spell_single, overlay, overlay]
    split
    · rfl
    · rw [ite_self, getD_eq_default _ _ (by omega)]
  | succ count ih =>
    obtain ⟨first, rest, rfl, full, fillsRest, texts, -⟩ := fills.split
    have length := utf16ToUtf8_length linked.left plain.left
    have least := (length_le_bytes first).1
    rw [texts, overlay, spell]
    split
    case isTrue hin => rw [getD_append _ _ _ _ hin]
    case isFalse behind =>
      rw [if_pos (by omega), ih fillsRest linked.right plain.right, getD_append_right _ _ _ _ (by omega)]
      simp only [getD_eq_getElem?_getD, getElem?_drop]
      rw [show (utf16ToUtf8 first).length - 13 + (i - (utf16ToUtf8 first).length) = i - 13 by omega]

theorem encodeUtf8_nonzero {codepoint : Nat} (nz : codepoint ≠ 0) (lt : codepoint < 0x110000) {b : UInt8}
    (mem : b ∈ encodeUtf8 codepoint) : b ≠ 0 := by
  have byte : ∀ n : Nat, n % 256 ≠ 0 → UInt8.ofNat n ≠ 0 := by
    intro n residue eq
    have number := congrArg UInt8.toNat eq
    exact residue number
  unfold encodeUtf8 at mem
  repeat' split at mem
  all_goals
    simp only [mem_cons, not_mem_nil, or_false] at mem
    rcases mem with rfl | rfl | rfl | rfl <;> exact byte _ (by omega)

theorem utf16ToUtf8_nonzero (plain : Plain units) {b : UInt8} (mem : b ∈ utf16ToUtf8 units) : b ≠ 0 := by
  induction units using units_induction with
  | nil => exact nomatch mem
  | pair w next units high low ih =>
    rw [utf16ToUtf8_pair high low, mem_append] at mem
    rw [isHigh_iff] at high
    rw [isLow_iff] at low
    rcases mem with first | later
    · exact encodeUtf8_nonzero (by omega) (by omega) first
    · exact ih plain.of_cons.of_cons later
  | lone w units alone ih =>
    obtain ⟨nz, lt⟩ := plain w (.head _)
    rw [utf16ToUtf8_lone nz alone, mem_append] at mem
    rcases mem with first | later
    · have bound := loneUnit_lt lt
      refine encodeUtf8_nonzero ?_ (by omega) first
      unfold loneUnit
      split <;> omega
    · exact ih plain.of_cons later

theorem spell_spec (fills : Fills count units) (plain : Plain units) :
    (spell (partTexts (count + 1) units)).length ≤ 13 * count + 39 ∧ ∀ b ∈ spell (partTexts (count + 1) units), b ≠ 0 := by
  induction count generalizing units with
  | zero =>
    have := utf16ToUtf8_length_le plain
    have := fills.2
    rw [partTexts_single fills, spell_single]
    exact ⟨by omega, fun b => utf16ToUtf8_nonzero plain⟩
  | succ count ih =>
    obtain ⟨first, rest, rfl, full, fillsRest, texts, -⟩ := fills.split
    obtain ⟨length, nz⟩ := ih fillsRest plain.right
    have := utf16ToUtf8_length_le plain.left
    rw [texts, spell, length_append, length_drop]
    refine ⟨by omega, fun b mem => ?_⟩
    rcases mem_append.mp mem with inFirst | later
    · exact utf16ToUtf8_nonzero plain.left inFirst
    · exact nz b (mem_of_mem_drop later)

theorem cString_getD {name : Name} (short : name.length < LongName.capacity) (nz : ∀ b ∈ name, b ≠ 0) :
    cString ((range LongName.capacity).map fun i => name.getD i 0) = name := by
  have places : LongName.capacity = name.length + (1 + (LongName.capacity - name.length - 1)) := by omega
  have front : (range name.length).map (fun i => name.getD i 0) = name := by
    apply ext_getElem
    · simp
    · grind
  unfold cString
  rw [places, range_add, map_append, front, takeWhile_append_of_pos]
  · rw [range_add]
    simp
  · intro b mem
    simpa using nz b mem

/-! ## Parts with the noncharacter -/

/-- No three bytes in a row spell the character 0xFFFF. -/
def Unmarked (name : Bytes) : Prop := ∀ i, name i = 0xEF → ¬ (name (i + 1) = 0xBF ∧ name (i + 2) = 0xBF)

/-- The bytes behind each 0xEF belong to its character, which is not 0xFFFF. -/
def UnmarkedText (name : Name) : Prop :=
  ∀ i, name.getD i 0 = 0xEF → i + 2 < name.length ∧ ¬ (name.getD (i + 1) 0 = 0xBF ∧ name.getD (i + 2) 0 = 0xBF)

theorem UnmarkedText.append {first snd : Name} (unmarked : UnmarkedText first) (more : UnmarkedText snd) :
    UnmarkedText (first ++ snd) := by
  intro i lead
  rw [length_append]
  rcases Nat.lt_or_ge i first.length with hin | behind
  · rw [getD_append _ _ _ _ hin] at lead
    obtain ⟨fits, other⟩ := unmarked i lead
    rw [getD_append _ _ _ _ (by omega), getD_append _ _ _ _ fits]
    exact ⟨by omega, other⟩
  · rw [getD_append_right _ _ _ _ behind] at lead
    obtain ⟨fits, other⟩ := more _ lead
    rw [getD_append_right _ _ _ _ (by omega), getD_append_right _ _ _ _ (by omega),
      show i + 1 - first.length = i - first.length + 1 by omega, show i + 2 - first.length = i - first.length + 2 by omega]
    exact ⟨by omega, other⟩

theorem encodeUtf8_unmarked {codepoint : Nat} (other : codepoint ≠ 0xFFFF) (lt : codepoint < 0x110000) :
    UnmarkedText (encodeUtf8 codepoint) := by
  have byte : ∀ n k : Nat, UInt8.ofNat n = UInt8.ofNat k ↔ n % 256 = k % 256 := by
    intro n k
    rw [← UInt8.toNat_inj, UInt8.toNat_ofNat', UInt8.toNat_ofNat']
  have lead : ∀ n : Nat, UInt8.ofNat n = 0xEF ↔ n % 256 = 0xEF := fun n => byte n 0xEF
  have behind : ∀ n : Nat, UInt8.ofNat n = 0xBF ↔ n % 256 = 0xBF := fun n => byte n 0xBF
  have past : ¬ (0 : UInt8) = 0xEF := by decide
  unfold encodeUtf8
  repeat' split
  all_goals
    intro i isLead
    rcases i with _ | _ | _ | _ | i <;>
      simp only [getD_cons_zero, getD_cons_succ, getD_nil, lead, behind, past, length_cons, length_nil] at isLead ⊢ <;>
      omega

theorem utf16ToUtf8_unmarked (plain : Plain units) (others : ∀ w ∈ units, w ≠ 0xFFFF) : UnmarkedText (utf16ToUtf8 units) := by
  induction units using units_induction with
  | nil => exact fun i lead => absurd (show (0 : UInt8) = 0xEF from lead) (by decide)
  | pair w next units high low ih =>
    have onward := ih plain.of_cons.of_cons fun v mem => others v (by simp [mem])
    rw [utf16ToUtf8_pair high low]
    rw [isHigh_iff] at high
    rw [isLow_iff] at low
    exact (encodeUtf8_unmarked (by omega) (by omega)).append onward
  | lone w units alone ih =>
    obtain ⟨nz, lt⟩ := plain w (.head _)
    have onward := ih plain.of_cons fun v mem => others v (.tail _ mem)
    have bound := loneUnit_lt lt
    rw [utf16ToUtf8_lone nz alone]
    refine UnmarkedText.append (encodeUtf8_unmarked ?_ (by omega)) onward
    have := others w (.head _)
    unfold loneUnit
    split <;> omega

theorem overlay_unmarked (unmarked : ∀ part ∈ parts, UnmarkedText part) : Unmarked (overlay parts) := by
  induction parts with
  | nil => exact fun i lead => absurd (show (0 : UInt8) = 0xEF from lead) (by decide)
  | cons part rest ih =>
    have onward := ih fun other mem => unmarked other (.tail _ mem)
    intro i lead
    rw [overlay] at lead
    split at lead
    case isTrue hin =>
      obtain ⟨fits, other⟩ := unmarked part (.head _) i lead
      rwa [overlay, overlay, if_pos (by omega), if_pos fits]
    case isFalse behind =>
      split at lead
      case isTrue past =>
        have other := onward _ lead
        rwa [overlay, overlay, if_neg (show ¬ i + 1 < part.length by omega), if_neg (show ¬ i + 2 < part.length by omega),
          if_pos (show 13 ≤ i + 1 by omega), if_pos (show 13 ≤ i + 2 by omega), show i + 1 - 13 = i - 13 + 1 by omega,
          show i + 2 - 13 = i - 13 + 2 by omega]
      case isFalse => exact absurd lead (by decide)

/-! ## Names laid out in slots -/

/-- The long slots of a name, the last part first, with a terminator and padding where there is room. -/
structure LaidOut (units : List Nat) (slots : List Slot) : Prop where
  group : LongGroup slots
  count : slots.length = (units.length + 12) / 13
  fields : ∀ i, ∀ inside : i < slots.length, slots[i].name1 ++ slots[i].name2 ++ slots[i].name3 =
    ((units ++ 0x0000 :: replicate 12 0xFFFF).drop (13 * (slots.length - 1 - i))).take 13

/-- The parts before the last are ASCII, and the noncharacter that pads a slot does not occur. -/
def Spellable (units : List Nat) : Prop := 0xFFFF ∉ units ∧ ∀ w ∈ units.take (13 * ((units.length - 1) / 13)), w < 0x80

instance (units : List Nat) : Decidable (Spellable units) := instDecidableAnd

theorem partTexts_length (count : Nat) (units : List Nat) : (partTexts count units).length = count := by
  induction count generalizing units with
  | zero => rfl
  | succ count ih => rw [partTexts, length_cons, ih]

theorem partTexts_getElem {k : Nat} (hin : k < (partTexts count units).length) :
    (partTexts count units)[k] = utf16ToUtf8 ((units.drop (13 * k)).take 13) := by
  induction count generalizing units k with
  | zero => exact absurd hin (Nat.not_lt_zero _)
  | succ count ih =>
    cases k with
    | zero => rfl
    | succ k =>
      have onward := @ih (units.drop 13) k (Nat.lt_of_succ_lt_succ hin)
      rwa [drop_drop, Nat.add_comm, ← Nat.mul_succ] at onward

variable {slots : List Slot}

theorem LaidOut.texts (laidOut : LaidOut units slots) (plain : Plain units) (others : 0xFFFF ∉ units) :
    (slots.map slotText).reverse = partTexts slots.length units := by
  apply ext_getElem
  · rw [length_reverse, length_map, partTexts_length]
  · intro k low high
    rw [partTexts_length] at high
    have fields := laidOut.fields (slots.length - 1 - k) (by omega)
    rw [show slots.length - 1 - (slots.length - 1 - k) = k by omega, drop_append, take_append] at fields
    simp only [getElem_reverse, getElem_map, length_map, partTexts_getElem]
    rw [slotText, Slot.part_eq fields]
    · intro w mem
      have inUnits := mem_of_mem_drop (mem_of_mem_take mem)
      have nz := (plain w inUnits).1
      have other : w ≠ 0xFFFF := fun eq => others (eq ▸ inUnits)
      simp [endsPart, nz, other]
    · intro w mem
      have inPad := mem_of_mem_drop (mem_of_mem_take mem)
      rcases mem_cons.mp inPad with rfl | padding
      · rfl
      · rw [eq_of_mem_replicate padding]
        rfl

theorem cString_getElem {f : Nat → UInt8} {n i : Nat} (hin : i < (cString ((range n).map f)).length) :
    (cString ((range n).map f))[i] = f i := by
  have isPrefix : cString ((range n).map f) <+: (range n).map f := takeWhile_prefix _
  rw [isPrefix.getElem hin, getElem_map, getElem_range]

theorem Layered.unmarked (layered : Layered parts 0 state) (unmarked : ∀ part ∈ parts, UnmarkedText part) (before behind : Name) :
    state.text ≠ before ++ [0xEF, 0xBF, 0xBF] ++ behind := by
  intro eq
  have at_ : ∀ i b, (before ++ [0xEF, 0xBF, 0xBF] ++ behind)[i]? = some b → overlay parts i = b := by
    intro i b hf
    rw [← eq, layered.text_eq] at hf
    obtain ⟨hin, rfl⟩ := List.getElem?_eq_some_iff.mp hf
    exact (cString_getElem hin).symm
  refine overlay_unmarked unmarked before.length (at_ _ _ ?_) ⟨at_ _ _ ?_, at_ _ _ ?_⟩ <;> simp

theorem utf8_split (mem : 0xFFFF ∈ utf16 text) : ∃ before behind, utf8 text = before ++ [0xEF, 0xBF, 0xBF] ++ behind := by
  obtain ⟨c, inText, -, -, marks⟩ := mem_utf16 mem
  obtain ⟨front, back, rfl⟩ := append_of_mem inText
  refine ⟨utf8 front, utf8 back, ?_⟩
  have encoded : String.utf8EncodeChar c = [0xEF, 0xBF, 0xBF] := by
    rw [← encodeUtf8_char, marks.mp rfl]
    rfl
  unfold utf8
  rw [flatMap_append, flatMap_cons, encoded, append_assoc]

theorem LaidOut.text_iff (laidOut : LaidOut (utf16 text) slots) (noZero : ∀ c ∈ text, c.toNat ≠ 0) (nonempty : text ≠ [])
    (state : LongName) : (slots.foldl LongName.take state).haveLfn = true ∧
      ((slots.foldl LongName.take state).text = utf8 text ↔ Spellable (utf16 text)) := by
  have plain := utf16_plain noZero
  obtain ⟨linked, -, whole⟩ := utf16_spec text
  have some : utf16 text ≠ [] := by
    obtain ⟨c, rest, rfl⟩ := exists_cons_of_ne_nil nonempty
    rw [show utf16 (c :: rest) = utf16Char c ++ utf16 rest from flatMap_cons]
    exact append_ne_nil_of_left_ne_nil (utf16Char_ne_nil c) _
  have pos := length_pos_iff.mpr some
  have count := laidOut.count
  have slotsNonempty : slots ≠ [] := by
    rintro rfl
    rw [length_nil] at count
    omega
  obtain ⟨layered, haveLfn⟩ := laidOut.group.layered slotsNonempty state
  refine ⟨haveLfn, ?_⟩
  unfold Spellable
  by_cases marked : 0xFFFF ∈ utf16 text
  · refine iff_of_false (fun eq => ?_) fun both => both.1 marked
    obtain ⟨before, behind, split⟩ := utf8_split marked
    refine layered.unmarked (fun part mem => ?_) before behind (eq.trans split)
    obtain ⟨slot, -, rfl⟩ := mem_map.mp (mem_reverse.mp mem)
    obtain ⟨-, slotPlain, others⟩ := slotPart_spec slot
    exact utf16ToUtf8_unmarked slotPlain others
  · have fills : Fills (((utf16 text).length - 1) / 13) (utf16 text) := ⟨by omega, by omega⟩
    rw [and_iff_right marked, ← utf16ToUtf8_utf16 noZero, ← spell_eq_iff fills linked plain whole]
    have texts := laidOut.texts plain marked
    rw [show slots.length = ((utf16 text).length - 1) / 13 + 1 by omega] at texts
    rw [texts] at layered
    have few := laidOut.group.1
    obtain ⟨short, nz⟩ := spell_spec fills plain
    have spelled : (slots.foldl LongName.take state).text = spell (partTexts (((utf16 text).length - 1) / 13 + 1) (utf16 text)) := by
      rw [layered.text_eq, funext fun i => overlay_eq_spell fills linked plain i]
      exact cString_getD (by unfold LongName.capacity; omega) nz
    rw [spelled]

namespace Volume

variable {g : Geometry} {volume : Volume} {start : Nat} {clusters : List Nat} {front : List (Address × Slot)}

/-- Whether a name that stands in a directory is listed, and that the names the driver writes are. -/
theorem names_read (holds : volume.Holds g start clusters) (nonzero : start ≠ 0)
    (reached : ∀ place ∈ front, place.2.neverUsed = false) :
    (∀ text longs address short back, volume.directorySlots g clusters = front ++ longs ++ (address, short) :: back →
      (∀ c ∈ text, c.toNat ≠ 0) → text ≠ [] → LaidOut (utf16 text) (longs.map Prod.snd) → short.isEntry = true →
        (⟨utf8 text, short, address⟩ ∈ (volume.readDirectory g start).1 ↔ Spellable (utf16 text))) ∧
    ∀ name startCluster fileSize addresses last back, Ascii name → name.length ≤ 255 → 0 < name.length →
      volume.directorySlots g clusters = front ++ (addresses ++ [last]).zip (entrySlots name startCluster fileSize) ++ back →
      addresses.length = (name.length + 12) / 13 →
        ⟨name, shortSlot (makeSFNFromName name) startCluster fileSize, last⟩ ∈ (volume.readDirectory g start).1 := by
  obtain ⟨listed, mid, reading⟩ := listed_split reached LongName.empty
  have listing := readDirectory_eq holds nonzero
  constructor
  · intro text longs address short back split noZero nonempty laidOut isEntry
    obtain ⟨haveLfn, spelled⟩ := laidOut.text_iff noZero nonempty mid
    obtain ⟨used, kept, isShort⟩ := isEntry_iff.mp isEntry
    have long : ∀ place ∈ longs, place.2.isLong = true ∧ place.2.neverUsed = false := by
      intro place mem
      obtain ⟨isLong, live⟩ := laidOut.group.used (mem_map_of_mem mem)
      exact ⟨isLong, (Bool.or_eq_false_iff.mp live).1⟩
    have h : ⟨((longs.map Prod.snd).foldl LongName.take mid).text, short, address⟩ ∈ (volume.readDirectory g start).1 := by
      rw [listing, split, append_assoc, reading, readSlots_longs long, readSlots, used, isShort, kept, haveLfn]
      simp
    rw [← spelled]
    constructor
    · intro mem
      have eq := listed_unique holds nonzero h mem rfl
      exact (Listed.mk.inj eq).1
    · intro eq
      rwa [eq] at h
  · intro name startCluster fileSize addresses last back ascii short pos split count
    obtain ⟨behind, -, entry⟩ := readSlots_entry ascii short pos startCluster fileSize count last mid back
    rw [listing, split, append_assoc, reading]
    rw [entry]
    exact mem_append_right _ (.head _)

/-- Thirteen letters in one slot, and an accented one in the other. -/
def accentLast : List Char := replicate 13 'a' ++ ['é']

/-- Both names take two slots; the second is as the driver writes it. -/
theorem names_read_twoSlots :
    (⟨utf8 accentLast, shortSlot (makeSFNFromName [0x61]) 9 5, ⟨100, 64⟩⟩ : Listed) ∈
        ((slotVolume (longSlots (utf16 accentLast) 0 2 2 false ++ [shortSlot (makeSFNFromName [0x61]) 9 5])).readDirectory
          smallGeometry 2).1 ∧
      (⟨replicate 14 0x61, shortSlot (makeSFNFromName (replicate 14 0x61)) 9 5, ⟨100, 64⟩⟩ : Listed) ∈
        ((slotVolume (entrySlots (replicate 14 0x61) 9 5)).readDirectory smallGeometry 2).1 := by
  constructor
  · have split := slotVolume_slots (longSlots (utf16 accentLast) 0 2 2 false ++ [shortSlot (makeSFNFromName [0x61]) 9 5])
    have laid : LaidOut (utf16 accentLast) (longSlots (utf16 accentLast) 0 2 2 false) :=
      ⟨longSlots_group _ _ (by decide), rfl, by decide +kernel⟩
    have reads := (names_read (slotVolume_holds _) (by decide) (forall_mem_nil _)).1 accentLast
      ((longSlots (utf16 accentLast) 0 2 2 false).mapIdx fun k slot => (⟨100, 32 * k⟩, slot)) ⟨100, 64⟩ _ _ split
        (by simp [accentLast]) (by decide) laid rfl
    exact reads.mpr (by decide +kernel)
  · have split := slotVolume_slots (entrySlots (replicate 14 0x61) 9 5)
    exact (names_read (slotVolume_holds _) (by decide) (forall_mem_nil _)).2 (replicate 14 0x61) 9 5
      [⟨100, 0⟩, ⟨100, 32⟩] ⟨100, 64⟩ _ (by decide) (by decide) (by decide) split rfl

/-- One accented letter and thirteen others. -/
def accented : List Char := 'é' :: replicate 13 'a'

/-- The last letter of the name is lost. -/
theorem accented_name_cut : LaidOut (utf16 accented) (longSlots (utf16 accented) 0 2 2 false) ∧
    ((slotVolume (longSlots (utf16 accented) 0 2 2 false ++ [shortSlot (makeSFNFromName [0x61]) 9 5])).readDirectory
      smallGeometry 2).1.map Listed.name = [utf8 ('é' :: replicate 12 'a')] ∧
    utf8 accented ≠ utf8 ('é' :: replicate 12 'a') := by
  exact ⟨⟨longSlots_group _ _ (by decide), rfl, by decide +kernel⟩, by decide +kernel, by decide⟩

end Volume

end RosKernel.Fat32
