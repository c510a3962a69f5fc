import RosKernel.Fat32.Slots

/-! An ASCII name that is written is read back.

The parts are read from the last to the first. Once a part is in place, the buffer spells the
name from the part's first character on, and a zero follows it.
-/

set_option autoImplicit false

namespace RosKernel.Fat32

open Library List

def Ascii (name : Name) : Prop := ∀ c ∈ name, c ≠ 0 ∧ c < 0x80

instance (name : Name) : Decidable (Ascii name) := List.decidableBAll _ _

variable {name : Name} {units chars : List Nat} {state : LongName}

theorem word_eq {value : Nat} (lt : value < 65536) :
    (UInt8.ofNat value).toNat + 256 * (UInt8.ofNat (value / 256)).toNat = value := by
  simp only [UInt8.toNat_ofNat']
  omega

theorem takeWhile_ended {pre behind : List Nat} (kept : ∀ w ∈ pre, endsPart w = false)
    (ended : ∀ w ∈ behind, endsPart w = true) : (pre ++ behind).takeWhile (!endsPart ·) = pre := by
  rw [takeWhile_append_of_pos fun w mem => by rw [kept w mem]; rfl]
  cases behind with
  | nil => simp
  | cons w rest => simp [ended w (.head _)]

theorem longSlot_fields {seq chk : UInt8} (length : units.length = 13) (lt : ∀ w ∈ units, w < 65536) :
    (longSlot seq chk units).name1 = units.take 5 ∧ (longSlot seq chk units).name2 = (units.drop 5).take 6 ∧
      (longSlot seq chk units).name3 = units.drop 11 := by
  match units, length with
  | [u0, u1, u2, u3, u4, u5, u6, u7, u8, u9, u10, u11, u12], _ =>
    simp only [forall_mem_cons] at lt
    obtain ⟨h0, h1, h2, h3, h4, h5, h6, h7, h8, h9, h10, h11, h12, -⟩ := lt
    let word := fun u => (UInt8.ofNat u).toNat + 256 * (UInt8.ofNat (u / 256)).toNat
    refine ⟨?_, ?_, ?_⟩
    · change [word u0, word u1, word u2, word u3, word u4] = _
      simp only [word, word_eq, h0, h1, h2, h3, h4]
      rfl
    · change [word u5, word u6, word u7, word u8, word u9, word u10] = _
      simp only [word, word_eq, h5, h6, h7, h8, h9, h10]
      rfl
    · change [word u11, word u12] = _
      simp only [word, word_eq, h11, h12]
      rfl

theorem Slot.part_eq {slot : Slot} {pad : List Nat} (fields : slot.name1 ++ slot.name2 ++ slot.name3 = chars ++ pad)
    (kept : ∀ w ∈ chars, endsPart w = false) (ended : ∀ w ∈ pad, endsPart w = true) : slot.part = chars := by
  have segment : ∀ low high, (((chars ++ pad).drop low).take high).takeWhile (!endsPart ·) = (chars.drop low).take high := by
    intro low high
    rw [drop_append, take_append]
    exact takeWhile_ended (fun w mem => kept w (mem_of_mem_drop (mem_of_mem_take mem)))
      fun w mem => ended w (mem_of_mem_drop (mem_of_mem_take mem))
  have short : chars.length ≤ 13 := by
    have length : 13 = (chars ++ pad).length := congrArg List.length fields
    rw [length, length_append]
    exact Nat.le_add_right ..
  have first : slot.name1 = ((chars ++ pad).drop 0).take 5 := by rw [← fields]; rfl
  have snd : slot.name2 = ((chars ++ pad).drop 5).take 6 := by rw [← fields]; rfl
  have third : slot.name3 = ((chars ++ pad).drop 11).take 2 := by rw [← fields]; rfl
  have rest : (chars.drop 11).take 2 = (chars.drop 5).drop 6 := by
    rw [drop_drop, take_of_length_le (by rw [length_drop]; omega)]
  unfold Slot.part
  rw [first, snd, third, segment, segment, segment, rest, drop_zero, append_assoc, take_append_drop,
    take_append_drop]

theorem longSlot_part {seq chk : UInt8} {pad : List Nat} (length : (chars ++ pad).length = 13)
    (lt : ∀ w ∈ chars ++ pad, w < 65536) (kept : ∀ w ∈ chars, endsPart w = false)
    (ended : ∀ w ∈ pad, endsPart w = true) : (longSlot seq chk (chars ++ pad)).part = chars := by
  obtain ⟨first, snd, third⟩ := @longSlot_fields _ seq chk length lt
  refine Slot.part_eq ?_ kept ended
  rw [first, snd, third, append_assoc, show (chars ++ pad).drop 11 = ((chars ++ pad).drop 5).drop 6 by rw [drop_drop],
    take_append_drop, take_append_drop]

theorem nameUnits_eq (utf16 : List Nat) (low count : Nat) (ins : Bool) :
    ∃ pad, (nameUnits utf16 (range' low count) ins).1 = (utf16.drop low).take count ++ pad ∧
      ∀ w ∈ pad, endsPart w = true ∧ w < 65536 := by
  induction count generalizing low ins with
  | zero => exact ⟨[], by simp [nameUnits], forall_mem_nil _⟩
  | succ count ih =>
    obtain ⟨pad, onward, ended⟩ := ih (low + 1) (nameUnit utf16 low ins).2
    rw [List.range'_succ, nameUnits]
    rw [onward]
    by_cases hin : low < utf16.length
    · refine ⟨pad, ?_, ended⟩
      rw [drop_eq_getElem_cons hin, take_succ_cons, nameUnit, getElem?_eq_getElem hin]
      rfl
    · have gone : utf16.drop (low + 1) = [] := drop_eq_nil_of_le (by omega)
      refine ⟨(nameUnit utf16 low ins).1 :: pad, ?_, forall_mem_cons.mpr ⟨?_, ended⟩⟩
      · grind
      · rw [nameUnit, getElem?_eq_none (by omega)]
        cases ins <;> decide

theorem nameUnits_length (utf16 positions : List Nat) (ins : Bool) :
    (nameUnits utf16 positions ins).1.length = positions.length := by
  induction positions generalizing ins with
  | nil => rfl
  | cons ci rest ih => simp [nameUnits, ih]

theorem utf16ToUtf8_ascii (ascii : Ascii name) : utf16ToUtf8 (name.map UInt8.toNat) = name := by
  induction name with
  | nil => rfl
  | cons c rest ih =>
    obtain ⟨nz, low⟩ := ascii c (.head _)
    have lt : c.toNat < 128 := UInt8.lt_iff_toNat_lt.mp low
    have pos : c.toNat ≠ 0 := fun zero => nz (UInt8.toNat.inj zero)
    have encoded : encodeUtf8 c.toNat = [c] := by
      unfold encodeUtf8
      rw [if_pos (by omega), UInt8.ofNat_toNat]
    have onward := ih fun d mem => ascii d (.tail _ mem)
    cases rest with
    | nil =>
      simp only [map_cons, map_nil, utf16ToUtf8]
      rw [if_neg pos, if_neg (by omega), encoded]
    | cons d rest =>
      rw [map_cons] at onward
      simp only [map_cons, utf16ToUtf8]
      rw [if_neg pos, if_neg (by omega), if_neg (by omega), encoded, onward]
      rfl

theorem toUtf16_ascii (ascii : Ascii name) (short : name.length ≤ 255) : toUtf16 name = name.map UInt8.toNat := by
  unfold toUtf16
  rw [take_of_length_le (by omega)]
  apply map_congr_left
  intro c mem
  exact if_pos (ascii c mem).2

theorem part_text (ascii : Ascii name) (seq chk : UInt8) (k : Nat) (ins : Bool) :
    utf16ToUtf8 (longSlot seq chk (nameUnits (name.map UInt8.toNat) (range' (k * 13) 13) ins).1).part =
      (name.drop (k * 13)).take 13 := by
  obtain ⟨pad, units, ended⟩ := nameUnits_eq (name.map UInt8.toNat) (k * 13) 13 ins
  have length := nameUnits_length (name.map UInt8.toNat) (range' (k * 13) 13) ins
  rw [length_range', units] at length
  rw [map_drop.symm, map_take.symm] at units length
  have mem : ∀ c ∈ (name.drop (k * 13)).take 13, c ∈ name := fun c hin => mem_of_mem_drop (mem_of_mem_take hin)
  have plain : ∀ w ∈ ((name.drop (k * 13)).take 13).map UInt8.toNat, endsPart w = false ∧ w < 65536 := by
    intro w hin
    obtain ⟨c, isChar, rfl⟩ := mem_map.mp hin
    have low : c.toNat < 128 := UInt8.lt_iff_toNat_lt.mp (ascii c (mem c isChar)).2
    have pos : c.toNat ≠ 0 := fun zero => (ascii c (mem c isChar)).1 (UInt8.toNat.inj zero)
    have other : c.toNat ≠ 0xFFFF := by omega
    exact ⟨by simp [endsPart, pos, other], by omega⟩
  rw [units, longSlot_part length ?_ (fun w hin => (plain w hin).1) fun w hin => (ended w hin).1]
  · exact utf16ToUtf8_ascii fun c hin => ascii c (mem c hin)
  · intro w hin
    rcases mem_append.mp hin with isChar | isPad
    · exact (plain w isChar).2
    · exact (ended w isPad).2

/-- The buffer spells the name from a position on. -/
structure Spelled (name : Name) (low : Nat) (state : LongName) : Prop where
  haveLfn : state.haveLfn = true
  charsFilled : state.charsFilled = name.length
  ended : state.buffer name.length = 0
  spelled : ∀ i, low ≤ i → ∀ inside : i < name.length, state.buffer i = name[i]

theorem Spelled.text (spelled : Spelled name 0 state) (ascii : Ascii name) (short : name.length ≤ 255) : state.text = name := by
  have places : LongName.capacity = name.length + (1 + (519 - name.length)) := by
    unfold LongName.capacity
    omega
  have front : (range name.length).map state.buffer = name := by
    apply ext_getElem
    · simp
    · intro i low hin
      rw [getElem_map, getElem_range]
      exact spelled.spelled i (Nat.zero_le i) hin
  unfold LongName.text cString
  rw [places, range_add, map_append, front, takeWhile_append_of_pos]
  · rw [range_add, map_append, map_append]
    simp [spelled.ended]
  · intro c mem
    simpa using (ascii c mem).1

theorem LongName.place_spelled {k : Nat} (bound : k < 20) (hin : k * 13 < name.length)
    (pre : state.charsFilled = 0 ∧ name.length ≤ k * 13 + 13 ∨
      k * 13 + 13 ≤ name.length ∧ Spelled name (k * 13 + 13) state) :
    Spelled name (k * 13) (state.place (k * 13) ((name.drop (k * 13)).take 13)) := by
  have length : ((name.drop (k * 13)).take 13).length = min 13 (name.length - k * 13) := by
    rw [length_take, length_drop]
  have fits : min ((name.drop (k * 13)).take 13).length (LongName.capacity - 1 - k * 13) = min 13 (name.length - k * 13) := by
    rw [length]
    unfold LongName.capacity
    omega
  have filled : (state.place (k * 13) ((name.drop (k * 13)).take 13)).charsFilled = name.length := by
    unfold LongName.place
    dsimp only
    rw [fits]
    rcases pre with ⟨cleared, last⟩ | ⟨more, spelled⟩
    · omega
    · have := spelled.charsFilled
      omega
  have buffer : ∀ i, i ≠ name.length → (state.place (k * 13) ((name.drop (k * 13)).take 13)).buffer i =
      if k * 13 ≤ i ∧ i < k * 13 + min 13 (name.length - k * 13) then ((name.drop (k * 13)).take 13).getD (i - k * 13) 0
      else state.buffer i := by
    intro i ne
    rw [← filled] at ne
    rw [← fits]
    unfold LongName.place at ne ⊢
    dsimp only at ne ⊢
    rw [Function.update_of_ne ne]
  refine ⟨rfl, filled, ?_, ?_⟩
  · conv_lhs => rw [← filled]
    unfold LongName.place
    dsimp only
    rw [Function.update_self]
  · intro i low high
    rw [buffer i (by omega)]
    split
    · rename_i h
      rw [getD_eq_getElem?_getD, getElem?_eq_getElem (by rw [length]; omega), Option.getD_some, getElem_take,
        getElem_drop]
      congr 1
      omega
    · rcases pre with ⟨_, last⟩ | ⟨_, spelled⟩
      · omega
      · exact spelled.spelled i (by omega) high

theorem seq_facts : ∀ k < 21, k ≠ 0 → ∀ isLast : Bool, ∀ seq : UInt8, seq = UInt8.ofNat k ||| (if isLast then 0x40 else 0) →
    seq ≠ 0 ∧ seq ≠ 0xE5 ∧ seq.toNat % 32 = k ∧ (seq.toNat / 64 % 2 == 1) = isLast := by
  have checked : ∀ k < 21, k ≠ 0 → ∀ isLast : Bool,
      (UInt8.ofNat k ||| (if isLast then 0x40 else 0)) ≠ 0 ∧ (UInt8.ofNat k ||| (if isLast then 0x40 else 0)) ≠ 0xE5 ∧
      (UInt8.ofNat k ||| (if isLast then 0x40 else 0)).toNat % 32 = k ∧
      ((UInt8.ofNat k ||| (if isLast then 0x40 else 0)).toNat / 64 % 2 == 1) = isLast := by decide
  intro k lt pos isLast seq eq
  rw [eq]
  exact checked k lt pos isLast

theorem longSlot_first (seq chk : UInt8) (units : List Nat) : longSlot seq chk units 0 = seq := rfl

theorem longSlots_spelled (ascii : Ascii name) (short : name.length ≤ 255) (chk : UInt8) {parts : Nat} (ins : Bool)
    (count : parts * 13 < name.length + 13) (pre : parts = (name.length + 12) / 13 ∨ Spelled name (parts * 13) state)
    (pos : 0 < name.length) (nz : 0 < parts) :
    Spelled name 0 ((longSlots (name.map UInt8.toNat) chk ((name.length + 12) / 13) parts ins).foldl LongName.take state) := by
  induction parts generalizing state ins with
  | zero => exact absurd nz (Nat.lt_irrefl 0)
  | succ k ih =>
    have isDecided : (if k + 1 = (name.length + 12) / 13 then (0x40 : UInt8) else 0) =
        if decide (k + 1 = (name.length + 12) / 13) then 0x40 else 0 := by simp
    have few : k + 1 < 21 := by
      omega
    obtain ⟨_, _, index, last⟩ := seq_facts (k + 1) few (Nat.succ_ne_zero k) (decide (k + 1 = (name.length + 12) / 13))
      (UInt8.ofNat (k + 1) ||| (if k + 1 = (name.length + 12) / 13 then 0x40 else 0)) (congrArg _ isDecided)
    rw [longSlots, foldl_cons]
    have placed : Spelled name (k * 13) (state.take (longSlot
        (UInt8.ofNat (k + 1) ||| (if k + 1 = (name.length + 12) / 13 then 0x40 else 0)) chk
        (nameUnits (name.map UInt8.toNat) (range' (k * 13) 13) ins).1)) := by
      unfold LongName.take
      rw [longSlot_first]
      dsimp only
      rw [index, last, if_neg (by omega), part_text ascii, Nat.add_sub_cancel]
      apply LongName.place_spelled (by omega) (by omega)
      by_cases isLast : k + 1 = (name.length + 12) / 13
      · rw [decide_eq_true isLast]
        exact .inl ⟨rfl, by omega⟩
      · rw [decide_eq_false isLast, ← Nat.succ_mul]
        exact .inr ⟨by omega, pre.resolve_left isLast⟩
    cases k with
    | zero =>
      exact placed
    | succ k => exact ih _ (by omega) (.inr placed) (Nat.succ_pos k)

theorem longSlots_length (utf16 : List Nat) (chk : UInt8) (lfnEntries parts : Nat) (ins : Bool) :
    (longSlots utf16 chk lfnEntries parts ins).length = parts := by
  induction parts generalizing ins with
  | zero => rfl
  | succ k ih => rw [longSlots, length_cons, ih]

theorem longSlots_long {utf16 : List Nat} {chk : UInt8} {lfnEntries parts : Nat} {ins : Bool} (few : parts < 21) {slot : Slot}
    (mem : slot ∈ longSlots utf16 chk lfnEntries parts ins) :
    slot.isLong = true ∧ slot.neverUsed = false ∧ slot.deleted = false := by
  induction parts generalizing ins with
  | zero => exact nomatch mem
  | succ k ih =>
    rw [longSlots, mem_cons] at mem
    rcases mem with rfl | later
    · have isDecided : (if k + 1 = lfnEntries then (0x40 : UInt8) else 0) = if decide (k + 1 = lfnEntries) then 0x40 else 0 := by
        simp
      obtain ⟨used, kept, -⟩ := seq_facts (k + 1) few (Nat.succ_ne_zero k) (decide (k + 1 = lfnEntries))
        (UInt8.ofNat (k + 1) ||| (if k + 1 = lfnEntries then 0x40 else 0)) (congrArg _ isDecided)
      exact ⟨rfl, beq_false_of_ne used, beq_false_of_ne kept⟩
    · exact ih (by omega) later

theorem longSlots_first {utf16 : List Nat} {chk : UInt8} {lfnEntries parts i : Nat} {ins : Bool}
    (hin : i < (longSlots utf16 chk lfnEntries parts ins).length) :
    (longSlots utf16 chk lfnEntries parts ins)[i] 0 =
      UInt8.ofNat (parts - i) ||| (if parts - i = lfnEntries then 0x40 else 0) := by
  induction parts generalizing ins i with
  | zero => exact absurd hin (Nat.not_lt_zero _)
  | succ k ih =>
    cases i with
    | zero => rfl
    | succ i =>
      rw [Nat.succ_sub_succ]
      exact ih (Nat.lt_of_succ_lt_succ hin)

theorem readSlots_longs {places : List (Address × Slot)} (long : ∀ place ∈ places, place.2.isLong = true ∧ place.2.neverUsed = false)
    (state : LongName) (rest : List (Address × Slot)) :
    readSlots state (places ++ rest) = readSlots ((places.map Prod.snd).foldl LongName.take state) rest := by
  induction places generalizing state with
  | nil => rfl
  | cons place places ih =>
    obtain ⟨isLong, used⟩ := long place (.head _)
    rw [cons_append, readSlots, if_neg (by simp [used]), if_pos isLong,
      ih fun other mem => long other (.tail _ mem)]
    rfl

theorem sanitize_char {base : Name} {c : UInt8} (ascii : Ascii base) (mem : c ∈ sanitize base) : 0x20 ≤ c ∧ c < 0x80 := by
  obtain ⟨d, hin, rfl⟩ := mem_map.mp (mem_of_mem_take mem)
  obtain ⟨isChar, shown⟩ := mem_filter.mp hin
  simp only [Bool.and_eq_true, decide_eq_true_eq] at shown
  have low := (ascii d isChar).2
  have upper : ∀ e : UInt8, 0x20 ≤ e → e < 0x80 → 0x20 ≤ upperCase e ∧ upperCase e < 0x80 := by
    intro e floor ceiling
    unfold upperCase
    split
    · rename_i letter
      have size := UInt8.le_iff_toNat_le.mp letter.1
      have top := UInt8.le_iff_toNat_le.mp letter.2
      have difference : (e - 0x20).toNat = e.toNat - 0x20 := UInt8.toNat_sub_of_le _ _ (UInt8.le_iff_toNat_le.mpr floor)
      have a : (0x61 : UInt8).toNat = 97 := rfl
      have z : (0x7A : UInt8).toNat = 122 := rfl
      rw [UInt8.le_iff_toNat_le, UInt8.lt_iff_toNat_lt, difference]
      change 32 ≤ e.toNat - 32 ∧ e.toNat - 32 < 128
      omega
    · exact ⟨floor, ceiling⟩
  split
  · exact upper 0x5F (by decide) (by decide)
  · exact upper d shown.2 low

theorem sfn_first (ascii : Ascii name) : 0x20 ≤ (makeSFNFromName name).getD 0 0 ∧ (makeSFNFromName name).getD 0 0 < 0x80 := by
  have base : Ascii (baseOf name) := by
    intro c mem
    unfold baseOf splitLast at mem
    split at mem
    · rename_i hf
      split at hf
      · obtain ⟨rfl, -⟩ := Prod.mk.inj (Option.some.inj hf)
        exact ascii c (mem_of_mem_take mem)
      · exact nomatch hf
    · exact ascii c mem
  have chars := fun c => @sanitize_char (baseOf name) c base
  unfold makeSFNFromName
  generalize sanitize (baseOf name) = b at chars
  cases b with
  | nil =>
    change (0x20 : UInt8) ≤ 0x20 ∧ (0x20 : UInt8) < 0x80
    decide
  | cons c rest =>
    have first := chars c (.head _)
    dsimp only
    split <;> exact first

theorem shortSlot_entry (ascii : Ascii name) (startCluster fileSize : Nat) :
    (shortSlot (makeSFNFromName name) startCluster fileSize).neverUsed = false ∧
      (shortSlot (makeSFNFromName name) startCluster fileSize).deleted = false := by
  obtain ⟨low, high⟩ := sfn_first ascii
  have first : shortSlot (makeSFNFromName name) startCluster fileSize 0 = (makeSFNFromName name).getD 0 0 := rfl
  unfold Slot.neverUsed Slot.deleted
  rw [first]
  constructor
  · grind
  · grind

theorem shortSlot_isLong (sfn : Name) (startCluster fileSize : Nat) : (shortSlot sfn startCluster fileSize).isLong = false := rfl

theorem shortSlot_fields (sfn : Name) {startCluster fileSize : Nat} (cluster : startCluster < 2 ^ 32) (size : fileSize < 2 ^ 32) :
    (shortSlot sfn startCluster fileSize).startCluster = startCluster ∧ (shortSlot sfn startCluster fileSize).fileSize = fileSize := by
  have bytes : ∀ value < 2 ^ 32, (UInt8.ofNat (value / 256 ^ 0)).toNat + 256 * (UInt8.ofNat (value / 256 ^ 1)).toNat +
      65536 * ((UInt8.ofNat (value / 256 ^ 2)).toNat + 256 * (UInt8.ofNat (value / 256 ^ 3)).toNat) = value := by
    intro value lt
    simp only [UInt8.toNat_ofNat']
    omega
  exact ⟨bytes startCluster cluster, bytes fileSize size⟩

theorem readSlots_entry (ascii : Ascii name) (short : name.length ≤ 255) (pos : 0 < name.length) (startCluster fileSize : Nat)
    {front : List Address} (count : front.length = (name.length + 12) / 13) (last : Address) (state : LongName)
    (rest : List (Address × Slot)) : ∃ behind : LongName, behind.haveLfn = false ∧
      readSlots state ((front ++ [last]).zip (entrySlots name startCluster fileSize) ++ rest) =
        (⟨name, shortSlot (makeSFNFromName name) startCluster fileSize, last⟩ :: (readSlots behind rest).1, (readSlots behind rest).2) := by
  have units := toUtf16_ascii ascii short
  have chars : (toUtf16 name).length = name.length := by rw [units, length_map]
  obtain ⟨used, kept⟩ := shortSlot_entry ascii startCluster fileSize
  unfold entrySlots
  dsimp only
  rw [chars, units]
  have length := longSlots_length (name.map UInt8.toNat) (sfnChecksum (makeSFNFromName name)) ((name.length + 12) / 13)
    ((name.length + 12) / 13) false
  have spelled := @longSlots_spelled name state ascii short (sfnChecksum (makeSFNFromName name)) ((name.length + 12) / 13) false
    (by omega) (.inl rfl) pos (by omega)
  have long := fun slot => @longSlots_long (name.map UInt8.toNat) (sfnChecksum (makeSFNFromName name)) ((name.length + 12) / 13)
    ((name.length + 12) / 13) false (by omega) slot
  generalize longSlots (name.map UInt8.toNat) (sfnChecksum (makeSFNFromName name)) ((name.length + 12) / 13)
    ((name.length + 12) / 13) false = longs at length spelled long
  refine ⟨(longs.foldl LongName.take state).reset, rfl, ?_⟩
  rw [zip_append (count.trans length.symm), append_assoc, readSlots_longs]
  · rw [map_snd_zip (by omega)]
    simp only [zip_cons_cons, zip_nil_right, cons_append, nil_append, readSlots, used, kept,
      shortSlot_isLong, spelled.haveLfn, spelled.text ascii short]
    rfl
  · intro place mem
    have := long place.2 (of_mem_zip mem).2
    exact ⟨this.1, this.2.1⟩

end RosKernel.Fat32
