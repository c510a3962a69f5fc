import Mathlib.Data.List.Chain


/-! Text in sixteen-bit units and in bytes.

A character past the basic plane has two units, a high and a low one, so a text in units can be
cut inside a character. `Linked` says of a piece that only its ends can be cut in this way.
-/

set_option autoImplicit false

namespace RosKernel.Library

open List

def isHigh (w : Nat) : Bool := 0xD800 ≤ w && w ≤ 0xDBFF

def isLow (w : Nat) : Bool := 0xDC00 ≤ w && w ≤ 0xDFFF

def utf16Char (c : Char) : List Nat :=
  if c.toNat < 0x10000 then [c.toNat]
  else [0xD800 + (c.toNat - 0x10000) / 1024, 0xDC00 + (c.toNat - 0x10000) % 1024]

def utf16 (text : List Char) : List Nat := text.flatMap utf16Char

def utf8 (text : List Char) : List UInt8 := text.flatMap String.utf8EncodeChar

/-- A high unit stands before every low one and nowhere else, except at the ends. -/
def Linked (units : List Nat) : Prop := units.IsChain fun a b => isHigh a = isLow b

def startsLow (units : List Nat) : Bool := units.head?.any isLow

def endsHigh (units : List Nat) : Bool := units.getLast?.any isHigh

variable {units before behind : List Nat} {text : List Char} {w next : Nat} {c : Char}

theorem isHigh_iff : isHigh w = true ↔ 0xD800 ≤ w ∧ w ≤ 0xDBFF := by
  simp [isHigh]

theorem isLow_iff : isLow w = true ↔ 0xDC00 ≤ w ∧ w ≤ 0xDFFF := by
  simp [isLow]

theorem not_low_of_high (high : isHigh w = true) : isLow w = false := by
  rw [isHigh_iff] at high
  rw [Bool.eq_false_iff, ne_eq, isLow_iff]
  omega

theorem startsLow_cons : startsLow (w :: units) = isLow w := rfl

theorem endsHigh_singleton : endsHigh [w] = isHigh w := rfl

theorem endsHigh_cons_cons : endsHigh (w :: next :: units) = endsHigh (next :: units) := by
  unfold endsHigh
  rw [getLast?_cons_cons]

theorem endsHigh_append (nonempty : behind ≠ []) : endsHigh (before ++ behind) = endsHigh behind := by
  unfold endsHigh
  rw [getLast?_append_of_ne_nil _ nonempty]

theorem Linked.right (linked : Linked (before ++ behind)) : Linked behind := (isChain_append.mp linked).2.1

theorem Linked.left (linked : Linked (before ++ behind)) : Linked before := (isChain_append.mp linked).1

theorem Linked.of_cons (linked : Linked (w :: units)) : Linked units := List.IsChain.tail linked

theorem Linked.cut (linked : Linked (before ++ behind)) (first : before ≠ []) (snd : behind ≠ []) :
    endsHigh before = startsLow behind := by
  obtain ⟨-, -, ends⟩ := isChain_append.mp linked
  obtain ⟨last, isLast⟩ := Option.ne_none_iff_exists'.mp (mt getLast?_eq_none_iff.mp first)
  obtain ⟨head, isHead⟩ := Option.ne_none_iff_exists'.mp (mt head?_eq_none_iff.mp snd)
  unfold endsHigh startsLow
  rw [isLast, isHead]
  exact ends last isLast head isHead

theorem char_lt (c : Char) : c.toNat < 0x110000 ∧ (c.toNat < 0xD800 ∨ 0xDFFF < c.toNat) := by
  rcases c.valid with low | ⟨above, below⟩
  · have : c.toNat < 0xD800 := low
    exact ⟨by omega, .inl this⟩
  · have : 0xDFFF < c.toNat := above
    have : c.toNat < 0x110000 := below
    exact ⟨this, .inr ‹_›⟩

theorem utf16Char_ne_nil (c : Char) : utf16Char c ≠ [] := by
  unfold utf16Char
  split <;> exact cons_ne_nil _ _

theorem utf16Char_spec (c : Char) : Linked (utf16Char c) ∧ startsLow (utf16Char c) = false ∧ endsHigh (utf16Char c) = false ∧
    ∀ w ∈ utf16Char c, w < 65536 ∧ (w = 0 → c.toNat = 0) ∧ (w = 0xFFFF ↔ c.toNat = 0xFFFF) := by
  obtain ⟨top, plain⟩ := char_lt c
  unfold utf16Char
  split
  · refine ⟨isChain_singleton _, ?_, ?_, forall_mem_singleton.mpr ⟨‹_›, id, .rfl⟩⟩
    · rw [startsLow_cons, Bool.eq_false_iff, ne_eq, isLow_iff]
      omega
    · rw [endsHigh_singleton, Bool.eq_false_iff, ne_eq, isHigh_iff]
      omega
  · have high : isHigh (0xD800 + (c.toNat - 0x10000) / 1024) = true := isHigh_iff.mpr (by omega)
    have low : isLow (0xDC00 + (c.toNat - 0x10000) % 1024) = true := isLow_iff.mpr (by omega)
    refine ⟨isChain_pair.mpr (high.trans low.symm), ?_, ?_, ?_⟩
    · rw [startsLow_cons]
      exact not_low_of_high high
    · rw [endsHigh_cons_cons, endsHigh_singleton, Bool.eq_false_iff, ne_eq, isHigh_iff]
      omega
    · grind

theorem utf16_spec (text : List Char) : Linked (utf16 text) ∧ startsLow (utf16 text) = false ∧ endsHigh (utf16 text) = false := by
  induction text with
  | nil => exact ⟨isChain_nil, rfl, rfl⟩
  | cons c rest ih =>
    obtain ⟨linked, notLow, notHigh⟩ := ih
    obtain ⟨charLinked, charLow, charHigh, -⟩ := utf16Char_spec c
    have starts : startsLow (utf16Char c ++ utf16 rest) = false := by
      rw [← charLow]
      unfold startsLow
      rw [head?_append_of_ne_nil _ (utf16Char_ne_nil c)]
    rw [show utf16 (c :: rest) = utf16Char c ++ utf16 rest from flatMap_cons]
    refine ⟨isChain_append.mpr ⟨charLinked, linked, fun last isLast head isHead => ?_⟩, starts, ?_⟩
    · have high : isHigh last = false := by simpa [endsHigh, Option.mem_def.mp isLast] using charHigh
      have low : isLow head = false := by simpa [startsLow, Option.mem_def.mp isHead] using notLow
      rw [high, low]
    · rcases eq_nil_or_concat (utf16 rest) with none | ⟨_, _, some⟩
      · rw [none, append_nil]
        exact charHigh
      · rw [endsHigh_append (by simp [some])]
        exact notHigh

theorem mem_utf16 (mem : w ∈ utf16 text) :
    ∃ c ∈ text, w < 65536 ∧ (w = 0 → c.toNat = 0) ∧ (w = 0xFFFF ↔ c.toNat = 0xFFFF) := by
  obtain ⟨c, inText, inChar⟩ := mem_flatMap.mp mem
  exact ⟨c, inText, (utf16Char_spec c).2.2.2 w inChar⟩

end RosKernel.Library
