import RosKernel.Fat32.LongNames

/-! What a directory lists before and after a run of its free slots is filled.

A well-formed directory mixes entries, deleted slots of any content and slots never used. The
reader stops at the first slot never used, and takes a deleted slot with the attribute of a long
one for the last part of a name, so what it lists depends on more than the entries.
-/

set_option autoImplicit false

namespace RosKernel.Fat32

open Library List

/-- The long slots of an entry: its parts from the last to the first. -/
def LongGroup (slots : List Slot) : Prop := slots.length < 21 ∧ ∀ i, ∀ inside : i < slots.length,
  slots[i].isLong = true ∧ slots[i] 0 = UInt8.ofNat (slots.length - i) ||| (if i = 0 then 0x40 else 0)

/-- Free slots, and entries with their long slots directly before them, in any order. -/
inductive Orderly : List Slot → Prop
  | nil : Orderly []
  | free {slot : Slot} {rest : List Slot} : slot.isFree = true → Orderly rest → Orderly (slot :: rest)
  | entry {longs : List Slot} {short : Slot} {rest : List Slot} :
      LongGroup longs → short.isEntry = true → Orderly rest → Orderly (longs ++ short :: rest)

variable {state other : LongName} {places before run behind : List (Address × Slot)} {slot : Slot} {slots : List Slot}

theorem LongGroup.first {long : Slot} {longs : List Slot} (group : LongGroup (long :: longs)) :
    long.isLong = true ∧ long.isFree = false ∧ (long 0).toNat % 32 ≠ 0 ∧ (long 0).toNat % 32 ≤ 20 ∧
      (long 0).toNat / 64 % 2 = 1 := by
  obtain ⟨short, all⟩ := group
  obtain ⟨isLong, first⟩ := all 0 (Nat.succ_pos _)
  have count : (long :: longs).length - 0 ≠ 0 := by simp
  obtain ⟨used, kept, index, last⟩ := seq_facts _ (Nat.lt_of_le_of_lt (Nat.sub_le ..) short) count true _ first
  rw [getElem_cons_zero] at used kept index last
  refine ⟨isLong, ?_, by omega, by omega, by simpa using last⟩
  simp [Slot.isFree, Slot.neverUsed, Slot.deleted, used, kept]

theorem LongGroup.used {long : Slot} {longs : List Slot} (group : LongGroup longs) (mem : long ∈ longs) :
    long.isLong = true ∧ long.isFree = false := by
  obtain ⟨i, hin, rfl⟩ := mem_iff_getElem.mp mem
  obtain ⟨isLong, first⟩ := group.2 i hin
  have isDecided : (if i = 0 then (0x40 : UInt8) else 0) = if decide (i = 0) then 0x40 else 0 := by simp
  have bound := group.1
  obtain ⟨used, kept, -⟩ := seq_facts (longs.length - i) (by omega) (by omega) (decide (i = 0)) _ (isDecided ▸ first)
  exact ⟨isLong, by simp [Slot.isFree, Slot.neverUsed, Slot.deleted, used, kept]⟩

theorem longSlots_group (utf16 : List Nat) (chk : UInt8) {lfnEntries : Nat} (few : lfnEntries < 21) :
    LongGroup (longSlots utf16 chk lfnEntries lfnEntries false) := by
  have length := longSlots_length utf16 chk lfnEntries lfnEntries false
  refine ⟨by omega, fun i hin => ⟨(longSlots_long few (getElem_mem hin)).1, ?_⟩⟩
  have sameCase : (lfnEntries - i = lfnEntries) = (i = 0) := propext (by omega)
  rw [longSlots_first hin, length]
  simp only [sameCase]

namespace Orderly

theorem append {first snd : List Slot} (ord : Orderly first) (more : Orderly snd) : Orderly (first ++ snd) := by
  induction ord with
  | nil => exact more
  | free isFree _ ih => exact .free isFree ih
  | entry group isEntry _ ih =>
    rw [append_assoc, cons_append]
    exact .entry group isEntry ih

theorem of_single {slots : List Slot} (single : ∀ slot ∈ slots, slot.isFree = true ∨ slot.isEntry = true) : Orderly slots := by
  induction slots with
  | nil => exact .nil
  | cons slot rest ih =>
    have onward := ih fun other mem => single other (.tail _ mem)
    rcases single slot (.head _) with isFree | isEntry
    · exact .free isFree onward
    · exact @entry [] slot rest ⟨by decide, fun _ hin => absurd hin (Nat.not_lt_zero _)⟩ isEntry onward

theorem split {first snd : List Slot} (isFree : slot.isFree = true) (ord : Orderly (first ++ slot :: snd)) :
    Orderly first ∧ Orderly snd := by
  generalize whole : first ++ slot :: snd = slots at ord
  induction ord generalizing first with
  | nil => simp at whole
  | @free head rest headFree tail ih =>
    cases first with
    | nil =>
      cases whole
      exact ⟨.nil, tail⟩
    | cons head' first =>
      obtain ⟨rfl, eq⟩ := cons.inj whole
      obtain ⟨left, right⟩ := ih eq
      exact ⟨.free headFree left, right⟩
  | @entry longs short rest group isEntry tail ih =>
    -- the free slot lies behind the whole entry
    rcases append_eq_append_iff.mp whole with ⟨mid, longsSplit, eq⟩ | ⟨mid, firstSplit, eq⟩
    · exfalso
      cases mid with
      | nil =>
        obtain ⟨rfl, -⟩ := cons.inj eq
        simp [Slot.isEntry, isFree] at isEntry
      | cons head mid =>
        obtain ⟨rfl, -⟩ := cons.inj eq
        have inLongs : slot ∈ longs := by simp [longsSplit]
        have := (group.used inLongs).2
        rw [isFree] at this
        exact nomatch this
    · cases mid with
      | nil =>
        obtain ⟨rfl, -⟩ := cons.inj eq
        simp [Slot.isEntry, isFree] at isEntry
      | cons head mid =>
        obtain ⟨rfl, onward⟩ := cons.inj eq
        obtain ⟨left, right⟩ := ih onward.symm
        rw [firstSplit]
        exact ⟨.entry group isEntry left, right⟩

theorem split_run {first snd : List Slot} {free : List Slot} (all : ∀ slot ∈ free, slot.isFree = true) (nonempty : free ≠ [])
    (ord : Orderly (first ++ free ++ snd)) : Orderly first ∧ Orderly snd := by
  cases free with
  | nil => exact absurd rfl nonempty
  | cons slot rest =>
    rw [append_assoc, cons_append] at ord
    obtain ⟨left, right⟩ := split (all slot (.head _)) ord
    refine ⟨left, ?_⟩
    clear ord nonempty left
    induction rest with
    | nil => exact right
    | cons other rest ih =>
      have onward : Orderly ([] ++ other :: (rest ++ snd)) := right
      refine ih ?_ (split (all other (by simp)) onward).2
      intro third mem
      rcases mem_cons.mp mem with rfl | later
      · exact all third (.head _)
      · exact all third (by simp [later])

end Orderly

theorem Orderly.behind_entry {first snd : List Slot} (isEntry : slot.isEntry = true) (ord : Orderly (first ++ slot :: snd)) :
    Orderly snd := by
  generalize whole : first ++ slot :: snd = slots at ord
  induction ord generalizing first with
  | nil => simp at whole
  | @free head rest headFree tail ih =>
    cases first with
    | nil =>
      cases whole
      exact tail
    | cons head' first => exact ih (cons.inj whole).2
  | @entry longs short rest group _ tail ih =>
    rcases append_eq_append_iff.mp whole with ⟨mid, longsSplit, eq⟩ | ⟨mid, firstSplit, eq⟩
    · cases mid with
      | nil =>
        cases eq
        exact tail
      | cons head mid =>
        obtain ⟨rfl, -⟩ := cons.inj eq
        have inLongs : slot ∈ longs := by simp [longsSplit]
        have := (group.used inLongs).1
        simp [Slot.isEntry, this] at isEntry
    · cases mid with
      | nil =>
        cases eq
        exact tail
      | cons head mid => exact ih (cons.inj eq).2.symm

theorem LongName.take_last (valid : (slot 0).toNat % 32 ≠ 0) (lt : (slot 0).toNat % 32 ≤ 20)
    (last : (slot 0).toNat / 64 % 2 = 1) (state other : LongName) : state.take slot = other.take slot := by
  unfold LongName.take
  rw [if_neg (by omega), if_neg (by omega), last]
  rfl

theorem LongName.take_deleted (deleted : slot.deleted = true) (state other : LongName) : state.take slot = other.take slot := by
  have first : slot 0 = 0xE5 := eq_of_beq deleted
  apply LongName.take_last <;> rw [first] <;> decide

theorem LongName.take_deleted_text (deleted : slot.deleted = true) (state : LongName) :
    (state.take slot).haveLfn = true ∧ (state.take slot).text = [] := by
  have first : slot 0 = 0xE5 := eq_of_beq deleted
  have index : (slot 0).toNat % 32 = 5 := by rw [first]; rfl
  have last : ((slot 0).toNat / 64 % 2 == 1) = true := by rw [first]; rfl
  unfold LongName.take
  dsimp only
  rw [index, last, if_neg (by decide)]
  refine ⟨rfl, ?_⟩
  have zero : (((state.restart true).place ((5 - 1) * 13) (utf16ToUtf8 slot.part)).buffer 0) = 0 := by
    unfold LongName.place LongName.restart
    simp [Function.update_apply]
  unfold LongName.text cString
  rw [show LongName.capacity = 519 + 1 by rfl, range_succ_eq_map, map_cons, takeWhile_cons, zero]
  rfl

theorem readSlots_free {addr : Address} (isFree : slot.isFree = true)
    (onward : (readSlots state.reset places).1 = (readSlots other.reset places).1) :
    (readSlots state ((addr, slot) :: places)).1 = (readSlots other ((addr, slot) :: places)).1 := by
  simp only [readSlots]
  split
  · rfl
  · rename_i used
    have deleted := (Bool.or_eq_true _ _ ▸ isFree : _ ∨ _).resolve_left used
    split
    · rw [LongName.take_deleted deleted state other]
    · exact onward

/-- The last long slot of a name comes first, and starts the buffer anew. -/
theorem readSlots_last {place : Address × Slot} (isLong : place.2.isLong = true) (used : place.2.isFree = false)
    (valid : (place.2 0).toNat % 32 ≠ 0) (lt : (place.2 0).toNat % 32 ≤ 20) (last : (place.2 0).toNat / 64 % 2 = 1) :
    (readSlots state (place :: places)).1 = (readSlots other (place :: places)).1 := by
  have neverUsed : place.2.neverUsed = false := (Bool.or_eq_false_iff.mp used).1
  simp only [readSlots, neverUsed, isLong, Bool.false_eq_true, if_false, if_true]
  rw [LongName.take_last valid lt last state other]

/-- Without a name at hand, what is listed of a well-formed list does not depend on the buffer. -/
theorem Orderly.listed (ord : Orderly (places.map Prod.snd)) (noName : state.haveLfn = false)
    (none : other.haveLfn = false) : (readSlots state places).1 = (readSlots other places).1 := by
  generalize whole : places.map Prod.snd = slots at ord
  induction ord generalizing places state other with
  | nil =>
    rw [map_eq_nil_iff.mp whole]
    rfl
  | @free slot rest isFree _ ih =>
    obtain ⟨⟨addr, _⟩, places, rfl, rfl, eq⟩ := map_eq_cons_iff.mp whole
    exact readSlots_free isFree (ih rfl rfl eq)
  | @entry longs short rest group isEntry _ ih =>
    obtain ⟨front, back, rfl, rfl, eq⟩ := map_eq_append_iff.mp whole
    cases front with
    | nil =>
      obtain ⟨⟨addr, _⟩, places, rfl, rfl, tail⟩ := map_eq_cons_iff.mp eq
      simp only [Slot.isEntry, Slot.isFree, Bool.and_eq_true, Bool.not_eq_true', Bool.or_eq_false_iff] at isEntry
      simp only [nil_append, readSlots, isEntry, noName, none]
      have onward : (readSlots state.reset places).1 = (readSlots other.reset places).1 := ih rfl rfl tail
      simp only [Bool.false_eq_true, if_false, onward]
    | cons place front =>
      obtain ⟨isLong, used, valid, lt, last⟩ := group.first
      exact readSlots_last isLong used valid lt last

/-- With a name at hand, only an entry without long slots right here can make a difference: it gets the name. -/
theorem Orderly.listed_behind (ord : Orderly (places.map Prod.snd)) (atHand : state.haveLfn = true)
    (none : other.haveLfn = false) :
    ((readSlots state places).1 = (readSlots other places).1 ∧
      ∀ first ∈ (places.map Prod.snd).head?, first.isEntry = false) ∨
    ∃ addr short rest, places = (addr, short) :: rest ∧ short.isEntry = true ∧ ∃ listed, (readSlots state places).1 = ⟨state.text, short, addr⟩ :: listed ∧
        (readSlots other places).1 = ⟨short.shortName, short, addr⟩ :: listed := by
  generalize whole : places.map Prod.snd = slots at ord
  cases ord with
  | nil =>
    rw [map_eq_nil_iff.mp whole]
    exact .inl ⟨rfl, fun _ none => nomatch none⟩
  | @free slot rest isFree tail =>
    obtain ⟨⟨addr, _⟩, places, rfl, rfl, eq⟩ := map_eq_cons_iff.mp whole
    refine .inl ⟨readSlots_free isFree (listed (eq ▸ tail) rfl rfl), fun first isFirst => ?_⟩
    cases isFirst
    simp [Slot.isEntry, isFree]
  | @entry longs short rest group isEntry tail =>
    obtain ⟨front, back, rfl, rfl, eq⟩ := map_eq_append_iff.mp whole
    cases front with
    | nil =>
      obtain ⟨⟨addr, _⟩, places, rfl, rfl, rest⟩ := map_eq_cons_iff.mp eq
      refine .inr ⟨addr, _, places, rfl, isEntry, (readSlots state.reset places).1, ?_, ?_⟩
      · simp only [Slot.isEntry, Slot.isFree, Bool.and_eq_true, Bool.not_eq_true', Bool.or_eq_false_iff] at isEntry
        simp [readSlots, isEntry, atHand]
      · have onward : (readSlots other.reset places).1 = (readSlots state.reset places).1 := listed (rest ▸ tail) rfl rfl
        simp only [Slot.isEntry, Slot.isFree, Bool.and_eq_true, Bool.not_eq_true', Bool.or_eq_false_iff] at isEntry
        simp [readSlots, isEntry, none, onward]
    | cons place front =>
      obtain ⟨isLong, used, valid, lt, last⟩ := group.first
      refine .inl ⟨readSlots_last isLong used valid lt last, fun first isFirst => ?_⟩
      cases isFirst
      simp [Slot.isEntry, isLong]

theorem readSlots_goesOn (used : ∀ place ∈ places, place.2.neverUsed = false) (state : LongName) :
    ∃ behind, (readSlots state places).2 = some behind := by
  induction places generalizing state with
  | nil => exact ⟨state, rfl⟩
  | cons place rest ih =>
    have onward := ih fun other mem => used other (.tail _ mem)
    rw [readSlots, used place (.head _)]
    simp only [Bool.false_eq_true, if_false]
    split
    · exact onward _
    · split
      · exact onward _
      · exact onward _

theorem readSlots_stops {place : Address × Slot} (mem : place ∈ places) (unused : place.2.neverUsed = true) (state : LongName)
    (more : List (Address × Slot)) : readSlots state (places ++ more) = readSlots state places := by
  induction places generalizing state with
  | nil => exact nomatch mem
  | cons head rest ih =>
    rw [cons_append, readSlots, readSlots]
    rcases mem_cons.mp mem with rfl | later
    · rw [unused]
      rfl
    · simp only [ih later]

/-- Nothing is listed exactly if no entry comes before the first slot never used. -/
theorem readSlots_nil_iff (state : LongName) (places : List (Address × Slot)) : (readSlots state places).1 = [] ↔
    ∀ slot ∈ (places.map Prod.snd).takeWhile fun slot => !slot.neverUsed, slot.isEntry = false := by
  induction places generalizing state with
  | nil => simp [readSlots]
  | cons place rest ih =>
    rw [readSlots, map_cons, takeWhile_cons]
    cases used : place.2.neverUsed with
    | true => simp
    | false =>
      cases isLong : place.2.isLong with
      | true => simp [ih, Slot.isEntry, isLong]
      | false =>
        cases deleted : place.2.deleted <;> simp [ih, Slot.isEntry, Slot.isFree, isLong, used, deleted]

/-- Deleted slots list nothing; the last of them says what name is left. -/
theorem readSlots_deleted {init : List (Address × Slot)} {last : Address × Slot}
    (deleted : ∀ place ∈ init ++ [last], place.2.deleted = true ∧ place.2.neverUsed = false) (state : LongName) :
    ∃ behind, readSlots state (init ++ [last]) = ([], some behind) ∧
      (last.2.isLong = true → behind.haveLfn = true ∧ behind.text = []) ∧ (last.2.isLong = false → behind.haveLfn = false) := by
  induction init generalizing state with
  | nil =>
    obtain ⟨isDeleted, used⟩ := deleted last (by simp)
    rw [nil_append, readSlots, used]
    cases isLong : last.2.isLong with
    | true => exact ⟨_, rfl, fun _ => LongName.take_deleted_text isDeleted state, fun no => by cases no⟩
    | false =>
      rw [isDeleted]
      exact ⟨_, rfl, fun no => (by cases no), fun _ => rfl⟩
  | cons place rest ih =>
    obtain ⟨isDeleted, used⟩ := deleted place (by simp)
    have onward := ih fun other mem => deleted other (.tail _ mem)
    rw [cons_append, readSlots, used, isDeleted]
    simp only [Bool.false_eq_true, if_false, if_true]
    split
    · exact onward _
    · exact onward _

theorem listed_split (used : ∀ place ∈ before, place.2.neverUsed = false) (state : LongName) :
    ∃ listed mid, ∀ more, readSlots state (before ++ more) = (listed ++ (readSlots mid more).1, (readSlots mid more).2) := by
  obtain ⟨mid, goesOn⟩ := readSlots_goesOn used state
  refine ⟨(readSlots state before).1, mid, fun more => ?_⟩
  rw [readSlots_append, readOn, goesOn]

theorem isEntry_iff : slot.isEntry = true ↔ slot.neverUsed = false ∧ slot.deleted = false ∧ slot.isLong = false := by
  simp [Slot.isEntry, Slot.isFree, and_assoc]

theorem listed_place {listed : Listed} (mem : listed ∈ (readSlots state places).1) : ∃ front back,
    places = front ++ (listed.address, listed.entry) :: back ∧ listed.entry.isEntry = true ∧
      ∀ place ∈ front, place.2.neverUsed = false := by
  induction places generalizing state with
  | nil => exact nomatch mem
  | cons place rest ih =>
    rw [readSlots] at mem
    cases used : place.2.neverUsed with
    | true =>
      rw [if_pos used] at mem
      cases mem
    | false =>
      have later : (∃ front back, rest = front ++ (listed.address, listed.entry) :: back ∧ listed.entry.isEntry = true ∧
          ∀ place ∈ front, place.2.neverUsed = false) → ∃ front back,
          place :: rest = front ++ (listed.address, listed.entry) :: back ∧ listed.entry.isEntry = true ∧
            ∀ place ∈ front, place.2.neverUsed = false := by
        rintro ⟨front, back, rfl, isEntry, allUsed⟩
        exact ⟨place :: front, back, rfl, isEntry, forall_mem_cons.mpr ⟨used, allUsed⟩⟩
      rw [used] at mem
      simp only [Bool.false_eq_true, if_false] at mem
      split at mem
      · exact later (ih mem)
      · split at mem
        · exact later (ih mem)
        · rename_i notLong kept
          rcases mem_cons.mp mem with rfl | inRest
          · simp only [Bool.not_eq_true] at notLong kept
            exact ⟨[], rest, rfl, isEntry_iff.mpr ⟨used, kept, notLong⟩, forall_mem_nil _⟩
          · exact later (ih inRest)

theorem removed_listing {kept gone : List (Address × Slot)} {addr : Address}
    (ord : Orderly ((kept ++ gone ++ (addr, slot) :: behind).map Prod.snd)) (isEntry : slot.isEntry = true)
    (long : ∀ place ∈ gone, place.2.isLong = true ∧ place.2.neverUsed = false)
    (used : ∀ place ∈ kept, place.2.neverUsed = false) (state : LongName) : ∃ front first back, first.address = addr ∧
      (readSlots state (kept ++ gone ++ (addr, slot) :: behind)).1 = front ++ first :: back ∧
      (readSlots state (kept ++ gone.map (Prod.map id Slot.marked) ++ (addr, slot.marked) :: behind)).1 = front ++ back := by
  have tail : Orderly (behind.map Prod.snd) := by
    rw [map_append, map_cons] at ord
    exact Orderly.behind_entry isEntry ord
  have marked : ∀ place ∈ gone.map (Prod.map id Slot.marked), place.2.isLong = true ∧ place.2.neverUsed = false := by
    intro place mem
    obtain ⟨first, hin, rfl⟩ := mem_map.mp mem
    exact ⟨(Slot.marked_isLong first.2).trans (long first hin).1, Slot.marked_neverUsed first.2⟩
  obtain ⟨notUnused, notDeleted, notLong⟩ := isEntry_iff.mp isEntry
  obtain ⟨front, mid, split⟩ := listed_split used state
  rw [append_assoc, append_assoc, split, split, readSlots_longs long, readSlots_longs marked]
  generalize (gone.map Prod.snd).foldl LongName.take mid = first
  generalize ((gone.map (Prod.map id Slot.marked)).map Prod.snd).foldl LongName.take mid = snd
  have onward : (readSlots first.reset behind).1 = (readSlots snd.reset behind).1 := tail.listed rfl rfl
  refine ⟨front, ⟨if first.haveLfn then first.text else slot.shortName, slot, addr⟩, (readSlots first.reset behind).1, rfl, ?_, ?_⟩
  · simp [readSlots, notUnused, notDeleted, notLong]
  · simp [readSlots, Slot.marked_neverUsed, Slot.marked_deleted, Slot.marked_isLong, notLong, onward]

/-- The run is where the reader gets, and it hid nothing from it: no entry stands behind a slot
never used of the run, and none took the empty name of a deleted long slot at its end. -/
def SafeRun (before run behind : List Slot) : Prop :=
  (∀ slot ∈ before, slot.neverUsed = false) ∧
    ((∃ slot ∈ run, slot.neverUsed = true) → ∀ slot ∈ behind.takeWhile fun slot => !slot.neverUsed, slot.isEntry = false) ∧
    ((∀ slot ∈ run, slot.neverUsed = false) → ∀ last ∈ run.getLast?, last.isLong = true →
      ∀ first ∈ behind.head?, first.isEntry = true → first.shortName = [])

theorem filled_perm_iff {listed : Listed} {new : List (Address × Slot)}
    (ord : Orderly ((before ++ run ++ behind).map Prod.snd)) (free : ∀ place ∈ run, place.2.isFree = true) (nonempty : run ≠ [])
    (reads : ∀ state more, ∃ left : LongName, left.haveLfn = false ∧
      readSlots state (new ++ more) = (listed :: (readSlots left more).1, (readSlots left more).2)) (state : LongName) :
    (readSlots state (before ++ new ++ behind)).1.Perm (listed :: (readSlots state (before ++ run ++ behind)).1) ↔
      SafeRun (before.map Prod.snd) (run.map Prod.snd) (behind.map Prod.snd) := by
  rw [map_append, map_append] at ord
  have isFree : ∀ slot ∈ run.map Prod.snd, slot.isFree = true := by
    intro slot mem
    obtain ⟨place, hin, rfl⟩ := mem_map.mp mem
    exact free place hin
  have tail := (Orderly.split_run isFree (by simpa using nonempty) ord).2
  unfold SafeRun
  by_cases hr : ∀ slot ∈ before.map Prod.snd, slot.neverUsed = false
  · obtain ⟨front, mid, split⟩ := listed_split (forall_mem_map.mp hr) state
    obtain ⟨left, noName, filled⟩ := reads mid behind
    rw [append_assoc, append_assoc, split, split, filled]
    have cancel : (front ++ listed :: (readSlots left behind).1).Perm (listed :: (front ++ (readSlots mid (run ++ behind)).1)) ↔
        (readSlots left behind).1.Perm (readSlots mid (run ++ behind)).1 := by
      rw [perm_middle.congr_left, perm_cons, perm_append_left_iff]
    rw [cancel]
    by_cases unused : ∃ slot ∈ run.map Prod.snd, slot.neverUsed = true
    · -- the old dir ends hin the run
      obtain ⟨slot, mem, isUnused⟩ := unused
      obtain ⟨place, hin, rfl⟩ := mem_map.mp mem
      have stops : (readSlots mid (run ++ behind)).1 = [] := by
        rw [readSlots_stops hin isUnused, readSlots_nil_iff]
        intro slot before
        have := isFree slot (takeWhile_subset _ before)
        simp [Slot.isEntry, this]
      rw [stops, perm_nil, readSlots_nil_iff]
      refine ⟨fun none => ⟨hr, fun _ => none, fun used => ?_⟩, fun safe => safe.2.1 ⟨_, mem, isUnused⟩⟩
      exact nomatch (used _ mem).symm.trans isUnused
    · -- the old dir goes on with what the last deleted slot left
      have used : ∀ slot ∈ run.map Prod.snd, slot.neverUsed = false := by
        intro slot mem
        cases isUnused : slot.neverUsed with
        | false => rfl
        | true => exact absurd ⟨slot, mem, isUnused⟩ unused
      obtain rfl | ⟨init, last, rfl⟩ := run.eq_nil_or_concat'
      · exact absurd rfl nonempty
      · have deleted : ∀ place ∈ init ++ [last], place.2.deleted = true ∧ place.2.neverUsed = false := by
          intro place mem
          have notUnused := used place.2 (mem_map_of_mem mem)
          have := free place mem
          unfold Slot.isFree at this
          rw [notUnused, Bool.false_or] at this
          exact ⟨this, notUnused⟩
        obtain ⟨behindRun, reading, atHand, dropped⟩ := readSlots_deleted deleted mid
        rw [readSlots_append, reading]
        unfold readOn
        dsimp only
        rw [nil_append]
        have lastSlot : ((init ++ [last]).map Prod.snd).getLast? = some last.2 := by simp
        rw [lastSlot]
        cases isLong : last.2.isLong with
        | false =>
          rw [tail.listed noName (dropped isLong)]
          refine iff_of_true (List.Perm.refl _) ⟨hr, fun isUnused => absurd isUnused unused, fun _ final isLast long => ?_⟩
          rw [← Option.some.inj isLast, isLong] at long
          exact nomatch long
        | true =>
          obtain ⟨haveLfn, text⟩ := atHand isLong
          rcases tail.listed_behind haveLfn noName with ⟨eq, noEntry⟩ | ⟨addr, short, rest, rfl, isEntry, others, old, new⟩
          · grind
          · rw [old, new, text]
            have heads : ∀ x y : Listed, (x :: others).Perm (y :: others) ↔ x = y := fun x y =>
              (@List.perm_append_right_iff _ [x] [y] others).trans singleton_perm_singleton
            rw [heads]
            constructor
            · grind
            · grind
  · -- the reader does not get as far as the run
    obtain ⟨place, mem, isUnused⟩ : ∃ place ∈ before, place.2.neverUsed = true := by
      by_contra none
      apply hr
      intro slot mem
      obtain ⟨place, hin, rfl⟩ := mem_map.mp mem
      cases isUnused : place.2.neverUsed with
      | false => rfl
      | true => exact absurd ⟨place, hin, isUnused⟩ none
    rw [append_assoc, append_assoc, readSlots_stops mem isUnused, readSlots_stops mem isUnused]
    refine ⟨fun eq => ?_, fun safe => absurd safe.1 hr⟩
    have := eq.length_eq
    rw [length_cons] at this
    omega

end RosKernel.Fat32
