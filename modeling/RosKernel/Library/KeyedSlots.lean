import Mathlib.Logic.Function.Basic

/-! A fixed table of slots that finds objects by a key.

An object enters the first empty slot and is left out when there is none; lookup and
removal take the first slot whose object has the key.
-/

set_option autoImplicit false

namespace RosKernel.Library.KeyedSlots

open List Option

open Function (update update_apply update_of_ne update_self)

variable {Obj Key : Type} [DecidableEq Key]

def holds (key : Obj → Option Key) (k : Key) (slot : Option Obj) : Bool := slot.bind key == some k

def lookup (key : Obj → Option Key) (slots : List (Option Obj)) (k : Key) : Option Obj := (slots.find? (holds key k)).join

def insert (slots : List (Option Obj)) (obj : Obj) : List (Option Obj) :=
  match slots.findIdx? Option.isNone with
  | some i => slots.set i (some obj)
  | none => slots

def remove (key : Obj → Option Key) (slots : List (Option Obj)) (k : Key) : List (Option Obj) :=
  match slots.findIdx? (holds key k) with
  | some i => slots.set i none
  | none => slots

/-- The slots hold the objects that have a key, each once, and no two of them have the same key. -/
structure Indexed (key : Obj → Option Key) (slots : List (Option Obj)) : Prop where
  held : ∀ obj, some obj ∈ slots ↔ (key obj).isSome
  once : ∀ (i j : Nat) obj, slots[i]? = some (some obj) → slots[j]? = some (some obj) → i = j
  distinct : ∀ obj other k, key obj = some k → key other = some k → obj = other

variable {key : Obj → Option Key} {slots : List (Option Obj)} {obj : Obj} {k : Key}

theorem holds_iff {slot : Option Obj} : holds key k slot = true ↔ ∃ obj, slot = some obj ∧ key obj = some k := by
  cases slot <;> simp [holds]

theorem lookup_eq_some (hf : lookup key slots k = some obj) : some obj ∈ slots ∧ key obj = some k := by
  have first := Option.join_eq_some_iff.mp hf
  obtain ⟨_, eq, keyed⟩ := holds_iff.mp (find?_some first)
  exact ⟨mem_of_find?_eq_some first, some.inj eq ▸ keyed⟩

theorem lookup_eq_none (miss : lookup key slots k = none) : ∀ obj, some obj ∈ slots → key obj ≠ some k := by
  intro obj mem keyed
  have holding : holds key k (some obj) = true := holds_iff.mpr ⟨obj, rfl, keyed⟩
  cases first : slots.find? (holds key k) with
  | none => exact find?_eq_none.mp first _ mem holding
  | some slot =>
    obtain ⟨_, rfl, _⟩ := holds_iff.mp (find?_some first)
    exact nomatch miss.symm.trans (congrArg Option.join first)

omit [DecidableEq Key] in
omit [DecidableEq Key] in
theorem insert_of_full (full : none ∉ slots) : insert slots obj = slots := by
  unfold insert
  cases hf : slots.findIdx? Option.isNone with
  | none => rfl
  | some i =>
    obtain ⟨bound, empty, _⟩ := findIdx?_eq_some_iff_getElem.mp hf
    exact absurd (Option.isNone_iff_eq_none.mp empty ▸ getElem_mem bound) full

theorem getElem?_of_set {i j : Nat} {slot : Option Obj} (ne : slot ≠ some obj)
    (there : (slots.set i slot)[j]? = some (some obj)) : slots[j]? = some (some obj) := by
  rw [getElem?_set] at there
  split at there
  case isTrue =>
    split at there
    · exact absurd (some.inj there) ne
    · exact nomatch there
  case isFalse => exact there

theorem mem_set_iff {i : Nat} {pre slot : Option Obj} (h : slots[i]? = some pre) (left : pre ≠ some obj)
    (ne : slot ≠ some obj) : some obj ∈ slots.set i slot ↔ some obj ∈ slots := by
  simp only [mem_iff_getElem?]
  constructor
  · grind
  · rintro ⟨j, there⟩
    refine ⟨j, (getElem?_set_ne fun eq => left ?_).trans there⟩
    exact some.inj (h.symm.trans (eq ▸ there))

theorem mem_of_remove (mem : some obj ∈ remove key slots k) : some obj ∈ slots := by
  unfold remove at mem
  split at mem
  · exact (mem_or_eq_of_mem_set mem).resolve_right nofun
  · exact mem

omit [DecidableEq Key] in
theorem mem_of_insert {new : Obj} (mem : some obj ∈ insert slots new) : obj = new ∨ some obj ∈ slots := by
  unfold insert at mem
  split at mem
  · grind
  · exact .inr mem

namespace Indexed

theorem lookup_of_key (indexed : Indexed key slots) (keyed : key obj = some k) : lookup key slots k = some obj := by
  have mem := (indexed.held obj).mpr (keyed ▸ rfl)
  cases hf : lookup key slots k with
  | none => exact absurd keyed (lookup_eq_none hf obj mem)
  | some other => exact congrArg some (indexed.distinct other obj k (lookup_eq_some hf).2 keyed)

theorem lookup_iff (indexed : Indexed key slots) : lookup key slots k = some obj ↔ key obj = some k :=
  ⟨fun hf => (lookup_eq_some hf).2, indexed.lookup_of_key⟩

theorem findIdx?_holds (indexed : Indexed key slots) (keyed : key obj = some k) :
    ∃ i, slots.findIdx? (holds key k) = some i ∧ slots[i]? = some (some obj) := by
  have mem := (indexed.held obj).mpr (keyed ▸ rfl)
  cases hf : slots.findIdx? (holds key k) with
  | none =>
    have nowhere := findIdx?_eq_none_iff.mp hf _ mem
    exact nomatch nowhere.symm.trans (holds_iff.mpr ⟨obj, rfl, keyed⟩)
  | some i =>
    obtain ⟨bound, holding, _⟩ := findIdx?_eq_some_iff_getElem.mp hf
    obtain ⟨other, eq, theirs⟩ := holds_iff.mp holding
    refine ⟨i, rfl, ?_⟩
    rw [getElem?_eq_getElem bound, eq, indexed.distinct other obj k theirs keyed]

variable [DecidableEq Obj]

omit [DecidableEq Key] in
theorem inserted (indexed : Indexed key slots) (room : none ∈ slots) (unkeyed : key obj = none)
    (fresh : ∀ other, key other ≠ some k) : Indexed (update key obj (some k)) (insert slots obj) := by
  unfold insert
  cases hf : slots.findIdx? Option.isNone with
  | none => exact nomatch (findIdx?_eq_none_iff.mp hf _ room)
  | some i =>
    obtain ⟨bound, empty, _⟩ := findIdx?_eq_some_iff_getElem.mp hf
    have h : slots[i]? = some none := by rw [getElem?_eq_getElem bound, Option.isNone_iff_eq_none.mp empty]
    have absent : some obj ∉ slots := fun mem => nomatch unkeyed ▸ (indexed.held obj).mp mem
    refine ⟨fun other => ?_, fun a b other first snd => ?_, fun first snd key' atFirst atSecond => ?_⟩
    · by_cases same : other = obj
      · rw [same, update_self]
        exact iff_of_true (mem_set bound _) rfl
      · rw [update_of_ne same, ← indexed.held]
        exact mem_set_iff h nofun fun eq => same (some.inj eq).symm
    · by_cases same : other = obj
      · have place : ∀ c : Nat, (slots.set i (some obj))[c]? = some (some other) → c = i := fun c there => by
          by_contra ne
          rw [getElem?_set_ne (Ne.symm ne), same] at there
          exact absent (mem_of_getElem? there)
        rw [place a first, place b snd]
      · have ne : some obj ≠ some other := fun eq => same (some.inj eq).symm
        exact indexed.once a b other (getElem?_of_set ne first) (getElem?_of_set ne snd)
    · simp only [update_apply] at atFirst atSecond
      split at atFirst <;> split at atSecond
      case isTrue.isTrue left right => exact left.trans right.symm
      case isTrue.isFalse => exact absurd (atSecond.trans atFirst.symm) (fresh snd)
      case isFalse.isTrue => exact absurd (atFirst.trans atSecond.symm) (fresh first)
      case isFalse.isFalse => exact indexed.distinct first snd key' atFirst atSecond

theorem removed (indexed : Indexed key slots) (keyed : key obj = some k) :
    Indexed (update key obj none) (remove key slots k) := by
  obtain ⟨i, hf, h⟩ := indexed.findIdx?_holds keyed
  unfold remove
  rw [hf]
  have gone : ∀ obj : Obj, none ≠ some obj := fun _ => nofun
  refine ⟨fun other => ?_, fun a b other first snd => ?_, fun first snd key' atFirst atSecond => ?_⟩
  · by_cases same : other = obj
    · rw [same, update_self]
      refine iff_of_false (fun mem => ?_) nofun
      obtain ⟨j, there⟩ := mem_iff_getElem?.mp mem
      have place := indexed.once i j obj h (getElem?_of_set (gone obj) there)
      rw [← place, getElem?_set_self (List.getElem?_eq_some_iff.mp h).1] at there
      exact nomatch there
    · rw [update_of_ne same, ← indexed.held]
      exact mem_set_iff h (fun eq => same (some.inj eq).symm) (gone other)
  · exact indexed.once a b other (getElem?_of_set (gone other) first) (getElem?_of_set (gone other) snd)
  · simp only [update_apply] at atFirst atSecond
    split at atFirst <;> split at atSecond <;> first | contradiction | skip
    exact indexed.distinct first snd key' atFirst atSecond

end Indexed

/-- Every slot is empty or holds an object with a key, and no two hold the same key. Objects may be left out. -/
structure Sparse (key : Obj → Option Key) (slots : List (Option Obj)) : Prop where
  held : ∀ obj, some obj ∈ slots → (key obj).isSome
  apart : ∀ (i j : Nat) obj other, slots[i]? = some (some obj) → slots[j]? = some (some other) → key obj = key other → i = j

namespace Sparse

omit [DecidableEq Key] in
theorem congr {key' : Obj → Option Key} (sparse : Sparse key slots) (same : ∀ obj, some obj ∈ slots → key' obj = key obj) :
    Sparse key' slots where
  held obj mem := (same obj mem).symm ▸ sparse.held obj mem
  apart i j obj other first second eq := by
    rw [same obj (mem_of_getElem? first), same other (mem_of_getElem? second)] at eq
    exact sparse.apart i j obj other first second eq

theorem inserted [DecidableEq Obj] (sparse : Sparse key slots) (unkeyed : key obj = none) (miss : lookup key slots k = none) :
    Sparse (update key obj (some k)) (insert slots obj) := by
  have absent : some obj ∉ slots := fun mem => nomatch unkeyed ▸ sparse.held obj mem
  have old : ∀ other, some other ∈ slots → update key obj (some k) other = key other := by
    intro other mem
    apply update_of_ne
    rintro rfl
    exact absent mem
  unfold insert
  cases hf : slots.findIdx? Option.isNone with
  | none => exact sparse.congr old
  | some i =>
    have place : ∀ (j : Nat) other, (slots.set i (some obj))[j]? = some (some other) → j = i ∧ other = obj ∨ slots[j]? = some (some other) := by
      intro j other there
      rw [getElem?_set] at there
      split at there
      case isTrue same =>
        split at there
        · grind
        · exact nomatch there
      case isFalse => exact .inr there
    have new : ∀ (j : Nat) other, slots[j]? = some (some other) → update key obj (some k) other ≠ some k := by
      intro j other there keyed
      have mem := mem_of_getElem? there
      exact lookup_eq_none miss other mem ((old other mem).symm.trans keyed)
    refine ⟨fun other mem => ?_, fun a b one other first snd eq => ?_⟩
    · rcases mem_or_eq_of_mem_set mem with pre | same
      · exact old other pre ▸ sparse.held other pre
      · rw [some.inj same, update_self]
        rfl
    · rcases place a one first with ⟨rfl, rfl⟩ | earlier <;> rcases place b other snd with ⟨rfl, rfl⟩ | later
      · rfl
      · grind
      · exact absurd (eq.trans (update_self ..)) (new a one earlier)
      · rw [old one (mem_of_getElem? earlier), old other (mem_of_getElem? later)] at eq
        exact sparse.apart a b one other earlier later eq

theorem removed [DecidableEq Obj] (sparse : Sparse key slots) (keyed : key obj = some k) :
    Sparse (update key obj none) (remove key slots k) := by
  have gone : ∀ other, some other ∈ remove key slots k → other ≠ obj ∧ some other ∈ slots := by
    intro other mem
    unfold remove at mem
    cases hf : slots.findIdx? (holds key k) with
    | none =>
      rw [hf] at mem
      refine ⟨?_, mem⟩
      rintro rfl
      exact nomatch (findIdx?_eq_none_iff.mp hf _ mem).symm.trans (holds_iff.mpr ⟨other, rfl, keyed⟩)
    | some i =>
      rw [hf] at mem
      obtain ⟨bound, holding, _⟩ := findIdx?_eq_some_iff_getElem.mp hf
      obtain ⟨first, same, theirs⟩ := holds_iff.mp holding
      obtain ⟨j, there⟩ := mem_iff_getElem?.mp mem
      have pre := getElem?_of_set (show none ≠ some other from nofun) there
      refine ⟨?_, mem_of_getElem? pre⟩
      rintro rfl
      have place := sparse.apart i j first other (by rw [getElem?_eq_getElem bound, same]) pre (theirs.trans keyed.symm)
      rw [← place, getElem?_set_self bound] at there
      exact nomatch there
  have old : ∀ other, some other ∈ remove key slots k → update key obj none other = key other := fun other mem =>
    update_of_ne (gone other mem).1 ..
  have slot : ∀ (j : Nat) other, (remove key slots k)[j]? = some (some other) → slots[j]? = some (some other) := by
    intro j other there
    unfold remove at there
    split at there
    · grind
    · exact there
  refine ⟨fun other mem => ?_, fun a b one other first snd eq => ?_⟩
  · exact old other mem ▸ sparse.held other (gone other mem).2
  · rw [old one (mem_of_getElem? first), old other (mem_of_getElem? snd)] at eq
    exact sparse.apart a b one other (slot a one first) (slot b other snd) eq

end Sparse

end RosKernel.Library.KeyedSlots
