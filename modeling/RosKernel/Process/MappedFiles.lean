import Mathlib.Data.List.ReduceOption
import RosKernel.Process.FileRefs

/-! Reference counts across memory mappings.

The calls keep the counts only under conditions. `Sys_MMap` does not count an area of
a shared memory region or of the framebuffer; `TryMergeNext` joins two areas of a file
without giving a reference back; a hole in an area of a file makes two areas of one;
`Sys_Munmap` never deletes the file whose last reference it drops; `Sys_Fork` copies
areas without counting them; `Sys_Execve` and `DestroyTask` drop them without.
-/

set_option autoImplicit false

namespace RosKernel.Process

open Library Memory List

/-! ## Areas that point to a file -/

section

variable {vmas rest before after : List VMArea} {id : FileId} {addr endAddr prot : Nat}

theorem areaRefs_cons (area : VMArea) : areaRefs id (area :: vmas) =
    areaRefs id vmas + if area.backingFile = some id then 1 else 0 := by
  simp only [areaRefs, countP_cons, beq_iff_eq]

theorem areaRefs_append : areaRefs id (before ++ after) = areaRefs id before + areaRefs id after :=
  countP_append

/-- Joining them would lose count of a file. -/
def VMArea.JoinsFile (current next : VMArea) : Prop :=
  current.backingFile.isSome = true ∧ current.mergeable next = true

theorem areaRefs_tryMergeNext {cur : VMArea} (ne : ∀ next, rest.head? = some next → ¬ cur.JoinsFile next) :
    areaRefs id ((tryMergeNext cur rest).1 :: (tryMergeNext cur rest).2) = areaRefs id (cur :: rest) := by
  rcases tryMergeNext_cases cur rest with eq | ⟨next, tail, rfl, _, _, _, file, _, joined⟩
  · rw [eq]
  · by_cases merge : cur.mergeable next = true
    · have anonymous : cur.backingFile = none := by
        by_contra backed
        exact ne next rfl ⟨Option.isSome_iff_ne_none.mpr backed, merge⟩
      rw [joined, areaRefs_cons, areaRefs_cons, areaRefs_cons, file, anonymous]
      rfl
    · rw [show tryMergeNext cur (next :: tail) = (cur, next :: tail) from if_neg merge]

theorem tryMergeNext_backing (cur : VMArea) (rest : List VMArea) :
    (tryMergeNext cur rest).1.backingFile = cur.backingFile := by
  rcases tryMergeNext_cases cur rest with eq | ⟨next, tail, rfl, _, _, _, _, _, joined⟩
  · rw [eq]
  · rw [joined]

theorem mergeable_backing {cur next : VMArea} (merge : cur.mergeable next = true) :
    cur.backingFile = next.backingFile := by
  simp only [VMArea.mergeable, Bool.and_eq_true, beq_iff_eq] at merge
  exact merge.1.2

/-- The new area continues no area of its file and is continued by none. -/
def VMArea.Separate (new : VMArea) (vmas : List VMArea) : Prop :=
  ∀ area ∈ vmas, ¬ new.JoinsFile area ∧ ¬ area.JoinsFile new

theorem VMArea.Separate.merged {new iter : VMArea} (separate : new.Separate (iter :: rest)) :
    ¬ iter.JoinsFile (tryMergeNext new rest).1 := by
  rintro ⟨backed, merge⟩
  rcases tryMergeNext_cases new rest with eq | ⟨next, tail, rfl, _, _, _, _, _, joined⟩
  · rw [eq] at merge
    exact (separate iter (.head _)).2 ⟨backed, merge⟩
  · by_cases merges : new.mergeable next = true
    · have file : iter.backingFile = new.backingFile :=
        (mergeable_backing merge).trans (tryMergeNext_backing new (next :: tail))
      exact (separate next (by simp)).1 ⟨file ▸ backed, merges⟩
    · rw [show tryMergeNext new (next :: tail) = (new, next :: tail) from if_neg merges] at merge
      exact (separate iter (.head _)).2 ⟨backed, merge⟩

theorem areaRefs_insertAfter {new iter : VMArea} (separate : new.Separate (iter :: rest)) :
    areaRefs id (insertAfter new iter rest).1 = areaRefs id (new :: iter :: rest) := by
  induction rest generalizing iter with
  | nil =>
    have ne : ∀ next, [new].head? = some next → ¬ iter.JoinsFile next := by
      intro next head
      cases head
      exact (separate iter (.head _)).2
    have counts : areaRefs id (insertAfter new iter []).1 = areaRefs id [iter, new] := areaRefs_tryMergeNext ne
    rw [counts]
    simp only [areaRefs_cons]
    omega
  | cons next rest ih =>
    have inner : new.Separate (next :: rest) := fun area mem => separate area (.tail _ mem)
    unfold insertAfter
    by_cases further : next.start < new.start
    · rw [if_pos further]
      have counts := ih inner
      simp only [areaRefs_cons] at counts ⊢
      omega
    · rw [if_neg further]
      have right : areaRefs id ((tryMergeNext new (next :: rest)).1 :: (tryMergeNext new (next :: rest)).2) =
          areaRefs id (new :: next :: rest) := by
        apply areaRefs_tryMergeNext
        intro head hf
        cases hf
        exact (inner next (.head _)).1
      have left : areaRefs id ((tryMergeNext iter ((tryMergeNext new (next :: rest)).1 ::
            (tryMergeNext new (next :: rest)).2)).1 ::
          (tryMergeNext iter ((tryMergeNext new (next :: rest)).1 :: (tryMergeNext new (next :: rest)).2)).2) =
          areaRefs id (iter :: (tryMergeNext new (next :: rest)).1 :: (tryMergeNext new (next :: rest)).2) := by
        apply areaRefs_tryMergeNext
        intro head hf
        cases hf
        exact separate.merged
      rw [left, areaRefs_cons, right]
      simp only [areaRefs_cons]
      omega

theorem areaRefs_insertVmaSorted {new : VMArea} (separate : new.Separate vmas) :
    areaRefs id (insertVmaSorted new vmas).1 = areaRefs id (new :: vmas) := by
  cases vmas with
  | nil => rfl
  | cons head rest =>
    simp only [insertVmaSorted]
    by_cases first : new.start < head.start
    · rw [if_pos first]
      apply areaRefs_tryMergeNext
      intro next hf
      cases hf
      exact (separate head (.head _)).1
    · rw [if_neg first]
      exact areaRefs_insertAfter separate

/-! ### Removing a range -/

/-- The files of which a list of effects gives a reference back. -/
def released (effects : List MmEffect) : List FileId :=
  effects.filterMap fun
    | .release file => some file
    | _ => none

def retained (effects : List MmEffect) : List FileId :=
  effects.filterMap fun
    | .retain file => some file
    | _ => none

/-- The area lies inside the range that is removed. -/
def VMArea.inside (area : VMArea) (addr endAddr : Nat) : Bool :=
  overlaps addr endAddr area && addr ≤ area.start && area.stop ≤ endAddr

theorem released_releases (area : VMArea) (start size : Nat) (free : Bool) :
    (released (.unmapRange start size free :: area.releases)).count id = areaRefs id [area] := by
  rw [areaRefs_cons]
  cases backing : area.backingFile with
  | none => simp [released, VMArea.releases, backing, areaRefs]
  | some file => simp [released, VMArea.releases, backing, areaRefs, count_cons]

/-- Each area of a file stays one area of it or gives its reference back, unless a hole is punched into it. -/
theorem carve_refs {area : VMArea} (whole : area.backingFile = some id → (area.carve addr endAddr).punched = false) :
    areaRefs id (area.carve addr endAddr).kept + (released (area.carve addr endAddr).effects).count id =
      areaRefs id [area] := by
  unfold VMArea.carve at whole ⊢
  split
  · rfl
  · split
    · rw [released_releases]
      exact Nat.zero_add _
    · split
      next starts =>
        split
        next ends =>
          -- A punched area has no file, so neither part counts.
          have other : ¬ area.backingFile = some id := by
            intro file
            simp_all
          simp [other, areaRefs, released]
        next => rfl
      next =>
        split
        · rfl
        · rfl

theorem carve_released (id : FileId) (addr endAddr : Nat) (area : VMArea) : (released (area.carve addr endAddr).effects).count id =
    if area.inside addr endAddr = true then areaRefs id [area] else 0 := by
  unfold VMArea.carve
  simp only [VMArea.inside, overlaps, Bool.and_eq_true, decide_eq_true_eq]
  split
  next ne =>
    rw [if_neg (by omega)]
    rfl
  next =>
    split
    · rw [released_releases, if_pos (by omega)]
    · split_ifs <;> first | rfl | omega

theorem areaRefs_munmap (whole : ∀ area ∈ vmas, area.backingFile = some id → (area.carve addr endAddr).punched = false) :
    areaRefs id (vmas.flatMap fun area => (area.carve addr endAddr).kept) +
      (released (vmas.flatMap fun area => (area.carve addr endAddr).effects)).count id = areaRefs id vmas := by
  induction vmas with
  | nil => rfl
  | cons area rest ih =>
    have h := carve_refs (whole area (.head _))
    have later := ih fun other mem => whole other (.tail _ mem)
    simp only [flatMap_cons, areaRefs_append, released, filterMap_append, count_append] at h later ⊢
    rw [areaRefs_cons] at h ⊢
    simp only [areaRefs, countP_nil] at h
    simp only [areaRefs] at later ⊢
    omega

theorem released_munmap : (released (vmas.flatMap fun area => (area.carve addr endAddr).effects)).count id =
    areaRefs id (vmas.filter fun area => area.inside addr endAddr) := by
  induction vmas with
  | nil => rfl
  | cons area rest ih =>
    have h := carve_released id addr endAddr area
    simp only [flatMap_cons, released, filterMap_append, count_append, filter_cons] at h ih ⊢
    rw [h, ih]
    split
    · rw [areaRefs_cons, areaRefs_cons]
      simp only [areaRefs, countP_nil]
      omega
    · omega

/-! ### Changing protections -/

/-- Areas do not end before they start. -/
def Ordered (vmas : List VMArea) : Prop := ∀ area ∈ vmas, area.start ≤ area.stop

/-- No area of a file that the call still has to visit is joined to the next one. -/
def Unjoined (scanAddr endAddr prot : Nat) (vmas : List VMArea) : Prop :=
  ∀ area ∈ vmas, area.backingFile.isSome = true → scanAddr < area.stop → area.start < endAddr →
    (endAddr < area.stop → area.prot ≠ prot) ∧
      (area.stop ≤ endAddr → ∀ next ∈ vmas, ¬ { area with prot := prot }.mergeable next = true)

theorem tryMergeNext_subset (cur : VMArea) (rest : List VMArea) : (tryMergeNext cur rest).2 ⊆ rest := by
  rcases tryMergeNext_cases cur rest with eq | ⟨next, tail, rfl, _, _, _, _, _, joined⟩
  · rw [eq]
    exact fun _ mem => mem
  · rw [joined]
    exact fun _ mem => .tail _ mem

theorem Ordered.tryMergeNext {cur : VMArea} (ord : Ordered (before ++ cur :: rest)) :
    Ordered (before ++ (Process.tryMergeNext cur rest).1 :: (Process.tryMergeNext cur rest).2) ∧
      cur.stop ≤ (Process.tryMergeNext cur rest).1.stop := by
  rcases tryMergeNext_cases cur rest with eq | ⟨next, tail, rfl, touch, _, _, _, _, joined⟩
  · rw [eq]
    exact ⟨ord, Nat.le_refl _⟩
  · rw [joined]
    have first := ord cur (by simp)
    have snd := ord next (by simp)
    refine ⟨fun area mem => ?_, by simp only; omega⟩
    simp only [mem_append, mem_cons] at mem
    rcases mem with earlier | rfl | later
    · exact ord area (by simp [earlier])
    · simp only
      omega
    · exact ord area (by simp [later])

theorem Ordered.split {hf : VMArea} (ord : Ordered (before ++ hf :: after)) (low : hf.start ≤ addr)
    (high : addr ≤ hf.stop) : Ordered (before ++ hf.splitLeft addr :: hf.splitRight addr :: after) := by
  intro area mem
  simp only [mem_append, mem_cons] at mem
  rcases mem with earlier | rfl | rfl | later
  · exact ord area (by simp [earlier])
  · exact low
  · exact high
  · exact ord area (by simp [later])

theorem Ordered.protect {hf : VMArea} (prot : Nat) (ord : Ordered (before ++ hf :: after)) (more : hf.start < endAddr) :
    Ordered (before ++ protectTarget endAddr prot hf :: protectRest endAddr hf after) := by
  unfold protectTarget protectRest
  by_cases cut : endAddr < hf.stop
  · rw [if_pos cut, if_pos cut]
    intro area mem
    simp only [mem_append, mem_cons] at mem
    rcases mem with earlier | rfl | rfl | later
    · exact ord area (by simp [earlier])
    · exact Nat.le_of_lt more
    · exact Nat.le_of_lt cut
    · exact ord area (by simp [later])
  · rw [if_neg cut, if_neg cut]
    intro area mem
    simp only [mem_append, mem_cons] at mem
    rcases mem with earlier | rfl | later
    · exact ord area (by simp [earlier])
    · exact ord hf (by simp)
    · exact ord area (by simp [later])

/-- A cut moves the end of a file range with the area, so what continues it stays the same. -/
theorem mergeable_splitRight {hf next : VMArea} {scanAddr : Nat} (word : scanAddr ≤ 2 ^ 64) :
    { hf.splitRight scanAddr with prot := prot }.mergeable next = { hf with prot := prot }.mergeable next := by
  have off : hf.backingFile.isNone = false →
      add64 (hf.splitRight scanAddr).fileOffset (sub64 hf.stop scanAddr) =
        add64 hf.fileOffset (sub64 hf.stop hf.start) := by
    intro backed
    have some_ : hf.backingFile.isSome = true := by rw [← Option.not_isNone, backed]; rfl
    simp only [VMArea.splitRight, some_, if_true, add64, sub64]
    omega
  unfold VMArea.mergeable
  cases backed : hf.backingFile.isNone with
  | true => simp [VMArea.splitRight, backed]
  | false =>
    have := off backed
    simp only [VMArea.splitRight] at this ⊢
    rw [backed, this]

theorem Unjoined.split {hf : VMArea} {scanAddr : Nat} (unjoined : Unjoined scanAddr endAddr prot (before ++ hf :: after))
    (more : scanAddr < endAddr) (inner : hf.start < scanAddr) (word : endAddr ≤ 2 ^ 64) :
    Unjoined scanAddr endAddr prot (before ++ hf.splitLeft scanAddr :: hf.splitRight scanAddr :: after) := by
  -- What an orig area must not be joined to: the left piece reads as the whole area did,
  -- and nothing ahead of the scan address ends where the right piece starts.
  have nexts : ∀ area : VMArea, scanAddr < area.stop →
      (∀ next ∈ before ++ hf :: after, ¬ { area with prot := prot }.mergeable next = true) →
      ∀ next ∈ before ++ hf.splitLeft scanAddr :: hf.splitRight scanAddr :: after,
        ¬ { area with prot := prot }.mergeable next = true := by
    intro area ahead ne next mem
    simp only [mem_append, mem_cons] at mem
    rcases mem with earlier | rfl | rfl | later
    · exact ne next (by simp [earlier])
    · exact ne hf (by simp)
    · intro merge
      simp only [VMArea.mergeable, Bool.and_eq_true, beq_iff_eq] at merge
      have touch : area.stop = scanAddr := merge.1.1.1.1
      omega
    · exact ne next (by simp [later])
  intro area mem backed ahead starts
  simp only [mem_append, mem_cons] at mem
  have orig : area ∈ before ++ hf :: after → _ := fun inList => unjoined area inList backed ahead starts
  rcases mem with earlier | rfl | rfl | later
  · grind
  · exact absurd ahead (Nat.lt_irrefl scanAddr)
  · obtain ⟨cut, ne⟩ := unjoined hf (by simp) backed ahead (Nat.lt_trans inner more)
    refine ⟨cut, fun ends next inList => ?_⟩
    rw [mergeable_splitRight (Nat.le_trans (Nat.le_of_lt more) word)]
    exact nexts hf ahead (ne ends) next inList
  · grind

theorem Unjoined.target {hf : VMArea} (unjoined : Unjoined hf.start endAddr prot (before ++ hf :: after))
    (more : hf.start < endAddr) (high : hf.start < hf.stop) :
    ∀ next, (protectRest endAddr hf after).head? = some next → ¬ (protectTarget endAddr prot hf).JoinsFile next := by
  intro next head ⟨backed, merge⟩
  unfold protectRest at head
  unfold protectTarget at backed merge
  by_cases cut : endAddr < hf.stop
  · rw [if_pos cut] at head backed merge
    cases head
    have ne := (unjoined hf (by simp) backed high more).1 cut
    simp only [VMArea.mergeable, Bool.and_eq_true, beq_iff_eq] at merge
    exact ne merge.1.1.1.2.symm
  · rw [if_neg cut] at head backed merge
    exact (unjoined hf (by simp) backed high more).2 (Nat.le_of_not_lt cut) next
      (by simp [mem_of_mem_head? head]) merge

theorem Unjoined.round {hf merged : VMArea} {rest : List VMArea}
    (unjoined : Unjoined hf.start endAddr prot (before ++ hf :: after))
    (more : hf.start < endAddr) (subset : rest ⊆ protectRest endAddr hf after)
    (starts : merged.start = hf.start) (grows : (protectTarget endAddr prot hf).stop ≤ merged.stop)
    (high : hf.start < hf.stop) : Unjoined merged.stop endAddr prot (before ++ merged :: rest) := by
  have ahead : hf.start < merged.stop ∧ (hf.stop ≤ endAddr ∨ endAddr ≤ merged.stop) := by
    unfold protectTarget at grows
    split at grows
    · simp only [VMArea.splitLeft] at grows
      omega
    · simp only at grows
      omega
  -- An area still ahead is one of the orig ones, and so is what could continue it.
  have old : ∀ area ∈ rest, area.start < endAddr → area ∈ after := by
    intro area mem first
    have := subset mem
    unfold protectRest at this
    split at this
    · rcases mem_cons.mp this with rfl | later
      · exact absurd first (Nat.lt_irrefl endAddr)
      · exact later
    · exact this
  intro area mem backed pending first
  have inOriginal : area ∈ before ++ hf :: after := by
    simp only [mem_append, mem_cons] at mem ⊢
    rcases mem with earlier | rfl | later
    · exact .inl earlier
    · exact absurd pending (Nat.lt_irrefl _)
    · exact .inr (.inr (old area later first))
  obtain ⟨cut, ne⟩ := unjoined area inOriginal backed (Nat.lt_trans ahead.1 pending) first
  refine ⟨cut, fun ends next nextMember merge => ?_⟩
  have touch : area.stop = next.start := by
    simp only [VMArea.mergeable, Bool.and_eq_true, beq_iff_eq] at merge
    exact merge.1.1.1.1
  refine ne ends next ?_ merge
  simp only [mem_append, mem_cons] at nextMember ⊢
  rcases nextMember with earlier | rfl | later
  · exact .inl earlier
  · omega
  · have inRest := subset later
    unfold protectRest at inRest
    split at inRest
    · omega
    · exact .inr (.inr inRest)

theorem areaRefs_split {hf left right : VMArea} (leftFile : left.backingFile = hf.backingFile)
    (rightFile : right.backingFile = hf.backingFile) :
    areaRefs id (before ++ left :: right :: after) =
      areaRefs id (before ++ hf :: after) + (retained hf.retains).count id := by
  simp only [areaRefs_append, areaRefs_cons, leftFile, rightFile]
  cases backing : hf.backingFile with
  | none => simp [retained, VMArea.retains, backing]
  | some file =>
    simp only [retained, VMArea.retains, backing, Option.map_some, Option.toList_some, filterMap_cons,
      filterMap_nil, count_cons, count_nil, Option.some.injEq, beq_iff_eq]
    omega

theorem areaRefs_protect {hf : VMArea} :
    areaRefs id (before ++ protectTarget endAddr prot hf :: protectRest endAddr hf after) =
      areaRefs id (before ++ hf :: after) +
        (retained (if endAddr < hf.stop then hf.retains else [])).count id := by
  unfold protectTarget protectRest
  by_cases cut : endAddr < hf.stop
  · rw [if_pos cut, if_pos cut, if_pos cut]
    exact areaRefs_split rfl rfl
  · rw [if_neg cut, if_neg cut, if_neg cut]
    simp only [areaRefs_append, areaRefs_cons]
    rfl

theorem retained_of_area {hf : VMArea} {file : FileId} (mem : hf ∈ vmas)
    (ht : file ∈ retained hf.retains) : 0 < areaRefs file vmas := by
  have backing : hf.backingFile = some file := by
    cases backing : hf.backingFile with
    | none => simp [retained, VMArea.retains, backing] at ht
    | some other => simp_all [retained, VMArea.retains]
  exact countP_pos_iff.mpr ⟨hf, mem, by simp [backing]⟩

theorem retained_append (first snd : List MmEffect) : retained (first ++ snd) = retained first ++ retained snd :=
  filterMap_append

theorem released_append (first snd : List MmEffect) : released (first ++ snd) = released first ++ released snd :=
  filterMap_append

theorem released_retains (area : VMArea) : released area.retains = [] := by
  cases backing : area.backingFile <;> simp [released, VMArea.retains, backing]

/-- What the rounds do to the counts: every new area of a file is counted. -/
structure Tracks (vmas vmas' : List VMArea) (effects : List MmEffect) : Prop where
  counts : ∀ id, areaRefs id vmas' = areaRefs id vmas + (retained effects).count id
  gives : released effects = []
  known : ∀ id ∈ retained effects, 0 < areaRefs id vmas

theorem Tracks.prepend {vmas' vmas'' : List VMArea} {ht effects : List MmEffect} (later : Tracks vmas' vmas'' effects)
    (counts : ∀ id, areaRefs id vmas' = areaRefs id vmas + (retained ht).count id) (gives : released ht = [])
    (known : ∀ id ∈ retained ht, 0 < areaRefs id vmas) : Tracks vmas vmas'' (ht ++ effects) := by
  constructor
  · intro id
    rw [later.counts, counts, retained_append, count_append]
    omega
  · rw [released_append, gives, later.gives]
    rfl
  · intro id mem
    rw [retained_append, mem_append] at mem
    rcases mem with now | then_
    · exact known id now
    · have after := later.known id then_
      by_cases taken_ : id ∈ retained ht
      · exact known id taken_
      · grind

theorem ProtectRun.tracks {scanAddr : Nat} {vmas' : List VMArea} {effects : List MmEffect}
    (run : ProtectRun endAddr prot scanAddr vmas vmas' effects) (word : endAddr ≤ 2 ^ 64) (ord : Ordered vmas)
    (unjoined : Unjoined scanAddr endAddr prot vmas) : Ordered vmas' ∧ Tracks vmas vmas' effects := by
  induction run with
  | leave => exact ⟨ord, fun _ => rfl, rfl, fun _ mem => nomatch mem⟩
  | @split scanAddr before after vmas' hf effects more inner high _ ih =>
    obtain ⟨res, later⟩ := ih (ord.split (Nat.le_of_lt inner) (Nat.le_of_lt high))
      (unjoined.split more inner word)
    refine ⟨res, later.prepend (fun id => areaRefs_split rfl rfl) (released_retains hf) fun id ht => ?_⟩
    exact retained_of_area (by simp) ht
  | @round before after vmas' hf effects more high _ ih =>
    have cut := ord.protect prot more
    obtain ⟨merged, grows⟩ := cut.tryMergeNext
    obtain ⟨res, later⟩ := ih merged (unjoined.round more (tryMergeNext_subset _ _)
      ((tryMergeNext_start _ _).trans (protectTarget_start _ _ _)) grows high)
    have counts : ∀ id, areaRefs id (before ++
        (tryMergeNext (protectTarget endAddr prot hf) (protectRest endAddr hf after)).1 ::
          (tryMergeNext (protectTarget endAddr prot hf) (protectRest endAddr hf after)).2) =
        areaRefs id (before ++ hf :: after) +
          (retained ((if endAddr < hf.stop then hf.retains else []) ++
            [.updateProt (protectTarget endAddr prot hf).start
              (sub64 (protectTarget endAddr prot hf).stop (protectTarget endAddr prot hf).start) prot])).count id := by
      intro id
      rw [areaRefs_append, areaRefs_tryMergeNext (unjoined.target more high), ← areaRefs_append, areaRefs_protect,
        retained_append, count_append]
      rfl
    have all := later.prepend counts (by
        rw [released_append]
        split
        · rw [released_retains]
          rfl
        · rfl) fun id ht => by
      rw [retained_append, mem_append] at ht
      rcases ht with now | never
      · split at now
        · exact retained_of_area (by simp) now
        · exact nomatch now
      · exact nomatch never
    rw [append_assoc] at all
    exact ⟨res, all⟩

end

/-! ## The calls -/

section

variable {state after : FileState} {held : List FileId} {pid : Nat} {effects : List MmEffect}

theorem foldl_applyEffect_tasks (effects : List MmEffect) (state : FileState) :
    (effects.foldl FileState.applyEffect state).tasks = state.tasks := by
  induction effects generalizing state with
  | nil => rfl
  | cons effect rest ih =>
    rw [foldl_cons, ih]
    cases effect <;> rfl

theorem foldl_applyEffect_setTask (effects : List MmEffect) (state : FileState) (task : Option Task) :
    (effects.foldl FileState.applyEffect state).setTask pid task =
      effects.foldl FileState.applyEffect (state.setTask pid task) := by
  induction effects generalizing state with
  | nil => rfl
  | cons effect rest ih =>
    rw [foldl_cons, foldl_cons, ih]
    cases effect <;> rfl

theorem Counted.retains (cnt : Counted state held) (gives : released effects = [])
    (alive : ∀ id ∈ retained effects, state.live id = true) :
    Counted (effects.foldl FileState.applyEffect state) (retained effects ++ held) := by
  induction effects generalizing state held with
  | nil => exact cnt
  | cons effect rest ih =>
    cases effect with
    | release file => exact nomatch gives
    | retain file =>
      have ht := cnt.retain (alive file (.head _))
      refine (ih ht gives fun id mem => alive id (.tail _ mem)).congr fun id => ?_
      simp only [retained, filterMap_cons, count_append, count_cons, cons_append]
      omega
    | unmapRange start size free => exact ih cnt gives alive
    | updateProt start len prot => exact ih cnt gives alive

theorem Counted.releases (cnt : Counted state (released effects ++ held)) (takes : retained effects = [])
    (kept : ∀ id ∈ released effects, 0 < state.refs id) :
    Counted (effects.foldl FileState.applyEffect state) held := by
  induction effects generalizing state held with
  | nil => exact cnt
  | cons effect rest ih =>
    cases effect with
    | retain file => exact nomatch takes
    | release file =>
      have given : Counted (state.addRef file (-1)) (released rest ++ held) := by
        refine cnt.release ?_
        have := kept file (.head _)
        omega
      exact ih given takes fun id mem => kept id (.tail _ mem)
    | unmapRange start size free => exact ih cnt takes kept
    | updateProt start len prot => exact ih cnt takes kept

theorem mmapBacking_inv {tables : Descriptors} {flags fd off pages : Nat} {backingFile : Option FileId}
    {ht : List MmEffect} (backing : mmapBacking tables flags fd off pages = .ok (backingFile, ht)) :
    (backingFile = none ∧ ht = []) ∨ ∃ id, backingFile = some id ∧ tables.fdTable fd = some id ∧
      (((tables.files id).type = .shm ∨ (tables.files id).fileName = framebufferName) ∧ ht = [] ∨
        (tables.files id).type ≠ .shm ∧ (tables.files id).fileName ≠ framebufferName ∧ ht = [.retain id]) := by
  unfold mmapBacking at backing
  split at backing
  · cases backing
    exact .inl ⟨rfl, rfl⟩
  · split at backing
    · exact nomatch backing
    · split at backing
      · exact nomatch backing
      next id points =>
        refine .inr ⟨id, ?_⟩
        simp only at backing
        split at backing
        next shared =>
          split at backing
          · exact nomatch backing
          · grind
        next private_ =>
          split at backing
          next device =>
            split at backing
            · exact nomatch backing
            · grind
          next regular =>
            cases backing
            exact ⟨rfl, points, .inr ⟨private_, regular, rfl⟩⟩

/-- A request that the checks accept maps a regular file, if any, apart from the areas that
continue it; without memory for the area, the file is not the framebuffer. -/
def FileState.MapsRegular (state : FileState) (pid addr length prot flags fd offset : Nat) (newOk : Nat → Bool) :
    Prop :=
  ∀ task virtualAddr id taken, state.task pid = some task →
    mmapAddress task.space.vmas task.space.mmapNextAddr addr length = some (.ok virtualAddr) →
    mmapBacking (state.descriptors task) flags fd offset (sub64 (add64 length pageSize) 1 / pageSize) =
      .ok (some id, taken) →
    if newOk 0 = true then
      (state.files id).type ≠ .shm ∧ (state.files id).fileName ≠ framebufferName ∧
        (mmapArea virtualAddr length prot flags (some id) offset).Separate task.space.vmas
    else (state.files id).type = .shm ∨ (state.files id).fileName ≠ framebufferName

theorem separate_of_anonymous {new : VMArea} {vmas : List VMArea} (anonymous : new.backingFile = none) :
    new.Separate vmas := by
  intro area _
  constructor
  · intro ⟨backed, _⟩
    rw [anonymous] at backed
    exact nomatch backed
  · intro ⟨backed, merge⟩
    rw [mergeable_backing merge, anonymous] at backed
    exact nomatch backed

theorem Counted.mmapUndo {task : Task} {fd : Nat} {id : FileId} (cnt : Counted state [])
    (h : state.task pid = some task) (points : task.descriptor fd = some id)
    (special : (state.files id).type ≠ .shm) :
    Counted (([MmEffect.retain id] ++ Process.mmapUndo (state.descriptors task) (some id)).foldl FileState.applyEffect state) [] := by
  have undo : Process.mmapUndo (state.descriptors task) (some id) = [.release id] := if_neg special
  have kept := refs_pos_of_descriptor fd h points
  rw [undo]
  refine (cnt.retain (cnt.live_of_refs kept)).release ?_
  rw [addRef_refs]
  omega

theorem Counted.sysMMap {addr length prot flags fd off : Nat} {newOk : Nat → Bool} (cnt : Counted state [])
    (regular : state.MapsRegular pid addr length prot flags fd off newOk)
    (ht : state.sysMMap pid addr length prot flags fd off newOk = some after) : Counted after [] := by
  unfold FileState.sysMMap at ht
  split at ht
  · cases ht
    exact cnt
  next task h =>
    obtain ⟨⟨res, space', effects⟩, ret, rfl⟩ := Option.map_eq_some_iff.mp ht
    have slot := tasks_of_task h
    have unchanged : ∀ given : FileState, Counted given [] → given.tasks = state.tasks →
        Counted (given.setTask pid (some { task with space := task.space })) [] := by
      intro given counts tasks
      exact counts.setTask (tasks ▸ slot) fun _ => rfl
    rcases sysMMap_inv ret with ⟨_, _, rfl, rfl⟩ | ⟨virtualAddr, backingFile, files, chosen, backing, outcome⟩
    · exact unchanged state cnt rfl
    · rcases mmapBacking_inv backing with ⟨rfl, rfl⟩ | ⟨id, rfl, points, file⟩
      · -- An anonymous mapping touches no count.
        rcases outcome with ⟨_, _, rfl, rfl⟩ | ⟨_, _, rfl, ins, placed, vmas, _⟩
        · exact unchanged state cnt rfl
        · apply cnt.setTask slot
          intro other
          have counts : areaRefs other space'.vmas = areaRefs other task.space.vmas := by
            rw [vmas, placed, areaRefs_insertVmaSorted (separate_of_anonymous rfl), areaRefs_cons]
            rfl
          simp only [slotRefs, Task.refs, counts]
      · have condition := regular task virtualAddr id files h chosen backing
        rcases outcome with ⟨lacking, _, rfl, rfl⟩ | ⟨enough, _, rfl, ins, placed, vmas, _⟩
        · rw [if_neg (by rw [lacking]; exact Bool.false_ne_true)] at condition
          rcases file with ⟨special, rfl⟩ | ⟨plain, _, rfl⟩
          · -- Only a shared memory file comes h without a reference ht or given back.
            have shared : (state.files id).type = .shm := by
              rcases special with shared | device
              · exact shared
              · exact condition.resolve_right fun other => other device
            have undo : Process.mmapUndo (state.descriptors task) (some id) = [] := if_pos shared
            rw [undo]
            exact unchanged state cnt rfl
          · exact unchanged _ (cnt.mmapUndo h points plain) (foldl_applyEffect_tasks _ _)
        · rw [if_pos enough] at condition
          obtain ⟨plain, notDevice, separate⟩ := condition
          rcases file with ⟨special, _⟩ | ⟨_, _, rfl⟩
          · exact absurd special (not_or.mpr ⟨plain, notDevice⟩)
          · have alive := cnt.live_of_refs (refs_pos_of_descriptor fd h points)
            apply (cnt.retain alive).setTask slot
            intro other
            have counts : areaRefs other space'.vmas =
                areaRefs other task.space.vmas + if id = other then 1 else 0 := by
              rw [vmas, placed, areaRefs_insertVmaSorted separate, areaRefs_cons]
              simp only [mmapArea, Option.some.injEq]
            simp only [slotRefs, Task.refs, counts, count_cons, count_nil, beq_iff_eq]
            omega

/-- A removed range punches no hole into an area of a file, and a file of which it removes
areas keeps another reference. -/
def FileState.UnmapsPartly (state : FileState) (pid addr length : Nat) : Prop :=
  ∀ task, state.task pid = some task → length ≠ 0 → addr % pageSize = 0 →
    isValidUserRange addr (pageAlign length) = true →
    (∀ area ∈ task.space.vmas, area.backingFile.isSome = true →
      (area.carve addr (add64 addr (pageAlign length))).punched = false) ∧
    ∀ id, 0 < areaRefs id (task.space.vmas.filter fun area => area.inside addr (add64 addr (pageAlign length))) →
      areaRefs id (task.space.vmas.filter fun area => area.inside addr (add64 addr (pageAlign length))) < state.refs id

theorem carve_retained (area : VMArea) (addr endAddr : Nat) : retained (area.carve addr endAddr).effects = [] := by
  have releases : retained area.releases = [] := by
    cases backing : area.backingFile <;> simp [retained, VMArea.releases, backing]
  unfold VMArea.carve
  split_ifs <;> first | rfl | exact releases

theorem Counted.sysMunmap {addr length : Nat} {newOk : Nat → Bool} (cnt : Counted state [])
    (partly : state.UnmapsPartly pid addr length) (ht : state.sysMunmap pid addr length newOk = some after) :
    Counted after [] := by
  unfold FileState.sysMunmap at ht
  split at ht
  · cases ht
    exact cnt
  next task h =>
    obtain ⟨⟨_, space', effects⟩, called, rfl⟩ := Option.map_eq_some_iff.mp ht
    obtain ⟨⟨res, vmas', _⟩, ret, eq⟩ := Option.map_eq_some_iff.mp called
    cases eq
    have slot := tasks_of_task h
    rcases munmap_cases ret with ⟨refused, rfl, rfl⟩ | ⟨some_, hal, valid, rfl, rfl⟩
    · exact cnt.setTask slot fun _ => rfl
    · obtain ⟨unpunched, kept⟩ := partly task h some_ hal valid
      have counts : ∀ id, areaRefs id (task.space.vmas.flatMap fun area =>
            (area.carve addr (add64 addr (pageAlign length))).kept) +
          (released (task.space.vmas.flatMap fun area =>
            (area.carve addr (add64 addr (pageAlign length))).effects)).count id =
          areaRefs id task.space.vmas :=
        fun id => areaRefs_munmap fun area mem backed => unpunched area mem (by rw [backed]; rfl)
      simp only
      rw [foldl_applyEffect_setTask]
      refine Counted.releases (cnt.setTask slot ?_) ?_ ?_
      · intro id
        have := counts id
        simp only [slotRefs, Task.refs, append_nil, count_nil]
        omega
      · refine eq_nil_iff_forall_not_mem.mpr fun id mem => ?_
        simp only [retained, mem_filterMap, mem_flatMap] at mem
        obtain ⟨effect, ⟨area, _, inArea⟩, ht⟩ := mem
        have : id ∈ retained (area.carve addr (add64 addr (pageAlign length))).effects :=
          mem_filterMap.mpr ⟨effect, inArea, ht⟩
        rw [carve_retained] at this
        cases this
      · intro id mem
        have moved := sum_map_set (some { task with space := { task.space with
          vmas := task.space.vmas.flatMap fun area => (area.carve addr (add64 addr (pageAlign length))).kept } })
          (slotRefs id) slot
        have gone : 0 < (released (task.space.vmas.flatMap fun area =>
            (area.carve addr (add64 addr (pageAlign length))).effects)).count id := count_pos_iff.mpr mem
        have total := counts id
        rw [released_munmap] at gone total
        have more := kept id gone
        simp only [slotRefs, Task.refs] at moved
        simp only [FileState.refs, FileState.setTask] at more ⊢
        omega

/-- A changed protection joins no areas of a file. -/
def FileState.ProtectsApart (state : FileState) (pid addr len prot : Nat) : Prop :=
  ∀ task, state.task pid = some task → len ≠ 0 → addr % pageSize = 0 →
    isValidUserRange addr (pageAlign len) = true →
    Unjoined addr (add64 addr (pageAlign len)) prot task.space.vmas

theorem Counted.sysMprotect {addr len prot : Nat} {newOk : Nat → Bool} (cnt : Counted state [])
    (ord : ∀ task, state.task pid = some task → Ordered task.space.vmas)
    (ne : state.ProtectsApart pid addr len prot) (ht : state.sysMprotect pid addr len prot newOk = some after) :
    Counted after [] := by
  unfold FileState.sysMprotect at ht
  split at ht
  · cases ht
    exact cnt
  next task h =>
    obtain ⟨⟨_, space', effects⟩, called, rfl⟩ := Option.map_eq_some_iff.mp ht
    obtain ⟨⟨res, vmas', _⟩, ret, eq⟩ := Option.map_eq_some_iff.mp called
    cases eq
    have slot := tasks_of_task h
    rcases mprotect_cases ret with ⟨rfl, rfl⟩ | ⟨some_, hal, valid, run⟩
    · exact cnt.setTask slot fun _ => rfl
    · obtain ⟨_, tracks⟩ := run.tracks (Nat.le_of_lt (add64_lt _ _)) (ord task h)
        (ne task h some_ hal valid)
      have alive : ∀ id ∈ retained effects, state.live id = true := by
        intro id mem
        apply cnt.live_of_refs
        have inTask := slotRefs_le slot id
        have known := tracks.known id mem
        simp only [slotRefs, Task.refs] at inTask
        omega
      have held := cnt.retains tracks.gives alive
      refine held.setTask (by rw [foldl_applyEffect_tasks]; exact slot) fun id => ?_
      have counts := tracks.counts id
      simp only [slotRefs, Task.refs, append_nil, count_nil]
      omega

/-! ### Tasks -/

theorem foldl_retain_tasks (table : List (Option FileId)) (state : FileState) :
    (table.foldl FileState.retainDescriptor state).tasks = state.tasks := by
  induction table generalizing state with
  | nil => rfl
  | cons entry rest ih =>
    rw [foldl_cons, ih]
    cases entry <;> rfl

theorem Counted.retainTable {table : List (Option FileId)} (cnt : Counted state held)
    (alive : ∀ id, some id ∈ table → state.live id = true) :
    Counted (table.foldl FileState.retainDescriptor state) (table.reduceOption ++ held) := by
  induction table generalizing state held with
  | nil => exact cnt
  | cons entry rest ih =>
    have later := fun id mem => alive id (.tail _ mem)
    cases entry with
    | none => exact ih cnt later
    | some id =>
      refine (ih (cnt.retain (alive id (.head _))) later).congr fun other => ?_
      simp only [reduceOption_cons_of_some, count_append, count_cons, cons_append]
      omega

theorem Counted.dropTable {table : List (Option FileId)} (cnt : Counted state (table.reduceOption ++ held)) :
    Counted (table.foldl FileState.dropDescriptor state) held := by
  induction table generalizing state with
  | nil => exact cnt
  | cons entry rest ih =>
    cases entry with
    | none => exact ih cnt
    | some id => exact ih (Counted.dropDescriptor cnt)

theorem count_reduceOption (table : List (Option FileId)) (id : FileId) :
    table.reduceOption.count id = table.count (some id) := by
  induction table with
  | nil => rfl
  | cons entry rest ih =>
    cases entry with
    | none => simpa using ih
    | some other =>
      rw [reduceOption_cons_of_some, count_cons, count_cons, ih]
      simp only [beq_iff_eq, Option.some.injEq]

/-- No area of the task has a file. -/
def FileState.Anonymous (state : FileState) (pid : Nat) : Prop :=
  ∀ task, state.task pid = some task → ∀ area ∈ task.space.vmas, area.backingFile = none

theorem areaRefs_anonymous {vmas : List VMArea} (anonymous : ∀ area ∈ vmas, area.backingFile = none) (id : FileId) :
    areaRefs id vmas = 0 := by
  refine countP_eq_zero.mpr fun area mem => ?_
  rw [anonymous area mem]
  simp

/-- A task that cannot be added after its descriptors were counted has none. -/
def FileState.Forks (state : FileState) (pid : Nat) (taskOk stackOk cloneOk : Bool) : Prop :=
  taskOk = true → state.Anonymous pid ∧ ∀ task, state.task pid = some task →
    (stackOk = true ∧ cloneOk = true ∧ state.freeSlot.isSome = true) ∨ ∀ entry ∈ task.fdTable, entry = none

theorem slot_of_freeSlot {child : Nat} (hf : state.freeSlot = some child) : state.tasks[child]? = some none := by
  have inRange := mem_of_find?_eq_some hf
  have empty := find?_some hf
  rw [mem_range'_1] at inRange
  have bound : child < state.tasks.length := by
    rw [state.taskSlots]
    omega
  rw [getElem?_eq_getElem bound]
  rw [FileState.task, getElem?_eq_getElem bound, Option.isNone_iff_eq_none] at empty
  exact congrArg some empty

theorem Counted.sysFork {taskOk stackOk cloneOk : Bool} {newOk : Nat → Bool} (cnt : Counted state [])
    (forks : state.Forks pid taskOk stackOk cloneOk)
    (ht : state.sysFork pid taskOk stackOk cloneOk newOk = some after) : Counted after [] := by
  unfold FileState.sysFork at ht
  split at ht
  · cases ht
    exact cnt
  next task h =>
    split at ht
    · cases ht
      exact cnt
    next enough =>
      obtain ⟨anonymous, outcome⟩ := forks (by simpa using enough)
      have alive : ∀ id, some id ∈ task.fdTable → state.live id = true := by
        intro id mem
        obtain ⟨fd, slot⟩ := getElem?_of_mem mem
        exact cnt.live_of_refs (refs_pos_of_descriptor fd h (by rw [Task.descriptor, slot]; rfl))
      have held := cnt.retainTable alive
      -- Without descriptors there is nothing to give back when a later step fails.
      have abandoned : (∀ entry ∈ task.fdTable, entry = none) →
          Counted (task.fdTable.foldl FileState.retainDescriptor state) [] := by
        intro empty
        refine held.congr fun id => ?_
        have absent : some id ∉ task.fdTable := fun mem => Option.some_ne_none id (empty _ mem)
        rw [append_nil, count_reduceOption, count_eq_zero.mpr absent]
        rfl
      split at ht
      next failed =>
        cases ht
        apply abandoned
        refine (outcome task h).resolve_left ?_
        rintro ⟨stack, clone, _⟩
        rw [stack, clone] at failed
        cases failed
      next =>
        split at ht
        · cases ht
        · split at ht
          next full =>
            cases ht
            apply abandoned
            refine (outcome task h).resolve_left ?_
            rintro ⟨_, _, free⟩
            rw [full] at free
            cases free
          next child hf =>
            cases ht
            refine held.setTask (by rw [foldl_retain_tasks]; exact slot_of_freeSlot hf) fun id => ?_
            have none_ := areaRefs_anonymous (anonymous task h) id
            have entries := count_reduceOption task.fdTable id
            simp only [slotRefs, Task.refs, append_nil, count_nil]
            omega

theorem Counted.destroyTask (cnt : Counted state []) (anonymous : pidUserStart ≤ pid → state.Anonymous pid)
    (ht : state.destroyTask pid = some after) : Counted after [] := by
  unfold FileState.destroyTask at ht
  split at ht
  · cases ht
    exact cnt
  next task h =>
    split at ht
    · cases ht
      exact cnt
    next user =>
      cases ht
      apply Counted.dropTable
      refine cnt.setTask (tasks_of_task h) fun id => ?_
      have none_ := areaRefs_anonymous (anonymous (Nat.le_of_not_lt user) task h) id
      have entries := count_reduceOption task.fdTable id
      simp only [slotRefs, Task.refs, append_nil, count_nil]
      omega

end

end RosKernel.Process
