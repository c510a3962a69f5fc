import Mathlib.Data.List.Nodup
import RosKernel.Filesys.CanonicalPaths

/-! `FindMountPoint` serves a path from the deepest mount point above it. -/

set_option autoImplicit false

namespace RosKernel.Filesys

open Library List

/-- The mount point and the path in its file system that a path should lead to. -/
structure Served (mounts : List MountPoint) (path : Path) (mount : MountPoint) (rel : Path) : Prop where
  mounted : mount ∈ mounts
  above : components mount.path <+: components path
  deepest : ∀ other ∈ mounts, components other.path <+: components path →
    other = mount ∨ other.path.length < mount.path.length
  starts : rel.head? = some slash
  single : ¬[slash, slash] <:+: rel
  whole : if mount.path = [slash] then rel = path else mount.path ++ rel = path ∨ mount.path = path ∧ rel = [slash]

section

variable {mount : MountPoint} {path : Path} {names above : List Path}

theorem rebuild_eq_joined {parts : List Path} (some : parts ≠ []) : rebuild parts = joined slash parts := if_neg some

theorem rebuild_nil : rebuild [] = [slash] := rfl

theorem single_rebuild (components : ∀ part ∈ names, Component part) : ¬[slash, slash] <:+: rebuild names := by
  rintro ⟨front, back, whole⟩
  have parts := splitOn_whole (rebuild names)
  by_cases none : names = []
  · subst none
    have lengths := congrArg List.length whole
    rw [rebuild_nil, length_append, length_append] at lengths
    simp only [length_cons, length_nil] at lengths
    omega
  · have split : (joined slash names).splitOn slash = [] :: names := splitOn_joined fun part mem => (components part mem).whole
    rw [← rebuild_eq_joined none, ← whole, append_assoc, cons_append, splitOn_append_cons_self, cons_append,
      ← nil_append (slash :: _), splitOn_append_cons_self, splitOn_nil, nil_append] at split
    -- the empty part mid them would be a name
    obtain ⟨first, rest, shape⟩ := exists_cons_of_ne_nil (splitOn_ne_nil slash front)
    rw [shape, cons_append] at split
    have mem : [] ∈ names := by
      rw [← (cons.inj split).2]
      exact mem_append_right rest mem_cons_self
    exact (components [] mem).nonempty rfl

theorem covers_iff_text : mount.covers path = true ↔
    ∃ rest, path = mount.path ++ rest ∧ (mount.path = [slash] ∨ rest = [] ∨ rest.head? = some slash) := by
  unfold MountPoint.covers
  rw [Bool.and_eq_true, isPrefixOf_iff_prefix, Bool.or_eq_true, beq_iff_eq]
  constructor
  · rintro ⟨⟨rest, rfl⟩, boundary⟩
    rw [drop_left] at boundary
    refine ⟨rest, rfl, boundary.imp_right fun ends => ?_⟩
    cases rest with
    | nil => exact .inl rfl
    | cons byte rest => exact .inr (congrArg some (beq_iff_eq.mp ends))
  · rintro ⟨rest, rfl, boundary⟩
    rw [drop_left]
    refine ⟨prefix_append .., boundary.imp_right fun ends => ?_⟩
    rcases ends with rfl | begins
    · rfl
    · rw [begins]
      exact beq_self_eq_true slash

variable (namesAre : ∀ part ∈ names, Component part) (aboveAre : ∀ part ∈ above, Component part)
  (isMount : mount.path = rebuild above) (isPath : path = rebuild names)

include aboveAre isMount

theorem mount_root_iff : mount.path = [slash] ↔ above = [] := by
  rw [isMount]
  constructor
  · intro root
    by_contra some
    obtain ⟨part, others, rfl⟩ := exists_cons_of_ne_nil some
    have empty := (append_eq_nil_iff.mp (cons.inj root).2).1
    exact (aboveAre part mem_cons_self).nonempty empty
  · exact fun none => congrArg rebuild none

include namesAre isPath

theorem covers_iff : mount.covers path = true ↔ above <+: names := by
  have root := mount_root_iff aboveAre isMount
  rw [covers_iff_text, root]
  by_cases top : above = []
  · rw [top]
    refine iff_of_true ?_ nil_prefix
    obtain ⟨rest, text⟩ := head?_eq_some_iff.mp (isPath ▸ rebuild_head names)
    exact ⟨rest, by rw [root.mpr top, text]; rfl, .inl rfl⟩
  have mountText : mount.path = joined slash above := isMount.trans (rebuild_eq_joined top)
  by_cases none : names = []
  · refine iff_of_false ?_ fun short => top (prefix_nil.mp (none ▸ short))
    rintro ⟨rest, whole, _⟩
    rw [isPath, none, rebuild_nil] at whole
    obtain ⟨part, others, rfl⟩ := exists_cons_of_ne_nil top
    rw [mountText, joined_cons, cons_append] at whole
    have empty := (append_eq_nil_iff.mp (append_eq_nil_iff.mp (cons.inj whole).2.symm).1).1
    exact (aboveAre part mem_cons_self).nonempty empty
  · rw [isPath, rebuild_eq_joined none, mountText,
      joined_isPrefix_iff (fun part mem => (aboveAre part mem).whole) fun part mem => (namesAre part mem).whole]
    exact exists_congr fun rest => and_congr_right fun _ => or_iff_right top

theorem relative_eq {more : List Path} (split : names = above ++ more) (short : path.length < pathSize - 1) :
    mount.relative path = rebuild more := by
  have lengths : (rebuild names).length = path.length := congrArg List.length isPath.symm
  unfold MountPoint.relative
  dsimp only
  by_cases top : above = []
  · -- below the root the path stays as it is
    have root := (mount_root_iff aboveAre isMount).mpr top
    obtain rfl : names = more := by rw [split, top, nil_append]
    rw [root, isPath]
    by_cases none : names = []
    · rw [none]
      rfl
    obtain ⟨part, others, rfl⟩ := exists_cons_of_ne_nil none
    obtain ⟨first, letters, rfl⟩ := exists_cons_of_ne_nil (namesAre part mem_cons_self).nonempty
    have plain : first ≠ slash := fun eq => (namesAre _ mem_cons_self).whole (eq ▸ mem_cons_self)
    rw [rebuild_eq_joined none, joined_cons] at lengths ⊢
    rw [length_cons] at lengths
    rw [cons_append, length_singleton, drop_one, tail_cons, head?_cons,
      if_neg (fun eq => plain (Option.some.inj eq)), ← cons_append, take_of_length_le (by unfold pathSize at *; omega)]
  · have some : names ≠ [] := by
      rw [split]
      exact append_ne_nil_of_left_ne_nil top more
    have mountText : mount.path = joined slash above := isMount.trans (rebuild_eq_joined top)
    rw [isPath, rebuild_eq_joined some, split, joined_append, mountText, drop_left]
    by_cases none : more = []
    · rw [none]
      rfl
    obtain ⟨part, others, rfl⟩ := exists_cons_of_ne_nil none
    rw [rebuild_eq_joined some, split, joined_append, length_append, joined_cons, length_cons] at lengths
    rw [rebuild_eq_joined none, joined_cons, head?_cons, if_pos rfl, tail_cons,
      take_of_length_le (by unfold pathSize at *; omega)]

end

section

variable {mounts : List MountPoint} {path : Path} {mount : MountPoint}

theorem longestMount_spec (mounts : List MountPoint) (path : Path) (best : Option MountPoint) :
    (longestMount path mounts best = none ↔ best = none ∧ ∀ mount ∈ mounts, mount.covers path = false) ∧
    ∀ mount, longestMount path mounts best = some mount → (best = some mount ∨ mount ∈ mounts ∧ mount.covers path = true) ∧
      ∀ other, best = some other ∨ other ∈ mounts ∧ other.covers path = true → other.path.length ≤ mount.path.length := by
  induction mounts generalizing best with
  | nil =>
    refine ⟨⟨fun none => ⟨none, fun _ mem => nomatch mem⟩, And.left⟩, fun mount hf => ⟨.inl hf, ?_⟩⟩
    rintro other (eq | ⟨mem, _⟩)
    · rw [Option.some.inj (hf.symm.trans eq)]
    · cases mem
  | cons first mounts ih =>
    rw [longestMount]
    split
    case isTrue better =>
      rw [Bool.and_eq_true] at better
      obtain ⟨covers, longer⟩ := better
      obtain ⟨none, hf⟩ := ih (some first)
      refine ⟨iff_of_false (fun miss => by cases (none.mp miss).1) fun both => ?_, fun mount last => ?_⟩
      · grind
      · obtain ⟨source, longest⟩ := hf mount last
        constructor
        · rcases source with eq | ⟨mem, covered⟩
          · grind
          · exact .inr ⟨mem_cons_of_mem _ mem, covered⟩
        · rintro other (eq | ⟨mem, covered⟩)
          · have shorter : other.path.length < first.path.length := by
              rw [eq] at longer
              exact of_decide_eq_true longer
            exact shorter.le.trans (longest first (.inl rfl))
          · rcases mem_cons.mp mem with rfl | later
            · exact longest other (.inl rfl)
            · exact longest other (.inr ⟨later, covered⟩)
    case isFalse worse =>
      rw [Bool.and_eq_true] at worse
      obtain ⟨none, hf⟩ := ih best
      constructor
      · rw [none]
        refine and_congr_right fun miss => ?_
        rw [forall_mem_cons]
        refine (and_iff_right (eq_false_of_ne_true fun covers => worse ⟨covers, ?_⟩)).symm
        rw [miss]
        rfl
      · intro mount last
        obtain ⟨source, longest⟩ := hf mount last
        refine ⟨source.imp_right fun both => ⟨mem_cons_of_mem _ both.1, both.2⟩, ?_⟩
        rintro other (eq | ⟨mem, covered⟩)
        · exact longest other (.inl eq)
        · rcases mem_cons.mp mem with rfl | later
          · -- an earlier mount point is as long
            cases best with
            | none => exact absurd ⟨covered, rfl⟩ worse
            | some chosen =>
              have noLonger : ¬chosen.path.length < other.path.length := fun longer => worse ⟨covered, decide_eq_true longer⟩
              exact (Nat.not_lt.mp noLonger).trans (longest chosen (.inl rfl))
          · exact longest other (.inr ⟨later, covered⟩)

end

section

variable {mounts others : List MountPoint} {path rel : Path} {mount : MountPoint}

theorem findMountPoint_eq (pathIs : Canonical path) :
    findMountPoint mounts path = (longestMount path mounts none).map fun mount => (mount, mount.relative path) := by
  obtain ⟨names, _, rfl⟩ := pathIs
  exact if_pos (rebuild_head names)

theorem covers_iff_above (mountIs : Canonical mount.path) (pathIs : Canonical path) :
    mount.covers path = true ↔ components mount.path <+: components path := by
  obtain ⟨above, aboveAre, isMount⟩ := mountIs
  obtain ⟨names, namesAre, isPath⟩ := pathIs
  have sameMount : components mount.path = above := by rw [isMount, components_rebuild aboveAre]
  have samePath : components path = names := by rw [isPath, components_rebuild namesAre]
  rw [sameMount, samePath]
  exact covers_iff namesAre aboveAre isMount isPath

theorem served_relative (mountIs : Canonical mount.path) (pathIs : Canonical path) (short : path.length < pathSize - 1)
    (above : components mount.path <+: components path) :
    (mount.relative path).head? = some slash ∧ ¬[slash, slash] <:+: mount.relative path ∧
      if mount.path = [slash] then mount.relative path = path
      else mount.path ++ mount.relative path = path ∨ mount.path = path ∧ mount.relative path = [slash] := by
  obtain ⟨first, firstAre, isMount⟩ := mountIs
  obtain ⟨names, namesAre, isPath⟩ := pathIs
  have sameMount : components mount.path = first := by rw [isMount, components_rebuild firstAre]
  have samePath : components path = names := by rw [isPath, components_rebuild namesAre]
  rw [sameMount, samePath] at above
  obtain ⟨more, split⟩ := above
  have moreAre : ∀ part ∈ more, Component part := fun part mem => namesAre part (split ▸ mem_append_right first mem)
  have root := mount_root_iff firstAre isMount
  rw [relative_eq namesAre firstAre isMount isPath split.symm short]
  refine ⟨rebuild_head more, single_rebuild moreAre, ?_⟩
  by_cases top : first = []
  · grind
  · rw [if_neg (mt root.mp top)]
    by_cases none : more = []
    · refine .inr ⟨?_, none ▸ rebuild_nil⟩
      rw [isMount, isPath, ← split, none, append_nil]
    · apply Or.inl
      rw [isMount, isPath, ← split, rebuild_eq_joined top, rebuild_eq_joined none,
        rebuild_eq_joined (append_ne_nil_of_left_ne_nil top more), joined_append]

variable (mountsAre : ∀ mount ∈ mounts, Canonical mount.path) (distinct : (mounts.map MountPoint.path).Nodup)
  (pathIs : Canonical path)

include mountsAre distinct pathIs

theorem findMountPoint_served (short : path.length < pathSize - 1) (hf : findMountPoint mounts path = some (mount, rel)) :
    Served mounts path mount rel := by
  rw [findMountPoint_eq pathIs, Option.map_eq_some_iff] at hf
  obtain ⟨_, last, eq⟩ := hf
  cases eq
  obtain ⟨source, longest⟩ := (longestMount_spec mounts path none).2 _ last
  obtain ⟨mounted, covers⟩ := source.resolve_left fun none => nomatch none
  have above := (covers_iff_above (mountsAre _ mounted) pathIs).mp covers
  obtain ⟨starts, single, whole⟩ := served_relative (mountsAre _ mounted) pathIs short above
  refine ⟨mounted, above, fun other mem otherAbove => ?_, starts, single, whole⟩
  have otherCovers := (covers_iff_above (mountsAre other mem) pathIs).mpr otherAbove
  rcases (longest other (.inr ⟨mem, otherCovers⟩)).lt_or_eq with shorter | equal
  · exact .inr shorter
  · -- two beginnings of one path that have the eq length
    obtain ⟨rest, text, _⟩ := covers_iff_text.mp covers
    obtain ⟨otherRest, otherText, _⟩ := covers_iff_text.mp otherCovers
    have samePath := (append_inj (otherText.symm.trans text) equal).1
    exact .inl (inj_on_of_nodup_map distinct mem mounted samePath)

omit distinct in
theorem findMountPoint_none : findMountPoint mounts path = none ↔ ∀ mount ∈ mounts, ¬components mount.path <+: components path := by
  rw [findMountPoint_eq pathIs, Option.map_eq_none_iff, (longestMount_spec mounts path none).1, eq_self, true_and]
  refine forall₂_congr fun mount mem => ?_
  rw [← covers_iff_above (mountsAre mount mem) pathIs, Bool.not_eq_true]

/-- The lookup fails exactly without a mount point above the path, otherwise serves the path from the
deepest one, and does not depend on the order of the table. -/
theorem findMountPoint_exact (short : path.length ≤ 254) :
    (findMountPoint mounts path = none ↔ ∀ mount ∈ mounts, ¬components mount.path <+: components path) ∧
    (∀ mount rel, findMountPoint mounts path = some (mount, rel) → Served mounts path mount rel) ∧
    ∀ others, others.Perm mounts → findMountPoint others path = findMountPoint mounts path := by
  have fits : path.length < pathSize - 1 := Nat.lt_succ_of_le short
  refine ⟨findMountPoint_none mountsAre pathIs, fun _ _ => findMountPoint_served mountsAre distinct pathIs fits, ?_⟩
  intro others eq
  have othersAre : ∀ mount ∈ others, Canonical mount.path := fun mount mem => mountsAre mount (eq.mem_iff.mp mem)
  have othersDistinct : (others.map MountPoint.path).Nodup := (eq.map _).nodup_iff.mpr distinct
  cases hf : findMountPoint mounts path with
  | none =>
    rw [findMountPoint_none othersAre pathIs]
    exact fun mount mem => (findMountPoint_none mountsAre pathIs).mp hf mount (eq.mem_iff.mp mem)
  | some pair =>
    obtain ⟨mount, rel⟩ := pair
    have served := findMountPoint_served mountsAre distinct pathIs fits hf
    cases again : findMountPoint others path with
    | none =>
      have miss := (findMountPoint_none othersAre pathIs).mp again mount (eq.mem_iff.mpr served.mounted)
      exact absurd served.above miss
    | some other =>
      obtain ⟨mount', rel'⟩ := other
      have served' := findMountPoint_served othersAre othersDistinct pathIs fits again
      have one : mount' = mount := by
        rcases served.deepest mount' (eq.mem_iff.mp served'.mounted) served'.above with equal | shorter
        · exact equal
        · rcases served'.deepest mount (eq.mem_iff.mpr served.mounted) served.above with equal | longer
          · exact equal.symm
          · omega
      subst one
      rw [findMountPoint_eq pathIs, Option.map_eq_some_iff] at hf again
      obtain ⟨_, _, fromFound⟩ := hf
      obtain ⟨_, _, fromAgain⟩ := again
      cases fromFound
      cases fromAgain
      rfl

end

/-- A root and `/mnt`, the files of which do not matter. -/
def rootAndMnt (fs : FileSystem) : List MountPoint := [⟨[47, 109, 110, 116], fs⟩, ⟨[47], fs⟩]

/-- `/mnt2/a` is served by the root. -/
theorem findMountPoint_mnt2 : ∃ mount rel, findMountPoint (rootAndMnt ⟨fun _ => none, fun _ => 0, fun _ => none, fun _ => none⟩)
    [47, 109, 110, 116, 50, 47, 97] = some (mount, rel) ∧ mount.path = [47] ∧ rel = [47, 109, 110, 116, 50, 47, 97] := by
  have found : (findMountPoint (rootAndMnt ⟨fun _ => none, fun _ => 0, fun _ => none, fun _ => none⟩)
    [47, 109, 110, 116, 50, 47, 97]).isSome = true := by decide
  obtain ⟨⟨mount, rel⟩, hf⟩ := Option.isSome_iff_exists.mp found
  refine ⟨mount, rel, hf, ?_⟩
  have component : ∀ part, part ∈ [[109, 110, 116], [109, 110, 116, 50], [97]] → Component part := by
    intro part mem
    simp only [mem_cons, not_mem_nil, or_false] at mem
    rcases mem with rfl | rfl | rfl
    all_goals exact ⟨by decide, by decide, by decide, by decide⟩
  have served := (@findMountPoint_exact (rootAndMnt ⟨fun _ => none, fun _ => 0, fun _ => none, fun _ => none⟩)
    [47, 109, 110, 116, 50, 47, 97] ?_ (by decide) ⟨[[109, 110, 116, 50], [97]], ?_, by decide⟩ (by decide)).2.1 mount rel hf
  · have whole := served.whole
    rcases mem_cons.mp served.mounted with rfl | snd
    · exact absurd served.above (by decide)
    · rw [mem_singleton.mp snd] at whole ⊢
      exact ⟨rfl, whole⟩
  · intro mount mem
    rcases mem_cons.mp mem with rfl | snd
    · exact ⟨[[109, 110, 116]], fun part hin => component part (by simp_all), rfl⟩
    · rw [mem_singleton.mp snd]
      exact ⟨[], fun _ none => absurd none not_mem_nil, rfl⟩
  · exact fun part hin => component part (by simp_all)

end RosKernel.Filesys
