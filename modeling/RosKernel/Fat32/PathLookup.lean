import RosKernel.Fat32.Insertion

/-! Whether `Lookup` goes through directories only.

The loop keeps the start cluster of what it found and not its kind, so the next name is looked
for in the clusters of a regular file as well.
-/

set_option autoImplicit false

namespace RosKernel.Fat32

open Library List

/-- A first cluster that `ReadDirectory` reads. -/
def Slot.Readable (slot : Slot) : Prop := 2 ≤ slot.startCluster ∧ slot.startCluster < endOfChain

/-- Two bytes are equal, or a small letter and its capital. -/
def SameLetter (a b : UInt8) : Prop :=
  a = b ∨ (0x61 ≤ a ∧ a ≤ 0x7A ∧ b = a - 0x20) ∨ 0x61 ≤ b ∧ b ≤ 0x7A ∧ a = b - 0x20

/-- Two texts differ in the case of their letters at most. -/
def SameText : Name → Name → Prop := List.Forall₂ SameLetter

/-- A directory entry `..` whose cluster is 0 stands for the root. -/
def Listed.IsRootLink (listed : Listed) : Prop := listed.name = [0x2E, 0x2E] ∧ listed.entry.startCluster = 0

instance (listed : Listed) : Decidable listed.IsRootLink := inferInstanceAs (Decidable (_ ∧ _))

/-- Where the entries of a directory begin. -/
def Listed.contents (g : Geometry) (listed : Listed) : Nat :=
  if listed.IsRootLink then g.rootDirCluster else listed.entry.startCluster

/-- A name stands for the first of the entries that have it. -/
def Names (entries : List Listed) (name : Name) (listed : Listed) : Prop :=
  ∃ front back, entries = front ++ listed :: back ∧ SameText listed.name name ∧ ∀ other ∈ front, ¬ SameText other.name name

namespace Volume

variable {g : Geometry} {volume : Volume} {name : Name} {names rest : List Name} {cluster : Nat} {listed : Listed}

/-- Names lead from a directory to an entry, through directories only; the entries of one of them begin at `start`. -/
inductive Resolves (g : Geometry) (volume : Volume) (start : Listed → Nat) : Nat → List Name → Listed → Prop
  | last {cluster : Nat} {name : Name} {listed : Listed} (names : Names (volume.readDirectory g cluster).1 name listed) :
      Resolves g volume start cluster [name] listed
  | into {cluster : Nat} {name : Name} {rest : List Name} {dir listed : Listed}
      (names : Names (volume.readDirectory g cluster).1 name dir) (isDirectory : dir.entry.isDirectory = true)
      (later : Resolves g volume start (start dir) rest listed) : Resolves g volume start cluster (name :: rest) listed

/-- The names of a path lead to an entry. -/
abbrev PathNames (g : Geometry) (volume : Volume) : Nat → List Name → Listed → Prop := Resolves g volume (Listed.contents g)

/-- Names lead to an entry without a step over a `..` that stands for the root. -/
abbrev NamesBelow (g : Geometry) (volume : Volume) : Nat → List Name → Listed → Prop :=
  Resolves g volume fun listed => listed.entry.startCluster

/-- The entries in whose clusters the walk looks for the name behind them. -/
def interpreted (g : Geometry) (volume : Volume) : List Name → Nat → List Listed
  | name :: next :: rest, cluster =>
    match volume.findFileInDir g name cluster with
    | none => []
    | some listed => listed :: volume.interpreted g (next :: rest) listed.entry.startCluster
  | _, _ => []

/-- A path is looked up as it should be. -/
structure FollowsDirectories (g : Geometry) (volume : Volume) (path : Name) : Prop where
  finds : path ≠ [slash] → ∀ node, volume.lookup g path = some node ↔
    ∃ listed, PathNames g volume g.rootDirCluster (tokens path) listed ∧ node = vnodeOf listed
  neverFile : ∀ listed ∈ volume.interpreted g (tokens path) g.rootDirCluster,
    listed.entry.Readable → listed.entry.isDirectory = true

/-- The directories of the volume that a path names are neither followed by a regular file with
clusters, nor by a `..` for the root behind which the path goes on to an entry. -/
structure PassesDirectories (g : Geometry) (volume : Volume) (path : Name) : Prop where
  noFile : ∀ front behind listed, tokens path = front ++ behind → behind ≠ [] →
    NamesBelow g volume g.rootDirCluster front listed → listed.entry.isDirectory = true ∨ ¬ listed.entry.Readable
  noRootLink : ∀ front behind up listed, tokens path = front ++ behind → NamesBelow g volume g.rootDirCluster front up →
    up.entry.isDirectory = true → up.IsRootLink → ¬ PathNames g volume g.rootDirCluster behind listed

theorem upperCase_eq_iff (a b : UInt8) : upperCase a = upperCase b ↔ SameLetter a b := by
  simp only [upperCase, SameLetter, UInt8.le_iff_toNat_le, ← UInt8.toNat_inj]
  have small := a.toNat_lt
  have small' := b.toNat_lt
  split <;> split <;> simp only [UInt8.toNat_sub, UInt8.reduceToNat] at * <;> omega

theorem sameName_iff (fname want : Name) : sameName fname want = true ↔ SameText fname want := by
  rw [sameName, beq_iff_eq, ← forall₂_eq_eq_eq, forall₂_map_left_iff, forall₂_map_right_iff]
  simp only [upperCase_eq_iff]
  rfl

theorem names_iff : Names (volume.readDirectory g cluster).1 name listed ↔ volume.findFileInDir g name cluster = some listed := by
  rw [findFileInDir, find?_eq_some_iff_append, sameName_iff]
  simp only [Bool.not_eq_true', ← Bool.not_eq_true, sameName_iff]
  constructor
  · rintro ⟨front, back, split, same, first⟩
    exact ⟨same, front, back, split, first⟩
  · rintro ⟨same, front, back, split, first⟩
    exact ⟨front, back, split, same, first⟩

theorem walk_cons (next : Name) : volume.walk g (name :: next :: rest) cluster =
    (volume.findFileInDir g name cluster).bind fun listed => volume.walk g (next :: rest) listed.entry.startCluster := by
  rw [walk]
  cases volume.findFileInDir g name cluster with
  | none => rfl
  | some listed => rfl

theorem walk_single : volume.walk g [name] cluster = volume.findFileInDir g name cluster := by
  rw [walk]
  cases volume.findFileInDir g name cluster with
  | none => rfl
  | some listed => rfl

theorem walk_append {front behind : List Name} (walked : volume.walk g front cluster = some listed) (some : behind ≠ []) :
    volume.walk g (front ++ behind) cluster = volume.walk g behind listed.entry.startCluster := by
  induction front generalizing cluster with
  | nil => cases walked
  | cons name front ih =>
    cases front with
    | nil =>
      obtain ⟨next, rest, rfl⟩ := exists_cons_of_ne_nil some
      rw [singleton_append, walk_cons, walk_single.symm.trans walked]
      rfl
    | cons snd front =>
      rw [walk_cons] at walked
      obtain ⟨dir, hf, later⟩ := Option.bind_eq_some_iff.mp walked
      rw [cons_append, cons_append, walk_cons, hf]
      exact ih later

theorem findFileInDir_unreadable (out : ¬ (2 ≤ cluster ∧ cluster < endOfChain)) :
    volume.findFileInDir g name cluster = none := by
  have empty : (volume.readDirectory g cluster).1 = [] := by
    rw [readDirectory, readClusters]
    split
    · rfl
    case isFalse below =>
      have low : g.clusterToLBA cluster = 0 := if_pos (by omega)
      rw [if_pos low]
  rw [findFileInDir, empty, find?_nil]

theorem walk_unreadable (out : ¬ (2 ≤ cluster ∧ cluster < endOfChain)) (names : List Name) :
    volume.walk g names cluster = none := by
  cases names with
  | nil => rfl
  | cons name rest => rw [walk, findFileInDir_unreadable out]

theorem mem_interpreted : listed ∈ volume.interpreted g names cluster ↔
    ∃ front behind, names = front ++ behind ∧ behind ≠ [] ∧ volume.walk g front cluster = some listed := by
  induction names generalizing cluster with
  | nil =>
    refine iff_of_false not_mem_nil ?_
    rintro ⟨front, behind, none, some, _⟩
    exact some (append_eq_nil_iff.mp none.symm).2
  | cons name rest ih =>
    cases rest with
    | nil =>
      refine iff_of_false not_mem_nil ?_
      rintro ⟨front, behind, single, some, hf⟩
      cases front with
      | nil => exact nomatch hf
      | cons first front =>
        obtain ⟨_, none⟩ := cons.inj single
        exact some (append_eq_nil_iff.mp none.symm).2
    | cons next rest =>
      rw [interpreted]
      constructor
      · intro mem
        split at mem
        · exact absurd mem not_mem_nil
        case h_2 dir hf =>
          rcases mem_cons.mp mem with rfl | later
          · exact ⟨[name], next :: rest, rfl, cons_ne_nil _ _, walk_single.trans hf⟩
          · obtain ⟨front, behind, split, some, walked⟩ := ih.mp later
            cases front with
            | nil => exact nomatch walked
            | cons first front =>
              refine ⟨name :: first :: front, behind, congrArg _ split, some, ?_⟩
              rw [walk_cons, hf]
              exact walked
      · rintro ⟨front, behind, split, some, walked⟩
        cases front with
        | nil => exact nomatch walked
        | cons first front =>
          obtain ⟨rfl, shorter⟩ := cons.inj split
          cases front with
          | nil =>
            rw [walk_single] at walked
            rw [walked]
            exact .head _
          | cons snd front =>
            rw [walk_cons] at walked
            obtain ⟨dir, hf, walked⟩ := Option.bind_eq_some_iff.mp walked
            rw [hf]
            exact .tail _ (ih.mpr ⟨snd :: front, behind, shorter, some, walked⟩)

theorem Resolves.readable {start : Listed → Nat} (resolves : Resolves g volume start cluster names listed) :
    2 ≤ cluster ∧ cluster < endOfChain := by
  by_contra out
  cases resolves with
  | last named => exact nomatch (findFileInDir_unreadable out).symm.trans (names_iff.mp named)
  | into named => exact nomatch (findFileInDir_unreadable out).symm.trans (names_iff.mp named)

theorem Resolves.walk (resolves : NamesBelow g volume cluster names listed) : volume.walk g names cluster = some listed := by
  induction resolves with
  | last named => exact walk_single.trans (names_iff.mp named)
  | @into cluster name rest dir listed named _ later ih =>
    cases rest with
    | nil => exact nomatch ih
    | cons next rest =>
      rw [walk_cons, names_iff.mp named]
      exact ih

theorem namesBelow_of_walk (walked : volume.walk g names cluster = some listed)
    (noFile : ∀ front behind entry, names = front ++ behind → behind ≠ [] → NamesBelow g volume cluster front entry →
      entry.entry.isDirectory = true ∨ ¬ entry.entry.Readable) :
    NamesBelow g volume cluster names listed := by
  induction names generalizing cluster with
  | nil => exact nomatch walked
  | cons name rest ih =>
    cases rest with
    | nil => exact .last (names_iff.mpr (walk_single.symm.trans walked))
    | cons next rest =>
      rw [walk_cons] at walked
      obtain ⟨dir, hf, later⟩ := Option.bind_eq_some_iff.mp walked
      have named := names_iff.mpr hf
      have isDirectory : dir.entry.isDirectory = true := by
        refine (noFile [name] (next :: rest) dir rfl (cons_ne_nil _ _) (.last named)).resolve_right fun unreadable => ?_
        -- nothing is found behind a file without clusters
        rw [walk_unreadable unreadable] at later
        exact nomatch later
      refine .into named isDirectory (ih later fun front behind entry split some below => ?_)
      exact noFile (name :: front) behind entry (congrArg _ split) some (.into named isDirectory below)

theorem contents_of_readable (readable : listed.entry.Readable) : listed.contents g = listed.entry.startCluster :=
  if_neg fun link => by
    have low := readable.1
    rw [link.2] at low
    omega

theorem Resolves.pathNames (resolves : NamesBelow g volume cluster names listed) : PathNames g volume cluster names listed := by
  induction resolves with
  | last named => exact .last named
  | into named isDirectory later ih => exact .into named isDirectory (contents_of_readable later.readable ▸ ih)

/-- A path leads over a `..` for the root, or over none. -/
theorem Resolves.cases_rootLink (resolves : PathNames g volume cluster names listed) :
    NamesBelow g volume cluster names listed ∨ ∃ front behind up, names = front ++ behind ∧ NamesBelow g volume cluster front up ∧
      up.entry.isDirectory = true ∧ up.IsRootLink ∧ PathNames g volume g.rootDirCluster behind listed := by
  induction resolves with
  | last named => exact .inl (.last named)
  | @into cluster name rest dir listed named isDirectory later ih =>
    by_cases link : dir.IsRootLink
    · have root : dir.contents g = g.rootDirCluster := if_pos link
      exact .inr ⟨[name], rest, dir, rfl, .last named, isDirectory, link, root ▸ later⟩
    · have own : dir.contents g = dir.entry.startCluster := if_neg link
      rw [own] at ih
      rcases ih with below | ⟨front, behind, up, split, below, rest⟩
      · exact .inl (.into named isDirectory below)
      · exact .inr ⟨name :: front, behind, up, congrArg _ split, .into named isDirectory below, rest⟩

theorem Resolves.overRootLink {front behind : List Name} {up : Listed} (below : NamesBelow g volume cluster front up)
    (isDirectory : up.entry.isDirectory = true) (link : up.IsRootLink) (later : PathNames g volume g.rootDirCluster behind listed) :
    PathNames g volume cluster (front ++ behind) listed := by
  have root : up.contents g = g.rootDirCluster := if_pos link
  induction below with
  | last named => exact .into named isDirectory (root ▸ later)
  | into named first further ih => exact .into named first (contents_of_readable further.readable ▸ ih isDirectory link root)

/-- Every path is looked up as it should be exactly when the directories that it names lead to no file's clusters
and over no `..` for the root. -/
theorem lookup_followsDirectories_iff (g : Geometry) (volume : Volume) (path : Name) :
    FollowsDirectories g volume path ↔ PassesDirectories g volume path := by
  constructor
  · intro follows
    constructor
    · intro front behind listed split some below
      by_cases readable : listed.entry.Readable
      · exact .inl (follows.neverFile listed (mem_interpreted.mpr ⟨front, behind, split, some, below.walk⟩) readable)
      · exact .inr readable
    · intro front behind up listed split below isDirectory link later
      have deeper : path ≠ [slash] := by
        rintro rfl
        rw [(append_eq_nil_iff.mp split.symm).2] at later
        cases later
      have whole := below.overRootLink isDirectory link later
      have found := (follows.finds deeper _).mpr ⟨listed, split ▸ whole, rfl⟩
      rw [lookup, if_neg deeper, split] at found
      obtain ⟨_, walked, _⟩ := Option.map_eq_some_iff.mp found
      -- the walk goes on in cluster 0
      have behindSome : behind ≠ [] := by
        rintro rfl
        cases later
      rw [walk_append below.walk behindSome, walk_unreadable (by rw [link.2]; omega)] at walked
      cases walked
  · rintro ⟨noFile, noRootLink⟩
    constructor
    · intro deeper node
      rw [lookup, if_neg deeper, Option.map_eq_some_iff]
      refine exists_congr fun listed => ?_
      constructor
      · rintro ⟨walked, rfl⟩
        exact ⟨(namesBelow_of_walk walked noFile).pathNames, rfl⟩
      · rintro ⟨resolves, rfl⟩
        refine ⟨?_, rfl⟩
        rcases resolves.cases_rootLink with below | ⟨front, behind, up, split, below, isDirectory, link, later⟩
        · exact below.walk
        · exact absurd later (noRootLink front behind up listed split below isDirectory link)
    · intro listed mem readable
      obtain ⟨front, behind, split, some, walked⟩ := mem_interpreted.mp mem
      have below : NamesBelow g volume g.rootDirCluster front listed := by
        refine namesBelow_of_walk walked fun first further entry shorter _ => ?_
        rw [shorter, append_assoc] at split
        exact noFile first (further ++ behind) entry split (by simp [some])
      exact (noFile front behind listed split some below).resolve_right (absurd readable)

/-- A regular file `F` in the root directory whose data reads like the entry of a file `X`. -/
def forged : Volume where
  fat := fun _ => endOfChain
  nextFreeClusterHint := 3
  sectors := fun lba offset =>
    if lba = 100 ∧ offset < 32 then shortSlot (padTo 11 [0x46]) 3 32 (Fin.ofNat 32 offset)
    else if lba = 101 ∧ offset < 32 then shortSlot (padTo 11 [0x58]) 9 4096 (Fin.ofNat 32 offset)
    else 0

/-- The path `/F/X` leads into the data of the file `F` and out of it again, to a cluster of the writer's choice. -/
theorem lookup_forged : (forged.lookup smallGeometry [slash, 0x46]).map VNode.isDirectory = some false ∧
    (forged.lookup smallGeometry [slash, 0x46, slash, 0x58]).map VNode.startCluster = some 9 ∧
    ¬ FollowsDirectories smallGeometry forged [slash, 0x46, slash, 0x58] := by
  have file : (forged.walk smallGeometry [[0x46]] 2).any
      (fun listed => listed.entry.startCluster == 3 && !listed.entry.isDirectory) = true := by decide +kernel
  obtain ⟨listed, walked, named⟩ := (Option.any_eq_true _ _).mp file
  simp only [Bool.and_eq_true, beq_iff_eq, Bool.not_eq_true'] at named
  refine ⟨by decide +kernel, by decide +kernel, fun follows => ?_⟩
  have mem := mem_interpreted.mpr ⟨[[0x46]], [[0x58]], rfl, cons_ne_nil _ _, walked⟩
  have dir := follows.neverFile _ mem (by rw [Slot.Readable, named.1]; decide)
  rw [named.2] at dir
  exact nomatch dir

end Volume

end RosKernel.Fat32
