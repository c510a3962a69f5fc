import RosKernel.Ext2.DirWalks

/-! A directory as a map from names to inodes.

`FindEntryInDirectory` looks a name up in the records of the blocks. `AddEntryToDirectory` and
`RemoveEntryFromDirectory` change one record, and with it what one name is.
-/

set_option autoImplicit false

namespace RosKernel.Ext2

open Library EXT2FileSystem List Option
open Function (update update_eq_self update_of_ne update_self)

/-- A block is a chain of records, or it is cleared and has none. -/
def Holds (blockSize : Nat) (words : Nat → Nat) (records : List DirRecord) : Prop :=
  Records (byteView words) 0 records blockSize ∨ (words = fun _ => 0) ∧ records = []

/-- The blocks of a directory hold these records, by the path of the block, and no name is there twice. -/
structure EXT2FileSystem.IsDirectory (fs : EXT2FileSystem) (inode : Inode) (listing : List Nat → List DirRecord) : Prop where
  tree : fs.WellFormed inode
  blocks : ∀ leaf, Leaf fs.entriesPerBlock leaf →
    if fs.blockAt inode leaf = 0 then listing leaf = [] else Holds fs.blockSize (fs.words (fs.blockAt inode leaf)) (listing leaf)
  distinct : Distinct ((leafPaths fs.entriesPerBlock).flatMap listing)

/-- All records, in the order of the file. -/
def EXT2FileSystem.records (fs : EXT2FileSystem) (listing : List Nat → List DirRecord) : List DirRecord :=
  (leafPaths fs.entriesPerBlock).flatMap listing

/-- The inode that `FindEntryInDirectory` finds for a name, when no request fails. -/
def EXT2FileSystem.inodeOf (fs : EXT2FileSystem) (iMode : Nat) (inode : Inode) (name : List UInt8) : Option Nat :=
  ((fs.withFaults []).findEntryInDirectory iMode inode name).1.map entryInode

/-! ## Looking a name up -/

section

variable {fs : EXT2FileSystem} {inode : Inode} {listing : List Nat → List DirRecord} {name : List UInt8} {iMode : Nat}

theorem findSome?_eq_resolved {paths : List (List Nat)} {hf : List Nat → Option Nat}
    (eq : ∀ leaf ∈ paths, hf leaf = resolved name (listing leaf)) : paths.findSome? hf = resolved name (paths.flatMap listing) := by
  induction paths with
  | nil => rfl
  | cons leaf paths ih =>
    rw [flatMap_cons, resolved_append, findSome?_cons, eq leaf (.head _),
      ih fun other mem => eq other (.tail _ mem)]
    cases resolved name (listing leaf) with
    | none => rfl
    | some hf => rfl

theorem entryInode_outEntry {data : Bytes} {start : Nat} (room : 4 ≤ load data (start + 4) 2) :
    entryInode (outEntry data start) = load data start 4 := load_outEntry room

theorem Holds.entry_eq {blockSize : Nat} {words : Nat → Nat} {records : List DirRecord} (holds : Holds blockSize words records)
    (name : List UInt8) : ((findFrom blockSize name (byteView words) blockSize 0).map (outEntry (byteView words))).map entryInode =
      resolved name records := by
  rcases holds with chain | ⟨cleared, none⟩
  · have resolves : (findFrom blockSize name (byteView words) blockSize 0).map (fun start => load (byteView words) start 4) =
        resolved name records := chain.resolved_eq (show blockSize ≤ 0 + blockSize by omega)
    rw [← resolves]
    rcases chain.findFrom_cases name (show blockSize ≤ 0 + blockSize by omega) with ⟨miss, _⟩ | ⟨start, _, _, hf, _, _, _, _, _, fits⟩
    · rw [miss]
      rfl
    · have span : (recordAt (byteView words) start).recLen = load (byteView words) (start + 4) 2 := rfl
      have room := fits.room
      rw [hf]
      exact congrArg some (entryInode_outEntry (by omega))
  · rw [cleared, none, byteView_zero, findFrom_zero]
    rfl

theorem findInBlock_eq (fs : EXT2FileSystem) (sound : fs.faults = []) (name : List UInt8) {blockNum : Nat} (there : blockNum ≠ 0) :
    findInBlock name blockNum fs =
      ((findFrom fs.blockSize name (byteView (fs.words blockNum)) fs.blockSize 0).map (outEntry (byteView (fs.words blockNum))), fs) := by
  unfold findInBlock
  rw [readWords_succeeds sound there]

theorem EXT2FileSystem.IsDirectory.inodeOf_eq (dir : fs.IsDirectory inode listing) (isDir : iMode &&& ext2SIfdir ≠ 0)
    (name : List UInt8) : fs.inodeOf iMode inode name = resolved name (fs.records listing) := by
  have search := @searchInode_eq _ (fs.withFaults []) inode (findInBlock name)
    (fun words => (findFrom fs.blockSize name (byteView words) fs.blockSize 0).map (outEntry (byteView words))) rfl
    fun blockNum there => findInBlock_eq (fs.withFaults []) rfl name there
  unfold inodeOf findEntryInDirectory records
  rw [if_neg isDir, search, map_findSome?]
  refine findSome?_eq_resolved fun leaf mem => ?_
  have block := dir.blocks leaf (mem_leafPaths.mp mem)
  rw [Function.comp_apply]
  change Option.map entryInode (if fs.blockAt inode leaf = 0 then none else _) = _
  split at block
  case isTrue miss =>
    rw [if_pos miss, block]
    rfl
  case isFalse there =>
    rw [if_neg there]
    exact block.entry_eq name

end

/-! ## One block changed -/

section

variable {fs : EXT2FileSystem} {inode : Inode} {listing : List Nat → List DirRecord} {name : List UInt8} {leaf : List Nat}
  {records front back : List DirRecord}

theorem nodup_pathsUnder (entries level : Nat) (path : List Nat) : (pathsUnder entries level path).Nodup := by
  induction level generalizing path with
  | zero => exact nodup_singleton path
  | succ level ih =>
    refine nodup_flatMap.mpr ⟨fun slot _ => ih (slot :: path), nodup_range.imp fun {slot other} ne => ?_⟩
    intro leaf left right
    have eq := suffix_or_suffix_of_suffix (suffix_of_mem left) (suffix_of_mem right)
    have lengths : (slot :: path).length = (other :: path).length := rfl
    rcases eq with first | snd
    · exact ne (cons.inj (first.eq_of_length lengths)).1
    · exact ne (cons.inj (snd.eq_of_length lengths.symm)).1.symm

theorem nodup_leafPaths (entries : Nat) : (leafPaths entries).Nodup := by
  refine nodup_flatMap.mpr ⟨fun root _ => nodup_pathsUnder entries _ [root], nodup_range.imp fun {root other} ne => ?_⟩
  intro leaf left right
  obtain ⟨slots, rfl, _⟩ := mem_pathsUnder.mp left
  obtain ⟨slots', split, _⟩ := mem_pathsUnder.mp right
  exact ne (cons.inj (append_inj' split rfl).2).1

theorem flatMap_update {paths : List (List Nat)} (once : paths.Nodup) (mem : leaf ∈ paths) (listing : List Nat → List DirRecord) :
    ∃ before behind, ∀ records, paths.flatMap (update listing leaf records) = before ++ (records ++ behind) := by
  obtain ⟨first, snd, rfl⟩ := append_of_mem mem
  have ne := nodup_middle.mp once
  rw [nodup_cons, mem_append, not_or] at ne
  have others : ∀ (paths : List (List Nat)) (records : List DirRecord), leaf ∉ paths →
      paths.flatMap (update listing leaf records) = paths.flatMap listing := by
    intro paths records away
    refine flatMap_congr fun other otherMember => ?_
    rw [update_of_ne]
    rintro rfl
    exact away otherMember
  refine ⟨first.flatMap listing, snd.flatMap listing, fun records => ?_⟩
  rw [flatMap_append, flatMap_cons, others first records ne.1.1, others snd records ne.1.2, update_self]

section

variable (wellFormed : fs.WellFormed inode) (isLeaf : Leaf fs.entriesPerBlock leaf) (there : fs.blockAt inode leaf ≠ 0)
  (data : Nat → Nat)
include wellFormed isLeaf there data

theorem reach_setWords {path : List Nat} (within : Within fs.entriesPerBlock path) :
    (fs.setWords (fs.blockAt inode leaf) data).reach inode path = fs.reach inode path := by
  refine @walk_congr _ _ _ named (fs.cells inode) _ (fun root path => root = none ∧ Within fs.entriesPerBlock path)
    (fun _ i path hin => ⟨hin.1, within_closed i path hin.2⟩) ?_ none path ⟨rfl, within⟩
  rintro root path node slot ⟨rfl, below⟩ hr
  cases node with
  | none => rfl
  | some blockNum =>
    refine congrArg named (congrFun (update_of_ne (fun eq => ?_) _ _) slot)
    have met : path = leaf := wellFormed path leaf _ (within_closed _ _ below) isLeaf.within (eq ▸ hr)
      ((reach_iff isLeaf.ne_nil there).mpr rfl)
    exact isLeaf.ends (met ▸ below)

theorem wellFormed_setWords : (fs.setWords (fs.blockAt inode leaf) data).WellFormed inode := by
  intro path path' node within within' toPath toPath'
  have first : fs.reach inode path = some node := (reach_setWords wellFormed isLeaf there data within).symm.trans toPath
  have snd : fs.reach inode path' = some node := (reach_setWords wellFormed isLeaf there data within').symm.trans toPath'
  exact wellFormed path path' node within within' first snd

theorem blockAt_setWords {path : List Nat} (within : Within fs.entriesPerBlock path) :
    (fs.setWords (fs.blockAt inode leaf) data).blockAt inode path = fs.blockAt inode path :=
  congrArg (fun hr : Option (Option Nat) => hr.join.getD 0) (reach_setWords wellFormed isLeaf there data within)

end

theorem EXT2FileSystem.IsDirectory.setWords (directory : fs.IsDirectory inode listing) (isLeaf : Leaf fs.entriesPerBlock leaf)
    (there : fs.blockAt inode leaf ≠ 0) {data : Bytes} (chain : Records data 0 records fs.blockSize)
    (distinct : Distinct (fs.records (update listing leaf records))) :
    (fs.setWords (fs.blockAt inode leaf) (wordView data)).IsDirectory inode (update listing leaf records) where
  tree := wellFormed_setWords directory.tree isLeaf there _
  blocks other otherLeaf := by
    have otherLeaf : Leaf fs.entriesPerBlock other := otherLeaf
    have block := directory.blocks other otherLeaf
    rw [blockAt_setWords directory.tree isLeaf there _ otherLeaf.within]
    by_cases same : other = leaf
    · rw [same, if_neg there, update_self]
      change Holds fs.blockSize (update fs.words _ _ _) records
      rw [update_self]
      exact .inl ((byteView_wordView data).symm ▸ chain)
    · rw [update_of_ne same]
      split at block
      case isTrue missing => rwa [if_pos missing]
      case isFalse held =>
        rw [if_neg held]
        change Holds fs.blockSize (update fs.words _ _ _) (listing other)
        rw [update_of_ne]
        · exact block
        · intro met
          have toOther := (reach_iff otherLeaf.ne_nil held).mpr rfl
          have toLeaf := (reach_iff isLeaf.ne_nil there).mpr rfl
          exact same (directory.tree other leaf _ otherLeaf.within isLeaf.within toOther (met ▸ toLeaf))
  distinct := distinct

end

/-! ## The names after a change -/

section

variable {name : List UInt8} {inodeNum : Nat} {before behind front back : List DirRecord} {record last : DirRecord}

def liveNames (records : List DirRecord) : List (List UInt8) := (records.filter DirRecord.live).map DirRecord.name

theorem liveNames_append (records more : List DirRecord) : liveNames (records ++ more) = liveNames records ++ liveNames more := by
  unfold liveNames
  rw [filter_append, map_append]

theorem liveNames_placed (name : List UInt8) (last : DirRecord) (nz : inodeNum ≠ 0) :
    liveNames (last.placed inodeNum name) = liveNames [last] ++ [name] := by
  have isLive : (⟨inodeNum, last.spare, name⟩ : DirRecord).live = true := bne_iff_ne.mpr nz
  have new : liveNames [⟨inodeNum, last.spare, name⟩] = [name] := by
    unfold liveNames
    rw [filter_cons_of_pos isLive]
    rfl
  rw [DirRecord.placed, liveNames_append, new]
  congr 1
  by_cases live : last.live = true
  · unfold liveNames
    rw [if_pos live, filter_cons_of_pos live, filter_cons_of_pos (show DirRecord.live { last with recLen := last.need } = true from live)]
    rfl
  · unfold liveNames
    rw [if_neg live, filter_cons_of_neg live]

theorem not_mem_liveNames {records : List DirRecord} (absent : resolved name records = none) : name ∉ liveNames records := by
  rw [resolved_eq_none] at absent
  intro mem
  obtain ⟨record, hin, eq⟩ := mem_map.mp mem
  obtain ⟨there, live⟩ := mem_filter.mp hin
  exact absent record there live eq

theorem distinct_placed (dist : Distinct (before ++ ((front ++ [last]) ++ behind)))
    (absent : resolved name (before ++ ((front ++ [last]) ++ behind)) = none) (nz : inodeNum ≠ 0) :
    Distinct (before ++ ((front ++ last.placed inodeNum name) ++ behind)) := by
  have new := not_mem_liveNames absent
  change (liveNames _).Nodup at dist ⊢
  simp only [liveNames_append] at dist new
  simp only [liveNames_append, liveNames_placed name last nz]
  have joined : liveNames before ++ (liveNames front ++ (liveNames [last] ++ [name]) ++ liveNames behind) =
      (liveNames before ++ (liveNames front ++ liveNames [last])) ++ name :: liveNames behind := by
    simp only [append_assoc, singleton_append]
  rw [joined, nodup_middle, nodup_cons]
  rw [← append_assoc (liveNames before)] at dist new
  exact ⟨new, dist⟩

theorem distinct_dead (dist : Distinct (before ++ ((front ++ record :: back) ++ behind))) :
    Distinct (before ++ ((front ++ record.dead :: back) ++ behind)) := by
  change (liveNames _).Nodup at dist ⊢
  refine dist.sublist ?_
  have shorter : (liveNames (record.dead :: back)).Sublist (liveNames (record :: back)) := by
    unfold liveNames
    rw [filter_cons_of_neg (by simp [DirRecord.dead, DirRecord.live])]
    exact ((sublist_cons_self record back).filter _).map _
  simp only [liveNames_append] at shorter ⊢
  exact (List.Sublist.refl _).append (((List.Sublist.refl _).append shorter).append (List.Sublist.refl _))

theorem absent_of_distinct {records more : List DirRecord} (dist : Distinct (records ++ more))
    (mem : record ∈ records) (live : record.live = true) : resolved record.name more = none := by
  change (liveNames _).Nodup at dist
  rw [liveNames_append, nodup_append] at dist
  refine resolved_eq_none.mpr fun other hin otherLive eq => ?_
  exact dist.2.2 record.name (mem_map.mpr ⟨record, mem_filter.mpr ⟨mem, live⟩, rfl⟩) other.name
    (mem_map.mpr ⟨other, mem_filter.mpr ⟨hin, otherLive⟩, rfl⟩) eq.symm

theorem resolved_dead_self (dist : Distinct (before ++ ((front ++ record :: back) ++ behind))) (live : record.live = true) :
    resolved record.name (before ++ ((front ++ record.dead :: back) ++ behind)) = none := by
  have joined : before ++ ((front ++ record :: back) ++ behind) = (before ++ front) ++ ([record] ++ (back ++ behind)) := by
    simp only [append_assoc, cons_append, nil_append]
  rw [joined] at dist
  have out : resolved record.name ((before ++ front) ++ (back ++ behind)) = none := by
    refine absent_of_distinct ?_ (mem_singleton_self record) live
    change (liveNames _).Nodup at dist ⊢
    simp only [liveNames_append] at dist ⊢
    exact (perm_append_comm_assoc _ _ _).nodup_iff.mp dist
  have split : before ++ ((front ++ record.dead :: back) ++ behind) = (before ++ front) ++ ([record.dead] ++ (back ++ behind)) := by
    simp only [append_assoc, cons_append, nil_append]
  have gone : resolved record.name [record.dead] = none := by
    rw [resolved, find?_cons_of_neg (by simp)]
    rfl
  rw [split, resolved_append _ (before ++ front), resolved_append _ [record.dead], gone, Option.none_or, ← resolved_append, out]

end

/-! ## Adding and removing -/

/-- The record that got an entry, and the names after that. -/
structure NameAdded (fs after : EXT2FileSystem) (iMode : Nat) (inode inode' : Inode) (listing listing' : List Nat → List DirRecord)
    (inodeNum : Nat) (name : List UInt8) : Prop where
  block : ∃ leaf front last, Leaf fs.entriesPerBlock leaf ∧ fs.blockAt inode leaf ≠ 0 ∧ listing leaf = front ++ [last] ∧
    listing' = update listing leaf (front ++ last.placed inodeNum name) ∧
    Records (byteView (after.words (fs.blockAt inode leaf))) 0 (front ++ last.placed inodeNum name) fs.blockSize
  directory : after.IsDirectory inode' listing'
  found : after.inodeOf iMode inode' name = some inodeNum
  others : ∀ other, other ≠ name → after.inodeOf iMode inode' other = fs.inodeOf iMode inode other

/-- The record that lost its entry, and the names after that. -/
structure NameRemoved (fs after : EXT2FileSystem) (iMode : Nat) (inode : Inode) (listing listing' : List Nat → List DirRecord)
    (name : List UInt8) : Prop where
  block : ∃ leaf front record back, Leaf fs.entriesPerBlock leaf ∧ fs.blockAt inode leaf ≠ 0 ∧ listing leaf = front ++ record :: back ∧
    record.live = true ∧ record.name = name ∧ listing' = update listing leaf (front ++ record.dead :: back) ∧
    Records (byteView (after.words (fs.blockAt inode leaf))) 0 (front ++ record.dead :: back) fs.blockSize
  directory : after.IsDirectory inode listing'
  absent : after.inodeOf iMode inode name = none
  others : ∀ other, other ≠ name → after.inodeOf iMode inode other = fs.inodeOf iMode inode other

section

variable {fs middle after : EXT2FileSystem} {inode inode' : Inode} {listing : List Nat → List DirRecord} {name : List UInt8}
  {iMode parent : Nat} {entry : NewEntry} {part : List Nat → Prop} {answers : List Nat}

theorem EXT2FileSystem.IsDirectory.congr (dir : fs.IsDirectory inode listing) (words : after.words = fs.words)
    (size : after.blockSize = fs.blockSize) : after.IsDirectory inode listing := by
  have entries : after.entriesPerBlock = fs.entriesPerBlock := congrArg (· / 4) size
  have grown : Grown (fun _ => True) fs after inode inode [] := .same dir.tree words size rfl
  refine ⟨grown.wellFormed, fun leaf isLeaf => ?_, entries ▸ dir.distinct⟩
  rw [blockAt_congr words rfl, words, size]
  exact dir.blocks leaf (entries ▸ isLeaf)

theorem Grown.directory (grown : Grown part fs middle inode inode' answers) (size : middle.blockSize = fs.blockSize)
    (dir : fs.IsDirectory inode listing) : middle.IsDirectory inode' listing := by
  have entries : middle.entriesPerBlock = fs.entriesPerBlock := congrArg (· / 4) size
  refine ⟨grown.wellFormed, fun leaf isLeaf => ?_, entries ▸ dir.distinct⟩
  have isLeaf : Leaf fs.entriesPerBlock leaf := entries ▸ isLeaf
  have block := dir.blocks leaf isLeaf
  split at block
  case isTrue miss =>
    split
    case isTrue => exact block
    case isFalse there => exact .inr ⟨grown.cleared leaf isLeaf miss there, block⟩
  case isFalse there =>
    have stays := grown.stays isLeaf.within isLeaf.ne_nil there
    rw [stays, if_neg there, grown.kept leaf isLeaf.within isLeaf.ne_nil (fun _ => isLeaf) there, size]
    exact block

theorem persist_cases (fs : EXT2FileSystem) (parent : Nat) (inode : Inode) : ∃ later, fs.persist parent inode = fs.withFaults later ∨
    (parent ≠ 0 ∧ fs.persist parent inode = (fs.withFaults later).setInode parent inode) := by
  unfold persist
  split
  case isTrue => exact ⟨fs.faults, .inl rfl⟩
  case isFalse named =>
    unfold writeInode
    split
    case h_1 => exact ⟨fs.faults, .inl rfl⟩
    case h_2 blockNum _ =>
      obtain ⟨afterRead, _, read⟩ := blockRequest_eq fs blockNum
      obtain ⟨afterWrite, _, write⟩ := blockRequest_eq (fs.withFaults afterRead) blockNum
      dsimp only
      rw [read]
      split
      case isTrue => exact ⟨afterRead, .inl rfl⟩
      case isFalse =>
        rw [write]
        split
        · exact ⟨afterWrite, .inr ⟨named, rfl⟩⟩
        · exact ⟨afterWrite, .inl rfl⟩

theorem persist_words (fs : EXT2FileSystem) (parent : Nat) (inode : Inode) : (fs.persist parent inode).words = fs.words ∧
    (fs.persist parent inode).blockSize = fs.blockSize ∧ (fs.persist parent inode).taken = fs.taken := by
  obtain ⟨later, kept | ⟨_, written⟩⟩ := persist_cases fs parent inode
  · rw [kept]
    exact ⟨rfl, rfl, rfl⟩
  · rw [written]
    exact ⟨rfl, rfl, rfl⟩

theorem addEntry_added (sound : fs.faults = []) (done : (fs.addEntryToDirectory entry iMode inode parent).1 = true) :
    iMode &&& ext2SIfdir ≠ 0 ∧ ∃ answers last, Lends fs last answers ∧
      (fs.addEntryToDirectory entry iMode inode parent).2.2.taken = fs.taken ++ answers ∧
      (fs.WellFormed inode → Fresh fs inode (got answers) →
        ∃ middle, Grown (fun _ => True) fs middle inode (fs.addEntryToDirectory entry iMode inode parent).2.1 (got answers) ∧
          middle.blockSize = fs.blockSize ∧ ∃ leaf, Leaf fs.entriesPerBlock leaf ∧ ∃ data,
            fs.answerAt inode (fs.entryAdded entry) leaf = some data ∧
            (fs.addEntryToDirectory entry iMode inode parent).2.2.words = (middle.setWords (fs.blockAt inode leaf) (wordView data)).words ∧
            (fs.addEntryToDirectory entry iMode inode parent).2.2.blockSize = fs.blockSize) := by
  unfold addEntryToDirectory at done ⊢
  split at done
  case isTrue => exact nomatch done
  case isFalse isDir =>
  refine ⟨isDir, ?_⟩
  rw [if_neg isDir]
  rw [request_succeeds sound] at done ⊢
  dsimp only at done ⊢
  have walks := @addToBlocks_walks entry fs true sound inode
  generalize fs.addToBlocks entry true inode = walk at walks done ⊢
  obtain ⟨walked, alloc, inode', after⟩ := walk
  cases walked with
  | goesOn => exact nomatch done
  | aborted => exact nomatch done
  | added =>
    obtain ⟨answers, ran, _, scans⟩ := walks
    obtain ⟨words, size, ht⟩ := persist_words after parent inode'
    refine ⟨answers, after, ran, ht.trans ran.taken, fun wellFormed fresh => ?_⟩
    obtain ⟨middle, middleRan, grown, ⟨goesOn, _⟩ | ⟨_, leaf, mem, data, hf, eq⟩⟩ :=
      scans (fun bad => nomatch bad) trivial wellFormed fresh
    · exact nomatch goesOn
    · refine ⟨middle, grown, middleRan.size, leaf, mem_leafPaths.mp mem, data, hf, words.trans ?_, size.trans ran.size⟩
      exact congrArg EXT2FileSystem.words eq

theorem Holds.entryAdded {blockSize fileType inodeNum : Nat} {words : Nat → Nat} {records : List DirRecord} {data : Bytes}
    (holds : Holds blockSize words records) (inode : inodeNum < 2 ^ 32) (short : name.length < 2 ^ 8)
    (hf : addFrom blockSize inodeNum fileType name (byteView words) blockSize 0 = some data) :
    ∃ front last, records = front ++ [last] ∧ getNeedRecLen name.length ≤ last.spare ∧
      Records data 0 (front ++ last.placed inodeNum name) blockSize := by
  rcases holds with chain | ⟨cleared, none⟩
  · rcases eq_nil_or_concat records with none | ⟨front, last, split⟩
    · rw [none] at chain
      cases chain
      exact nomatch hf
    · rw [concat_eq_append] at split
      rw [split] at chain
      obtain ⟨start, before, h, fits, ends, search⟩ := @Records.addFrom_last _ _ blockSize _ inodeNum fileType name _ _ chain (by omega) short
      rw [search] at hf
      split at hf
      case isFalse => exact nomatch hf
      case isTrue roomy =>
        refine ⟨front, last, split, roomy, ?_⟩
        subst h
        rw [← some.inj hf]
        exact before.added fits ends roomy inode short
  · rw [cleared, byteView_zero, addFrom_zero] at hf
    exact nomatch hf

theorem EXT2FileSystem.IsDirectory.nameAdded (dir : fs.IsDirectory inode listing) (sound : fs.faults = [])
    (short : entry.name.length < 2 ^ 8) (nz : entry.inodeNum ≠ 0) (narrow : entry.inodeNum < 2 ^ 32)
    (absent : fs.inodeOf iMode inode entry.name = none)
    (fresh : Fresh fs inode (got ((fs.addEntryToDirectory entry iMode inode parent).2.2.taken.drop fs.taken.length)))
    (done : (fs.addEntryToDirectory entry iMode inode parent).1 = true) :
    ∃ listing', NameAdded fs (fs.addEntryToDirectory entry iMode inode parent).2.2 iMode inode
      (fs.addEntryToDirectory entry iMode inode parent).2.1 listing listing' entry.inodeNum entry.name := by
  obtain ⟨isDir, answers, _, _, ht, adds⟩ := addEntry_added sound done
  rw [ht, drop_left] at fresh
  obtain ⟨middle, grown, middleSize, leaf, isLeaf, data, hf, words, size⟩ := adds dir.tree fresh
  generalize fs.addEntryToDirectory entry iMode inode parent = res at grown words size ⊢
  obtain ⟨_, inode', after⟩ := res
  have block := dir.blocks leaf isLeaf
  unfold answerAt at hf
  split at hf
  case isTrue => exact nomatch hf
  case isFalse there =>
  rw [if_neg there] at block
  obtain ⟨front, last, split, roomy, chain⟩ := block.entryAdded narrow short hf
  have entries : middle.entriesPerBlock = fs.entriesPerBlock := congrArg (· / 4) middleSize
  have stays := grown.stays isLeaf.within isLeaf.ne_nil there
  obtain ⟨before, behind, parts⟩ := flatMap_update (nodup_leafPaths fs.entriesPerBlock) (mem_leafPaths.mpr isLeaf) listing
  have old : fs.records listing = before ++ ((front ++ [last]) ++ behind) := by
    rw [← parts (front ++ [last]), ← split, update_eq_self]
    rfl
  have new := parts (front ++ last.placed entry.inodeNum entry.name)
  rw [dir.inodeOf_eq isDir, old] at absent
  have dist : Distinct (before ++ ((front ++ last.placed entry.inodeNum entry.name) ++ behind)) :=
    distinct_placed (old ▸ dir.distinct) absent nz
  have changed : (middle.setWords (fs.blockAt inode leaf) (wordView data)).IsDirectory inode'
      (update listing leaf (front ++ last.placed entry.inodeNum entry.name)) := by
    have grownDirectory := grown.directory middleSize dir
    rw [← stays]
    refine grownDirectory.setWords (entries ▸ isLeaf) (stays.trans_ne there) (middleSize ▸ chain) ?_
    unfold records
    rw [entries, new]
    exact dist
  have whole : after.IsDirectory inode' (update listing leaf (front ++ last.placed entry.inodeNum entry.name)) :=
    changed.congr words (size.trans middleSize.symm)
  have listed : after.records (update listing leaf (front ++ last.placed entry.inodeNum entry.name)) =
      before ++ ((front ++ last.placed entry.inodeNum entry.name) ++ behind) := by
    unfold records
    rw [show after.entriesPerBlock = fs.entriesPerBlock from congrArg (· / 4) size, new]
  refine ⟨_, ⟨leaf, front, last, isLeaf, there, split, rfl, ?_⟩, whole, ?_, ?_⟩
  case refine_1 =>
    rw [words]
    change Records (byteView (update middle.words _ _ _)) 0 _ _
    rw [update_self, byteView_wordView]
    exact chain
  case refine_2 =>
    rw [resolved_append, Option.or_eq_none_iff, resolved_append _ (front ++ [last]), Option.or_eq_none_iff] at absent
    rw [whole.inodeOf_eq isDir, listed, resolved_append, absent.1, Option.none_or, resolved_append,
      resolved_placed_self absent.2.1 nz]
    rfl
  case refine_3 =>
    intro other away
    rw [whole.inodeOf_eq isDir, dir.inodeOf_eq isDir, listed, old, resolved_append, resolved_append _ (front ++ _),
      resolved_placed_other away.symm, resolved_append _ before, resolved_append _ (front ++ _)]

theorem writeWords_cases (fs : EXT2FileSystem) (blockNum : Nat) (data : Nat → Nat) : ∃ later,
    fs.writeWords blockNum data = (false, fs.withFaults later) ∨
    fs.writeWords blockNum data = (true, (fs.withFaults later).setWords blockNum data) := by
  obtain ⟨later, _, asked⟩ := blockRequest_eq fs blockNum
  refine ⟨later, ?_⟩
  unfold writeWords
  dsimp only
  rw [asked]
  split
  · exact .inr rfl
  · exact .inl rfl

/-- What `remove_in_block` does to a block. -/
def Erases (fs : EXT2FileSystem) (name : List UInt8) (blockNum : Nat) (result : Unit × EXT2FileSystem) : Prop :=
  ∃ start later, findFrom fs.blockSize name (byteView (fs.words blockNum)) fs.blockSize 0 = some start ∧
    result.2 = (fs.withFaults later).setWords blockNum (wordView (removeEntry (byteView (fs.words blockNum)) start))

theorem removeInBlock_ends (fs : EXT2FileSystem) (inode : Inode) (name : List UInt8) (path : List Nat) (faults : List Bool)
    (there : fs.blockAt inode path ≠ 0) :
    Ends fs inode (Erases fs name) [path] (removeInBlock name (fs.blockAt inode path) (fs.withFaults faults)) := by
  unfold removeInBlock
  obtain ⟨later, failed | ⟨_, read⟩⟩ := readWords_cases (fs.withFaults faults) (fs.blockAt inode path)
  · rw [failed]
    exact .inl ⟨later, rfl⟩
  · have read : (fs.withFaults faults).readWords (fs.blockAt inode path) = (some (fs.words (fs.blockAt inode path)), fs.withFaults later) := read
    rw [read]
    dsimp only
    rw [show (fs.withFaults later).blockSize = fs.blockSize from rfl]
    cases hf : findFrom fs.blockSize name (byteView (fs.words (fs.blockAt inode path))) fs.blockSize 0 with
    | none => exact .inl ⟨later, rfl⟩
    | some start =>
      obtain ⟨last, failed | written⟩ := writeWords_cases (fs.withFaults later) (fs.blockAt inode path)
        (wordView (removeEntry (byteView (fs.words (fs.blockAt inode path))) start))
      · simp only [failed]
        exact .inl ⟨last, rfl⟩
      · simp only [written]
        exact .inr ⟨path, .head _, there, ((), _), rfl, start, last, hf, rfl⟩

theorem EXT2FileSystem.IsDirectory.nameRemoved (dir : fs.IsDirectory inode listing)
    (done : (fs.removeEntryFromDirectory iMode inode name).1 = true) :
    ∃ listing', NameRemoved fs (fs.removeEntryFromDirectory iMode inode name).2 iMode inode listing listing' name := by
  have ends := @searchInode_ends _ fs inode (removeInBlock name) (Erases fs name) (removeInBlock_ends fs inode name)
  unfold removeEntryFromDirectory at done ⊢
  split at done
  case isTrue => exact nomatch done
  case isFalse isDir =>
  rw [if_neg isDir]
  generalize searchInode (removeInBlock name) inode fs = res at ends done ⊢
  rcases ends with ⟨_, rfl⟩ | ⟨leaf, mem, there, ⟨_, after⟩, rfl, start, later, hf, eq⟩
  · exact nomatch done
  obtain rfl : after = _ := eq
  have isLeaf := mem_leafPaths.mp mem
  have block := dir.blocks leaf isLeaf
  rw [if_neg there] at block
  rcases block with chain | ⟨cleared, _⟩
  case inr =>
    rw [cleared, byteView_zero, findFrom_zero] at hf
    exact nomatch hf
  rcases chain.findFrom_cases name (show fs.blockSize ≤ 0 + fs.blockSize by omega) with
    ⟨miss, _⟩ | ⟨place, front, back, search, split, before, behind, _, answers, fits⟩
  · exact nomatch miss.symm.trans hf
  obtain rfl : place = start := some.inj (search.symm.trans hf)
  obtain ⟨live, eq⟩ := DirRecord.answers_iff.mp answers
  have chain' := Records.removed before fits behind
  generalize recordAt (byteView (fs.words (fs.blockAt inode leaf))) _ = record at split live eq chain'
  obtain ⟨left, right, parts⟩ := flatMap_update (nodup_leafPaths fs.entriesPerBlock) mem listing
  have old : fs.records listing = left ++ ((front ++ record :: back) ++ right) := by
    rw [← parts (front ++ record :: back), ← split, update_eq_self]
    rfl
  have new : fs.records (update listing leaf (front ++ record.dead :: back)) =
      left ++ ((front ++ record.dead :: back) ++ right) := parts _
  have dist : Distinct (left ++ ((front ++ record :: back) ++ right)) := old ▸ dir.distinct
  have changed := dir.setWords isLeaf there chain' (new ▸ distinct_dead dist)
  have words : ((fs.withFaults later).setWords (fs.blockAt inode leaf) (wordView (removeEntry (byteView (fs.words (fs.blockAt inode leaf))) place))).words =
    (fs.setWords (fs.blockAt inode leaf) (wordView (removeEntry (byteView (fs.words (fs.blockAt inode leaf))) place))).words := rfl
  have size : ((fs.withFaults later).setWords (fs.blockAt inode leaf)
    (wordView (removeEntry (byteView (fs.words (fs.blockAt inode leaf))) place))).blockSize = fs.blockSize := rfl
  generalize (fs.withFaults later).setWords (fs.blockAt inode leaf) _ = after at words size ⊢
  have whole : after.IsDirectory inode (update listing leaf (front ++ record.dead :: back)) := changed.congr words size
  have listed : after.records (update listing leaf (front ++ record.dead :: back)) =
      left ++ ((front ++ record.dead :: back) ++ right) := by
    rw [← new]
    unfold records
    rw [show after.entriesPerBlock = fs.entriesPerBlock from congrArg (· / 4) size]
  refine ⟨_, ⟨leaf, front, record, back, isLeaf, there, split, live, eq, rfl, ?_⟩, whole, ?_, ?_⟩
  case refine_1 =>
    rw [words]
    change Records (byteView (update fs.words _ _ _)) 0 _ _
    rw [update_self, byteView_wordView]
    exact chain'
  case refine_2 =>
    rw [whole.inodeOf_eq isDir, listed, ← eq]
    exact resolved_dead_self dist live
  case refine_3 =>
    intro other away
    rw [whole.inodeOf_eq isDir, dir.inodeOf_eq isDir, listed, old, resolved_append, resolved_append _ (front ++ _),
      resolved_dead (fun met => away (met.symm.trans eq)), resolved_append _ left, resolved_append _ (front ++ _)]

end

/-- Adding a new name and removing a name change what that name is, and leave a well-formed block. -/
theorem names_mapped {fs : EXT2FileSystem} {inode : Inode} {listing : List Nat → List DirRecord} {iMode : Nat}
    (directory : fs.IsDirectory inode listing) :
    (∀ entry parent, fs.faults = [] → entry.name.length ≤ 255 → entry.inodeNum ≠ 0 → entry.inodeNum < 2 ^ 32 →
      fs.inodeOf iMode inode entry.name = none →
      Fresh fs inode (got ((fs.addEntryToDirectory entry iMode inode parent).2.2.taken.drop fs.taken.length)) →
      (fs.addEntryToDirectory entry iMode inode parent).1 = true →
      ∃ listing', NameAdded fs (fs.addEntryToDirectory entry iMode inode parent).2.2 iMode inode
        (fs.addEntryToDirectory entry iMode inode parent).2.1 listing listing' entry.inodeNum entry.name) ∧
    (∀ name, (fs.removeEntryFromDirectory iMode inode name).1 = true →
      ∃ listing', NameRemoved fs (fs.removeEntryFromDirectory iMode inode name).2 iMode inode listing listing' name) :=
  ⟨fun _ _ sound short nz narrow absent fresh done => directory.nameAdded sound (Nat.lt_succ_of_le short) nz narrow absent fresh done,
    fun _ done => directory.nameRemoved done⟩

/-! ## Directories of a few blocks -/

/-- A volume of 1 KiB blocks with these contents, of which `AllocateBlock` takes block 2 to be free. -/
def volumeOf (blocks : Nat → Bytes) : EXT2FileSystem := { oneGroup 0 1 with words := fun blockNum => wordView (blocks blockNum) }

def twoRecords : Bytes := fun pos => [12, 0, 0, 0, 12, 0, 1, 1, 97, 0, 0, 0, 13, 0, 0, 0, 244, 3, 1, 1, 98].getD pos 0

def inodeWith (blocks : List Nat) : Inode := ⟨0, 0, fun slot => blocks.getD slot 0⟩

def listingWith (records : List (List DirRecord)) : List Nat → List DirRecord
  | [slot] => records.getD slot []
  | _ => []

section

variable {fs : EXT2FileSystem} {blocks : List Nat} {records : List (List DirRecord)}

theorem reach_inodeWith (short : blocks.length ≤ 12) {path : List Nat} {node : Option Nat} (within : Within fs.entriesPerBlock path)
    (hr : fs.reach (inodeWith blocks) path = some node) :
    (path = [] ∧ node = none) ∨ ∃ slot < 12, path = [slot] ∧ node = some (blocks.getD slot 0) ∧ blocks.getD slot 0 ≠ 0 :=
  reach_direct (fun _ far => getD_eq_default _ _ (short.trans far)) within hr

theorem listingWith_long {slots : List Nat} (long : slots ≠ []) (root : Nat) : listingWith records (slots ++ [root]) = [] := by
  obtain ⟨first, rest, rfl⟩ := exists_cons_of_ne_nil long
  obtain ⟨snd, more, split⟩ := exists_cons_of_ne_nil (append_ne_nil_of_right_ne_nil rest (cons_ne_nil root []))
  rw [cons_append, split]
  rfl

theorem isDirectory_inodeWith (short : blocks.length ≤ 12)
    (apart : ∀ i < 12, ∀ j < 12, blocks.getD i 0 = blocks.getD j 0 → blocks.getD i 0 ≠ 0 → i = j)
    (holds : ∀ slot < 12, if blocks.getD slot 0 = 0 then records.getD slot [] = []
      else Holds fs.blockSize (fs.words (blocks.getD slot 0)) (records.getD slot []))
    (distinct : Distinct ((range 12).flatMap fun slot => records.getD slot [])) : fs.IsDirectory (inodeWith blocks) (listingWith records) where
  tree := by
    intro path path' node within within' reached reached'
    rcases reach_inodeWith short within reached with ⟨rfl, rfl⟩ | ⟨slot, small, rfl, rfl, there⟩
    · rcases reach_inodeWith short within' reached' with ⟨rfl, _⟩ | ⟨_, _, _, same, _⟩
      · rfl
      · exact nomatch same
    · rcases reach_inodeWith short within' reached' with ⟨_, same⟩ | ⟨slot', small', rfl, same, _⟩
      · exact nomatch same
      · grind
  blocks leaf isLeaf := by
    split
    case isTrue missing =>
      obtain ⟨slots, root, rfl, known, long, _⟩ := isLeaf
      by_cases direct : root < 12
      · obtain rfl : slots = [] := length_eq_zero_iff.mp (by omega)
        have block := holds root direct
        rw [nil_append, blockAt_root] at missing
        rwa [if_pos (show blocks.getD root 0 = 0 from missing)] at block
      · have deep : slots ≠ [] := by
          rintro rfl
          rw [length_nil] at long
          omega
        exact listingWith_long deep root
    case isFalse there =>
      have reached := (reach_iff isLeaf.ne_nil there).mpr rfl
      rcases reach_inodeWith short isLeaf.within reached with ⟨rfl, _⟩ | ⟨slot, small, rfl, same, named⟩
      · exact absurd rfl isLeaf.ne_nil
      · have block := holds slot small
        rw [if_neg named] at block
        rw [some.inj same]
        exact block
  distinct := by
    have first : ((range 12).flatMap fun slot => pathsUnder fs.entriesPerBlock (slot - 11) [slot]).flatMap (listingWith records) =
        (range 12).flatMap fun slot => records.getD slot [] := by
      rw [flatMap_assoc]
      refine flatMap_congr fun slot mem => ?_
      have small := mem_range.mp mem
      rw [show slot - 11 = 0 by omega]
      exact append_nil _
    have rest : ([12, 13, 14].flatMap fun root => pathsUnder fs.entriesPerBlock (root - 11) [root]).flatMap (listingWith records) = [] := by
      rw [flatMap_eq_nil_iff]
      intro leaf mem
      obtain ⟨root, isRoot, under⟩ := mem_flatMap.mp mem
      obtain ⟨slots, rfl, long, _⟩ := mem_pathsUnder.mp under
      have high : ∀ root ∈ [12, 13, 14], 12 ≤ root := by decide
      have isTree := high root isRoot
      refine listingWith_long (fun none => ?_) root
      rw [none, length_nil] at long
      omega
    rw [leafPaths_eq, flatMap_append, first, rest, append_nil]
    exact distinct

end

/-! ## Concrete directories -/

def twoListed : List DirRecord := [⟨12, 12, [97]⟩, ⟨13, 1012, [98]⟩]

theorem twoRecords_chain : Records twoRecords 0 twoListed 1024 :=
  .cons ⟨by decide, by decide⟩ (.cons ⟨by decide, by decide⟩ .nil)

def twoNamed : EXT2FileSystem := volumeOf fun _ => twoRecords

theorem twoNamed_directory : twoNamed.IsDirectory (inodeWith [5]) (listingWith [twoListed]) := by
  refine isDirectory_inodeWith (by decide) (by decide) (fun slot lt => ?_) (by unfold Distinct; decide)
  cases slot with
  | zero => exact .inl ((byteView_wordView twoRecords).symm ▸ twoRecords_chain)
  | succ slot => rfl

/-- The name c is added and a is removed. -/
theorem names_mapped_twoNamed :
    (∃ listing', NameAdded twoNamed (twoNamed.addEntryToDirectory ⟨14, [99], 0⟩ ext2SIfdir (inodeWith [5]) 2).2.2 ext2SIfdir (inodeWith [5])
      (twoNamed.addEntryToDirectory ⟨14, [99], 0⟩ ext2SIfdir (inodeWith [5]) 2).2.1 (listingWith [twoListed]) listing' 14 [99]) ∧
    ∃ listing', NameRemoved twoNamed (twoNamed.removeEntryFromDirectory ext2SIfdir (inodeWith [5]) [97]).2 ext2SIfdir (inodeWith [5])
      (listingWith [twoListed]) listing' [97] := by
  have mapped := @names_mapped twoNamed _ _ ext2SIfdir twoNamed_directory
  refine ⟨mapped.1 ⟨14, [99], 0⟩ 2 rfl (by decide) (by decide) (by decide) (by decide +kernel) ?_ (by decide +kernel),
    mapped.2 [97] (by decide +kernel)⟩
  have none : (twoNamed.addEntryToDirectory ⟨14, [99], 0⟩ ext2SIfdir (inodeWith [5]) 2).2.2.taken.drop twoNamed.taken.length = [] := by
    decide +kernel
  rw [none]
  exact ⟨nodup_nil, fun _ mem => (nomatch mem), fun _ mem => nomatch mem⟩

/-- A record without an entry. -/
def emptyRecords : Bytes := fun pos => [0, 0, 0, 0, 0, 4].getD pos 0

/-- What an old directory has left: the name z, and nothing after it. -/
def staleRecords : Bytes := fun pos => [20, 0, 0, 0, 12, 0, 1, 1, 122].getD pos 0

/-- Block 2, with a and b, is free by its bit, and the first slot of the directory is missing. -/
def reusedBlock : EXT2FileSystem := volumeOf fun blockNum => if blockNum = 2 then twoRecords else emptyRecords

theorem reusedBlock_directory : reusedBlock.IsDirectory (inodeWith [0, 2, 5]) (listingWith [[], twoListed, [⟨0, 1024, []⟩]]) := by
  refine isDirectory_inodeWith (by decide) (by decide) (fun slot lt => ?_) (by unfold Distinct; decide)
  match slot with
  | 0 => rfl
  | 1 => exact .inl ((byteView_wordView twoRecords).symm ▸ twoRecords_chain)
  | 2 => exact .inl ((byteView_wordView emptyRecords).symm ▸ .cons ⟨by decide, by decide⟩ .nil)
  | slot + 3 => rfl

/-- Block 2 is free, and the request that clears it fails. -/
def uncleared : EXT2FileSystem :=
  (volumeOf fun blockNum => if blockNum = 2 then staleRecords else twoRecords).withFaults [false, false, false, true]

theorem uncleared_directory : uncleared.IsDirectory (inodeWith [0, 5]) (listingWith [[], twoListed]) := by
  refine isDirectory_inodeWith (by decide) (by decide) (fun slot lt => ?_) (by unfold Distinct; decide)
  match slot with
  | 0 => rfl
  | 1 => exact .inl ((byteView_wordView twoRecords).symm ▸ twoRecords_chain)
  | slot + 2 => rfl

/-- A name that is there already, an entry without an inode and a long name are not found as they were
added; a directory block that is handed out again loses its names, and one that is not cleared brings some. -/
theorem names_not_mapped :
    (twoNamed.IsDirectory (inodeWith [5]) (listingWith [twoListed]) ∧
      ∀ entry ∈ [(⟨14, [97], 0⟩ : NewEntry), ⟨0, [99], 0⟩, ⟨14, replicate 257 99, 0⟩],
        (twoNamed.addEntryToDirectory entry ext2SIfdir (inodeWith [5]) 2).1 = true ∧
        (twoNamed.addEntryToDirectory entry ext2SIfdir (inodeWith [5]) 2).2.2.inodeOf ext2SIfdir
          (twoNamed.addEntryToDirectory entry ext2SIfdir (inodeWith [5]) 2).2.1 entry.name ≠ some entry.inodeNum) ∧
    (reusedBlock.IsDirectory (inodeWith [0, 2, 5]) (listingWith [[], twoListed, [⟨0, 1024, []⟩]]) ∧
      (reusedBlock.addEntryToDirectory ⟨14, [99], 0⟩ ext2SIfdir (inodeWith [0, 2, 5]) 2).1 = true ∧
      (reusedBlock.addEntryToDirectory ⟨14, [99], 0⟩ ext2SIfdir (inodeWith [0, 2, 5]) 2).2.2.inodeOf ext2SIfdir
        (reusedBlock.addEntryToDirectory ⟨14, [99], 0⟩ ext2SIfdir (inodeWith [0, 2, 5]) 2).2.1 [97] ≠
          reusedBlock.inodeOf ext2SIfdir (inodeWith [0, 2, 5]) [97]) ∧
    (uncleared.IsDirectory (inodeWith [0, 5]) (listingWith [[], twoListed]) ∧
      (uncleared.addEntryToDirectory ⟨14, [99], 0⟩ ext2SIfdir (inodeWith [0, 5]) 2).1 = true ∧
      (uncleared.addEntryToDirectory ⟨14, [99], 0⟩ ext2SIfdir (inodeWith [0, 5]) 2).2.2.inodeOf ext2SIfdir
        (uncleared.addEntryToDirectory ⟨14, [99], 0⟩ ext2SIfdir (inodeWith [0, 5]) 2).2.1 [122] ≠
          uncleared.inodeOf ext2SIfdir (inodeWith [0, 5]) [122]) :=
  ⟨⟨twoNamed_directory, by decide +kernel⟩, ⟨reusedBlock_directory, by decide +kernel, by decide +kernel⟩,
    ⟨uncleared_directory, by decide +kernel, by decide +kernel⟩⟩

end RosKernel.Ext2
