import RosKernel.Process.Mmap

/-! Paths in `kernel/filesys/vfs/vfs.cpp`: canonical form, mount points and symbolic links.

A path is its bytes without the zero byte at the end. A function that would read or write
outside of one of its buffers, or read one that it never wrote, has no result.
-/

set_option autoImplicit false

namespace RosKernel.Filesys

open Process

abbrev Path := List UInt8

def slash : UInt8 := 47

def dot : UInt8 := 46

/-- What a driver says of a path. -/
structure FileInfo where
  size : Nat
  inodeId : Nat
  type : FileType
  isDirectory : Bool
deriving DecidableEq

/-- What a driver fills in of an inode. -/
structure NodeInfo where
  inodeId : Nat
  fileSize : Nat
  type : FileType

/-- The methods of `FileSystem` that paths and their metadata need; none is `FALSE` or an error. -/
structure FileSystem where
  stat : Path → Option FileInfo
  lookup : Path → Nat
  populateInode : Nat → Option NodeInfo
  readLink : Path → Option Path

structure MountPoint where
  path : Path
  fs : FileSystem

def pathSize : Nat := 256

def maxTokens : Nat := 32

def maxSymlinkDepth : Nat := 16

/-- One component, with the components kept so far, the last one first. -/
def pushToken (kept : List Path) (token : Path) : Option (List Path) :=
  if token = [] ∨ token = [dot] then some kept
  else if token = [dot, dot] then some kept.tail
  else if kept.length < maxTokens then some (token :: kept)
  else none

def rebuild (tokens : List Path) : Path := if tokens = [] then [slash] else tokens.flatMap (slash :: ·)

/-- The path that a relative one stands for, before it is made canonical. -/
def joinCwd (cwd input : Path) : Path :=
  if input.head? = some slash then input
  else if cwd ≠ [] ∧ cwd.getLast? ≠ some slash then cwd ++ slash :: input
  else cwd ++ input

def canonicalizePath (cwd input : Path) : Option Path :=
  let temp := joinCwd cwd input
  if pathSize ≤ temp.length then none
  else
    match (temp.splitOn slash).foldlM pushToken [] with
    | none => none
    | some kept =>
      let output := rebuild kept.reverse
      if pathSize ≤ output.length then none else some output

/-- The mount path covers the path, up to the end of a component. -/
def MountPoint.covers (mount : MountPoint) (path : Path) : Bool :=
  mount.path.isPrefixOf path &&
    (mount.path == [slash] || (path.drop mount.path.length).head?.all (· == slash))

/-- The loop over the mount points: the first of the longest ones. -/
def longestMount (path : Path) : List MountPoint → Option MountPoint → Option MountPoint
  | [], best => best
  | mount :: mounts, best =>
    longestMount path mounts <|
      if mount.covers path && best.all (·.path.length < mount.path.length) then some mount else best

/-- The path in the file system of a mount point. -/
def MountPoint.relative (mount : MountPoint) (path : Path) : Path :=
  let rest := path.drop mount.path.length
  slash :: (if rest.head? = some slash then rest.tail else rest).take (pathSize - 2)

def findMountPoint (mounts : List MountPoint) (path : Path) : Option (MountPoint × Path) :=
  if path.head? = some slash then (longestMount path mounts none).map fun mount => (mount, mount.relative path) else none

/-- The copy of a relative path for the caller: one of 255 bytes is left without an end. -/
def copyOut (mount : MountPoint) (rel : Path) : Option (Option (MountPoint × Path)) :=
  if rel.length < pathSize - 1 then some (some (mount, rel)) else none

/-- The loop of `ResolvePath`; the buffer that a relative link is put together in is never written. -/
def resolveFrom (mounts : List MountPoint) (followLastSymlink : Bool) : Nat → Path → Option (Option (MountPoint × Path))
  | 0, _ => some none
  | left + 1, current =>
    match findMountPoint mounts current with
    | none => some none
    | some (mount, rel) =>
      match mount.fs.stat rel with
      | none => copyOut mount rel
      | some info =>
        if info.type = .symlink ∧ followLastSymlink then
          match mount.fs.readLink rel with
          | none => some none
          | some target =>
            if target.head? = some slash then resolveFrom mounts followLastSymlink left target else none
        else copyOut mount rel

def resolvePath (mounts : List MountPoint) (path : Path) (followLastSymlink : Bool) : Option (Option (MountPoint × Path)) :=
  (canonicalizePath [slash] path).bind (resolveFrom mounts followLastSymlink maxSymlinkDepth)

variable {mounts : List MountPoint} {path : Path}

theorem rebuild_head (tokens : List Path) : (rebuild tokens).head? = some slash := by
  cases tokens with
  | nil => rfl
  | cons token tokens => rfl

theorem canonicalizePath_head {cwd input output : Path} (canonical : canonicalizePath cwd input = some output) :
    output.head? = some slash := by
  unfold canonicalizePath at canonical
  dsimp only at canonical
  split at canonical
  case isTrue => exact nomatch canonical
  case isFalse =>
  split at canonical
  case h_1 => exact nomatch canonical
  case h_2 kept _ =>
  split at canonical
  case isTrue => exact nomatch canonical
  case isFalse => exact Option.some.inj canonical ▸ rebuild_head _

theorem longestMount_isSome {best : Option MountPoint} (some_ : best.isSome ∨ ∃ mount ∈ mounts, mount.covers path = true) :
    (longestMount path mounts best).isSome := by
  induction mounts generalizing best with
  | nil => simpa [longestMount] using some_
  | cons mount mounts ih =>
    apply ih
    by_cases covers : mount.covers path = true
    · left
      cases best with
      | none => simp [covers]
      | some other => split <;> rfl
    · rw [if_neg (by simp [covers])]
      rcases some_ with some_ | ⟨other, mem, covered⟩
      · exact .inl some_
      · rcases List.mem_cons.mp mem with rfl | mem
        · exact absurd covered covers
        · exact .inr ⟨other, mem, covered⟩

theorem findMountPoint_isSome (root : ∃ mount ∈ mounts, mount.path = [slash]) (absolute : path.head? = some slash) :
    (findMountPoint mounts path).isSome := by
  obtain ⟨mount, mem, isRoot⟩ := root
  have covers : mount.covers path = true := by
    obtain ⟨rest, rfl⟩ := List.head?_eq_some_iff.mp absolute
    simp [MountPoint.covers, isRoot]
  rw [findMountPoint, if_pos absolute, Option.isSome_map]
  exact longestMount_isSome (.inr ⟨mount, mem, covers⟩)

theorem resolvePath_eq {canonical : Path} (made : canonicalizePath [slash] path = some canonical) :
    resolvePath mounts path false = match findMountPoint mounts canonical with
      | none => some none
      | some (mount, rel) => copyOut mount rel := by
  rw [resolvePath, made, Option.bind_some, maxSymlinkDepth, resolveFrom]
  cases findMountPoint mounts canonical with
  | none => rfl
  | some hf =>
    dsimp only
    cases hf.1.fs.stat hf.2 with
    | none => rfl
    | some info => simp

end RosKernel.Filesys
