import RosKernel.Filesys.Paths

/-! What `Sys_Stat`, `Sys_Lstat`, `Sys_Fstat` and `Sys_Chdir` say of a path, `kernel/usrlndtrnstn/syscall/fs.cpp`.

The calls end without memory errors of their own here; what `Sys_Stat` finds on its stack and
whether the copy to the user goes well are arguments.
-/

set_option autoImplicit false

namespace RosKernel.Filesys

open Process

structure KernelStat where
  stSize : Nat
  stIno : Nat
  stMode : Nat

/-- A `File` as `VFSManager::Open` leaves it. -/
structure FileHandle where
  node : NodeInfo
  type : FileType
  isDirectory : Bool

/-- The mount points, the root among them, and the inodes that the cache has. -/
structure NameSpace where
  mounts : List MountPoint
  rooted : ∃ mount ∈ mounts, mount.path = [slash]
  cachedInode : Path → Nat → Option NodeInfo

def errNoEntry : Int := 2

def errFaultyAddress : Int := 14

def rosNotFound : Int := 4

/-- `S_IFMT` of `Sys_Stat` and `Sys_Fstat`. -/
def modeType : FileType → Nat
  | .dir => 0o040000
  | .devChar => 0o020000
  | .devBlok => 0o060000
  | .pipe => 0o010000
  | .sock => 0o140000
  | .symlink => 0o120000
  | .normal | .shm => 0o100000

def statPerm : FileType → Nat
  | .dir => 0o755
  | .devChar | .devBlok => 0o600
  | .pipe => 0o666
  | .sock | .symlink => 0o777
  | .normal | .shm => 0o644

def fstatPerm : FileType → Nat
  | .dir => 0o755
  | .symlink => 0o777
  | _ => 0o644

def KernelStat.kind (stat : KernelStat) : Nat := stat.stMode &&& 0o170000

/-- The buffer of a path has no end when all 255 bytes are used. -/
def terminatedPath (path : Path) : Option Path := if path.length < pathSize - 1 then some path else none

namespace NameSpace

/-- A copy of the result to the user. -/
def report (stat : KernelStat) (writable : Bool) : Except Int KernelStat :=
  if writable then .ok stat else .error (-errFaultyAddress)

section

variable (names : NameSpace)

/-- `Sys_Stat`; what `Stat` does not fill in is what was on the stack. -/
def sysStat (path : Path) (stack : FileInfo) (writable : Bool) : Option (Except Int KernelStat) := do
  let kernelPath ← terminatedPath path
  let found ← resolvePath names.mounts kernelPath false
  return match found with
    | none => .error (-errNoEntry)
    | some (mount, rel) =>
      -- A `Stat` that succeeds returns `TRUE`, which is not 0.
      match mount.fs.stat rel with
      | some _ => .error (-errNoEntry)
      | none => report ⟨stack.size, stack.inodeId, modeType stack.type ||| statPerm stack.type⟩ writable

def lstatMode (info : FileInfo) : Nat :=
  if info.type = .symlink then 0o120000 ||| 0o777
  else if info.isDirectory ∨ info.type = .dir then 0o040000 ||| 0o755
  else 0o100000 ||| 0o644

/-- `Sys_Lstat`; size and inode stay zero. -/
def sysLstat (path : Path) (stack : FileInfo) (writable : Bool) : Option (Except Int KernelStat) := do
  let kernelPath ← terminatedPath path
  let found ← resolvePath names.mounts kernelPath false
  return match found with
    | none => .error (-errNoEntry)
    | some (mount, rel) =>
      match mount.fs.stat rel with
      | some _ => .error (-errNoEntry)
      | none => report ⟨0, 0, lstatMode stack⟩ writable

/-- `VFSManager::Open` without `O_CREAT` and `O_TRUNC`; it sets neither `type` nor `IsDirectory`. -/
def vfsOpen (path : Path) : Option (Option FileHandle) := do
  let found ← resolvePath names.mounts path false
  return match found with
    | none => none
    | some (mount, rel) =>
      let inodeNum := mount.fs.lookup rel
      if inodeNum = 0 then none
      else
        let new : NodeInfo := ⟨inodeNum, 0, .normal⟩
        let node := (names.cachedInode mount.path inodeNum).getD ((mount.fs.populateInode inodeNum).getD new)
        some ⟨node, .dir, false⟩

/-- `Sys_Open`, when a descriptor is free. -/
def sysOpen (cwd path : Path) : Option (Option FileHandle) :=
  (canonicalizePath cwd path).bind names.vfsOpen

def sysFstat (handle : FileHandle) (writable : Bool) : Except Int KernelStat :=
  report ⟨handle.node.fileSize, handle.node.inodeId, modeType handle.type ||| fstatPerm handle.type⟩ writable

def isDirectory (names : NameSpace) (path : Path) : Option Int := do
  let opened ← names.vfsOpen path
  return match opened with
    | none => -rosNotFound
    | some handle => if handle.isDirectory then 1 else 0

/-- `Sys_Chdir`: the result and the new working directory. -/
def sysChdir (cwd path : Path) : Option (Int × Path) := do
  let userPath ← terminatedPath path
  let finalPath ← canonicalizePath cwd userPath
  let directory ← names.isDirectory finalPath
  return if directory = -rosNotFound then (-2, cwd) else if directory = 0 then (-20, cwd) else (0, finalPath)

/-- What the file system of the resolved path says. -/
def statOf (path : Path) : Option FileInfo :=
  match resolvePath names.mounts path false with
  | some (some (mount, rel)) => mount.fs.stat rel
  | _ => none

end

def Reports (stat : KernelStat) (info : FileInfo) : Prop :=
  stat.stSize = info.size ∧ stat.stIno = info.inodeId ∧ stat.kind = modeType info.type

/-- All calls agree on what a path names. -/
structure Agree (names : NameSpace) (cwd path : Path) : Prop where
  stat : ∀ stack, ∃ result, names.sysStat path stack true = some result ∧
    ((∃ stat, result = .ok stat) ↔ (names.statOf path).isSome) ∧
    ∀ stat info, result = .ok stat → names.statOf path = some info → Reports stat info
  fstat : ∀ handle, names.sysOpen cwd path = some (some handle) → ∀ info, names.statOf path = some info →
    ∃ stat, sysFstat handle true = .ok stat ∧ Reports stat info
  lstat : (∀ info, names.statOf path = some info → info.type ≠ .symlink) → ∀ stack info,
    names.statOf path = some info → names.sysLstat path stack true = names.sysStat path stack true
  chdir : ∃ result, names.sysChdir cwd path = some result ∧
    (result.1 = 0 ↔ ∃ info final, canonicalizePath cwd path = some final ∧ names.statOf final = some info ∧ info.type = .dir) ∧
    (result.1 = 0 → canonicalizePath cwd path = some result.2)

variable {names : NameSpace} {cwd path : Path}

theorem sysStat_ok_iff {stack : FileInfo} {res : Except Int KernelStat} (called : names.sysStat path stack true = some res) :
    (∃ stat, res = .ok stat) ↔ names.statOf path = none := by
  obtain ⟨kernelPath, ended, called⟩ := Option.bind_eq_some_iff.mp called
  obtain ⟨hf, resolved, called⟩ := Option.bind_eq_some_iff.mp called
  have eq : kernelPath = path := by
    unfold terminatedPath at ended
    split at ended
    · exact (Option.some.inj ended).symm
    · exact nomatch ended
  rw [eq] at resolved
  cases called
  -- The root is mounted, so that some file system is asked.
  obtain ⟨mount, rel, rfl⟩ : ∃ mount rel, hf = some (mount, rel) := by
    cases hf with
    | some hf => exact ⟨hf.1, hf.2, rfl⟩
    | none =>
      obtain ⟨canonical, made, _⟩ := Option.bind_eq_some_iff.mp resolved
      rw [resolvePath_eq made] at resolved
      obtain ⟨pair, there⟩ := Option.isSome_iff_exists.mp (findMountPoint_isSome names.rooted (canonicalizePath_head made))
      rw [there] at resolved
      dsimp only [copyOut] at resolved
      split at resolved <;> exact nomatch resolved
  unfold statOf
  rw [resolved]
  dsimp only
  cases mount.fs.stat rel with
  | some info =>
    constructor
    · rintro ⟨_, ok⟩
      exact nomatch ok
    · exact fun miss => nomatch miss
  | none => exact ⟨fun _ => rfl, fun _ => ⟨_, rfl⟩⟩

/-- The calls agree on no path. -/
theorem never_agree (names : NameSpace) (cwd path : Path) : ¬ names.Agree cwd path := by
  intro agree
  obtain ⟨res, called, succeeds, _⟩ := agree.stat ⟨0, 0, .normal, false⟩
  rw [sysStat_ok_iff called] at succeeds
  cases said : names.statOf path <;> simp [said] at succeeds

/-- A root with one regular file of 70 bytes. -/
def oneFile : FileSystem where
  stat := fun path => if path = [slash, 97] then some ⟨70, 12, .normal, false⟩ else none
  lookup := fun path => if path = [slash, 97] then 12 else 0
  populateInode := fun _ => some ⟨12, 70, .normal⟩
  readLink := fun _ => none

def oneMount : NameSpace := ⟨[⟨[slash], oneFile⟩], ⟨_, List.mem_singleton_self _, rfl⟩, fun _ _ => none⟩

/-- The file is there, but `Sys_Stat` does not find it. -/
theorem oneMount_disagrees : oneMount.statOf [slash, 97] = some ⟨70, 12, .normal, false⟩ ∧ ¬ oneMount.Agree [slash] [slash, 97] := by
  have there : oneMount.statOf [slash, 97] = some ⟨70, 12, .normal, false⟩ := by decide +kernel
  refine ⟨there, fun agree => ?_⟩
  obtain ⟨res, called, succeeds, _⟩ := agree.stat ⟨0, 0, .normal, false⟩
  have ok := (sysStat_ok_iff called).mp (succeeds.mpr (there ▸ rfl))
  exact nomatch there.symm.trans ok

end NameSpace

end RosKernel.Filesys
