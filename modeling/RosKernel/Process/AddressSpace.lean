import RosKernel.Library.Runs
import RosKernel.Process.Mmap

/-! The area list of a task over whole runs of `Sys_MMap`, `Sys_Munmap` and `Sys_Mprotect`.

Arguments are any 64-bit words, and any `new` may fail. `Sys_MMap` rounds its length
up twice, once for the checks and once for the area; a length in the last page of the
64-bit range wraps to zero in both, passes the checks and inserts an empty area. With
lengths that round without wrapping the list keeps its shape.
-/

set_option autoImplicit false

namespace RosKernel.Process

open Library Memory

inductive MmCall where
  | mmap (tables : Descriptors) (addr length prot flags fd offset : UInt64) (newOk : Nat → Bool)
  | munmap (addr length : UInt64) (newOk : Nat → Bool)
  | mprotect (addr len prot : UInt64) (newOk : Nat → Bool)

/-- The space after a call; `none` if the call does not return. -/
def AddressSpace.step (space : AddressSpace) : MmCall → Option AddressSpace
  | .mmap tables addr length prot flags fd offset newOk =>
    (sysMMap tables space addr.toNat length.toNat prot.toNat flags.toNat fd.toNat offset.toNat newOk).map
      fun (_, space, _) => space
  | .munmap addr length newOk =>
    (munmap space.vmas addr.toNat length.toNat newOk).map fun (_, vmas, _) => { space with vmas := vmas }
  | .mprotect addr len prot newOk =>
    (mprotect space.vmas addr.toNat len.toNat prot.toNat newOk).map fun (_, vmas, _) => { space with vmas := vmas }

/-- Requested lengths can be rounded up to whole pages in 64 bits. -/
def AddressSpace.Rounds (_ : AddressSpace) : MmCall → Prop
  | .mmap _ _ length _ _ _ _ _ => length.toNat ≤ 2 ^ 64 - 4096
  | _ => True

/-- The image occupies whole pages below the stack. -/
structure ImageFits (imageBase imageEnd : Nat) : Prop where
  aligned : imageBase % pageSize = 0
  nonempty : imageBase < imageEnd
  below : imageEnd ≤ stackBase

def AddressSpace.Good (space : AddressSpace) : Prop := WellFormed space.vmas ∧ space.mmapNextAddr < 2 ^ 64

theorem execveSpace_good {imageBase imageEnd : Nat} (fits : ImageFits imageBase imageEnd) (newOk : Nat → Bool) :
    (execveSpace imageBase imageEnd newOk).Good := by
  obtain ⟨hal, nonempty, below⟩ := fits
  have stop : pageAlign imageEnd = (imageEnd + 4095) / 4096 * 4096 :=
    pageAlign_eq (Nat.le_trans below (by decide))
  have image : VMArea.Proper ⟨imageBase, pageAlign imageEnd, 0x7, 0x02, none, 0⟩ := by
    simp only [pageSize, stackBase, userStackTop, userStackPages] at hal below
    constructor <;> simp only [stop, pageSize, userMaxAddr] <;> omega
  have stack : VMArea.Proper ⟨stackBase, userStackTop, 0x3, 0x22, none, 0⟩ := by constructor <;> decide
  refine ⟨?_, ?_⟩
  · have shape : WellFormed [⟨imageBase, pageAlign imageEnd, 0x7, 0x02, none, 0⟩,
        ⟨stackBase, userStackTop, 0x3, 0x22, none, 0⟩] := by
      refine ⟨by simp [image, stack], List.pairwise_pair.mpr ?_⟩
      simp only [stop, stackBase, userStackTop, userStackPages, pageSize] at below ⊢
      omega
    have part : (execveSpace imageBase imageEnd newOk).vmas.Sublist [⟨imageBase, pageAlign imageEnd, 0x7, 0x02, none, 0⟩,
        ⟨stackBase, userStackTop, 0x3, 0x22, none, 0⟩] := by
      simp only [execveSpace]
      cases newOk 0 <;> cases newOk 1 <;> simp
    exact ⟨fun area mem => shape.proper area (part.subset mem), shape.order.sublist part⟩
  · simp only [execveSpace]
    split
    · exact pageAlign_lt imageEnd
    · decide

theorem AddressSpace.Good.step {space after : AddressSpace} {call : MmCall} (good : space.Good)
    (rounds : space.Rounds call) (ht : space.step call = some after) : after.Good := by
  obtain ⟨wf, lt⟩ := good
  cases call with
  | mmap tables addr length prot flags fd off newOk =>
    obtain ⟨⟨res, _, effects⟩, ret, rfl⟩ := Option.map_eq_some_iff.mp ht
    rcases sysMMap_cases wf lt addr.toNat_lt rounds ret with
      ⟨_, _, rfl⟩ | ⟨virtualAddr, backingFile, _, _, fits, pos, ins, bounded⟩
    · exact ⟨wf, lt⟩
    · refine ⟨?_, bounded⟩
      simp only [ins]
      exact (fits.inserted _ _ _ _ pos rounds wf).shape
  | munmap addr length newOk =>
    obtain ⟨⟨res, vmas', effects⟩, ret, rfl⟩ := Option.map_eq_some_iff.mp ht
    rcases munmap_cases ret with ⟨_, rfl, _⟩ | ⟨_, hal, valid, rfl, _⟩
    · exact ⟨wf, lt⟩
    · obtain ⟨endAligned, range⟩ := range_of_valid hal valid
      exact ⟨(wf.munmap range hal endAligned).1, lt⟩
  | mprotect addr len prot newOk =>
    obtain ⟨⟨res, vmas', effects⟩, ret, rfl⟩ := Option.map_eq_some_iff.mp ht
    rcases mprotect_cases ret with ⟨rfl, _⟩ | ⟨_, hal, valid, run⟩
    · exact ⟨wf, lt⟩
    · exact ⟨(run.spec (range_of_valid hal valid).1 hal wf).1, lt⟩

/-- The pages of an accepted request were in no area before and are all in one after. -/
def MapsFresh (before after : List VMArea) (virtualAddr length : Nat) : Prop :=
  virtualAddr % pageSize = 0 ∧ ∀ pos, virtualAddr ≤ pos → pos < virtualAddr + (length + 4095) / 4096 * 4096 →
    ¬ Covered before pos ∧ Covered after pos

theorem mapsFresh_of_sysMMap {space space' : AddressSpace} {tables : Descriptors}
    {addr length prot flags fd off virtualAddr : Nat} {newOk : Nat → Bool} {effects : List MmEffect}
    (good : space.Good) (addrSmall : addr < 2 ^ 64) (rounds : length ≤ 2 ^ 64 - 4096)
    (ret : sysMMap tables space addr length prot flags fd off newOk =
      some (.ok virtualAddr, space', effects)) : MapsFresh space.vmas space'.vmas virtualAddr length := by
  rcases sysMMap_cases good.1 good.2 addrSmall rounds ret with
    ⟨_, failed, _⟩ | ⟨_, backingFile, eq, _, fits, positive, ins, _⟩
  · exact nomatch failed
  · cases eq
    refine ⟨fits.aligned, fun pos low high => ⟨?_, ?_⟩⟩
    · intro ⟨area, mem, has⟩
      have := fits.free area mem
      simp only [VMArea.Has] at has
      omega
    · rw [ins, (fits.inserted _ _ _ _ positive rounds good.1).covered]
      exact .inl ⟨low, high⟩

/-- From the list that `Sys_Execve` leaves, every run of the three calls whose requested
lengths can be rounded up keeps the areas aligned, non-empty, in user space, sorted
and disjoint, and each accepted request gets pages that were free. -/
theorem vma_list_intact {imageBase imageEnd : Nat} (image : ImageFits imageBase imageEnd) (bootOk : Nat → Bool)
    {space : AddressSpace}
    (reached : Reaches AddressSpace.step AddressSpace.Rounds (execveSpace imageBase imageEnd bootOk) space) :
    WellFormed space.vmas ∧ space.vmas.Pairwise (fun left right => left.start < right.start) ∧
      (∀ (tables : Descriptors) (addr length prot flags fd offset : UInt64) (newOk : Nat → Bool),
        length.toNat ≤ 2 ^ 64 - 4096 →
        ∃ result space' effects, sysMMap tables space addr.toNat length.toNat prot.toNat flags.toNat fd.toNat
            offset.toNat newOk = some (result, space', effects) ∧
          ∀ virtualAddr, result = .ok virtualAddr →
            MapsFresh space.vmas space'.vmas virtualAddr length.toNat) ∧
      ∀ (addr len prot : UInt64) (newOk : Nat → Bool),
        (mprotect space.vmas addr.toNat len.toNat prot.toNat newOk).isSome := by
  have good : space.Good := reached.invariant AddressSpace.Good (execveSpace_good image bootOk)
    fun _ _ _ good rounds ht => good.step rounds ht
  refine ⟨good.1, ?_, ?_, fun _ _ _ _ => mprotect_isSome good.1⟩
  · refine good.1.order.imp_of_mem fun {left right} leftMember _ gap => ?_
    exact Nat.lt_of_lt_of_le (good.1.proper left leftMember).nonempty gap
  · intro tables addr length prot flags fd offset newOk rounds
    obtain ⟨⟨result, space', effects⟩, ret⟩ := Option.isSome_iff_exists.mp
      (sysMMap_isSome tables prot.toNat flags.toNat fd.toNat offset.toNat newOk addr.toNat length.toNat good.1 good.2)
    refine ⟨result, space', effects, ret, fun virtualAddr accepted => ?_⟩
    rw [accepted] at ret
    exact mapsFresh_of_sysMMap good addr.toNat_lt rounds ret

/-- Tables without files. -/
def noDescriptors : Descriptors := ⟨fun _ => none, fun _ => ⟨.dir, "", 0, 0, false⟩, fun _ => ⟨"", 0, 0, 0, false⟩, none⟩

theorem vma_list_intact_after_mmap :
    ∃ space, Reaches AddressSpace.step AddressSpace.Rounds (execveSpace 0x400000 0x401000 fun _ => true) space ∧
      space.vmas.length = 3 ∧ WellFormed space.vmas := by
  have hs : (execveSpace 0x400000 0x401000 fun _ => true).step
      (.mmap noDescriptors 0 0x1234 3 0x22 0 0 fun _ => true) = some
        ⟨[⟨0x400000, 0x401000, 7, 2, none, 0⟩, ⟨0x200000000, 0x200002000, 3, 0x22, none, 0⟩,
          ⟨0x7FFFFFFF6000, 0x7FFFFFFFE000, 3, 0x22, none, 0⟩], 0x200002000⟩ := by
    decide +kernel
  have image : ImageFits 0x400000 0x401000 := by constructor <;> decide
  have rounds : (execveSpace 0x400000 0x401000 fun _ => true).Rounds
      (.mmap noDescriptors 0 0x1234 3 0x22 0 0 fun _ => true) := by
    simp only [AddressSpace.Rounds]
    decide
  have hr := Reaches.next _ .start rounds hs
  exact ⟨_, hr, rfl, (vma_list_intact image (fun _ => true) hr).1⟩

/-- A length in the last page of the 64-bit range inserts an empty area. -/
theorem empty_area_inserted :
    ¬ ∀ (imageBase imageEnd : Nat) (bootOk : Nat → Bool) (space : AddressSpace), ImageFits imageBase imageEnd →
      Reaches AddressSpace.step (fun _ _ => True) (execveSpace imageBase imageEnd bootOk) space →
      ∀ area ∈ space.vmas, area.start < area.stop := by
  intro claimed
  have hs : (execveSpace 0x400000 0x401000 fun _ => true).step
      (.mmap noDescriptors 0x1000 0xFFFFFFFFFFFFFFFF 3 0x22 0 0 fun _ => true) = some
        ⟨[⟨0x1000, 0x1000, 3, 0x22, none, 0⟩, ⟨0x400000, 0x401000, 7, 2, none, 0⟩,
          ⟨0x7FFFFFFF6000, 0x7FFFFFFFE000, 3, 0x22, none, 0⟩], 0x200000000⟩ := by
    decide +kernel
  have image : ImageFits 0x400000 0x401000 := by constructor <;> decide
  have empty := claimed _ _ _ _ image (.next _ .start trivial hs) _ (.head _)
  exact absurd empty (Nat.lt_irrefl _)

end RosKernel.Process
