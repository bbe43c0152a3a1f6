import Tartine.Fuse.Ioctl
import Tartine.Kcore.WritePath

/-!
# `Kernel.Ioctl` — the module's control interface over an in-core inode

`tartine_main.c` and `tartine.h`: the four commands, on the state the module keeps per inode. Nothing here reaches a
disk; the mode moves through the kernel core's state machine, and a policy is copied in and out as it is.

A caller brings the bytes that can be read at `arg`, the room that can be written there, and whether
`inode_owner_or_capable` lets it through.

* `tartineFileIoctl_makeWritable` — every way `MAKE_WRITABLE` can end;
* `makeWritable_keeps_iff` — when an error reply leaves the inode as it was.
-/

namespace Tartine.Kernel

open Basis Kcore Fuse

/-! ## Command numbers -/

/-- `_IOC` with the magic of `tartine.h`: direction, size of the argument, magic, number. -/
def ioc (dir size nr : Nat) : UInt32 := UInt32.ofNat (dir <<< 30 ||| size <<< 16 ||| 0x54 <<< 8 ||| nr)

/-- `_IOW`. -/
def iow (nr size : Nat) : UInt32 := ioc 1 size nr

/-- `_IOR`. -/
def ior (nr size : Nat) : UInt32 := ioc 2 size nr

def tartineIocMakeWritable : UInt32 := iow 1 4
def tartineIocGetState : UInt32 := ior 2 24
def tartineIocSetRedundancy : UInt32 := iow 3 redundancyWireSize
def tartineIocGetRedundancy : UInt32 := ior 4 redundancyWireSize

/-- The numbers match the ones of the FUSE front end. -/
example : [tartineIocMakeWritable, tartineIocGetState, tartineIocSetRedundancy, tartineIocGetRedundancy] =
    [Fuse.tartineIocMakeWritable, Fuse.tartineIocGetState, Fuse.tartineIocSetRedundancy,
      Fuse.tartineIocGetRedundancy] := by decide

/-! ## The in-core inode and its caller -/

inductive Errno where
  | eperm
  | efault
  | ealready
  | einval
  | eopnotsupp
  | enotty
  deriving DecidableEq, Repr

/-- `struct tartine_inode_info`, with the size of the inode inside it. The slots are the bytes of the array; only the
    first `nRedundancySlots` of them mean anything. -/
structure InodeInfo where
  mode : UInt32
  nRedundancySlots : UInt32
  redundancySlots : Bytes
  iSize : UInt64
  slots_le : nRedundancySlots.toNat ≤ maxSelect
  length_slots : redundancySlots.length = maxSelect * 24
  deriving DecidableEq

/-- `tartine_alloc_inode`: append-only, without a policy. The slab object's other bytes are whatever they were. -/
def tartineAllocInode (redundancySlots : Bytes) (iSize : UInt64) (h : redundancySlots.length = maxSelect * 24) :
    InodeInfo :=
  ⟨modeAppendOnly, 0, redundancySlots, iSize, by decide, h⟩

/-- What a call brings from user space. -/
structure Caller where
  /-- `inode_owner_or_capable`. -/
  ownerOrCapable : Bool
  /-- The bytes that can be read at `arg`. -/
  arg : Bytes
  /-- How many bytes can be written at `arg`. -/
  room : Nat

/-- `copy_from_user` of `n` bytes. -/
def copyFromUser (caller : Caller) (n : Nat) : Option Bytes :=
  if n ≤ caller.arg.length then some (caller.arg.take n) else none

/-- `copy_to_user`: the bytes, or a fault. -/
def copyToUser (caller : Caller) (bytes : Bytes) : Except Errno Bytes :=
  if bytes.length ≤ caller.room then .ok bytes else .error .efault

/-! ## Handlers -/

/-- `TARTINE_IOC_MAKE_WRITABLE`. The mode is stored before the wait flag is looked at: there is no materializer yet,
    so a caller that asks to wait is refused with the conversion already begun. -/
def makeWritable (caller : Caller) (ti : InodeInfo) : Except Errno Bytes × InodeInfo :=
  if ¬caller.ownerOrCapable then (.error .eperm, ti)
  else
    match copyFromUser caller 4 with
    | none       => (.error .efault, ti)
    | some flags =>
        let newMode := tartineBeginConvert ti.mode
        if newMode < 0 then
          if newMode = errAlreadyWritable ∨ newMode = errAlreadyConverting then (.error .ealready, ti)
          else (.error .einval, ti)
        else
          let ti := { ti with mode := UInt32.ofNat newMode.toNat }
          if UInt32.ofNat (leNat flags) &&& tartineConvertFlagWait ≠ 0 then (.error .eopnotsupp, ti) else (.ok [], ti)

/-- `TARTINE_IOC_GET_STATE`: a converting file reports no progress. -/
def getState (caller : Caller) (ti : InodeInfo) : Except Errno Bytes × InodeInfo :=
  let converted := if ti.mode = modeConverting then 0 else ti.iSize
  (copyToUser caller (TartineState.toBytes ⟨ti.mode, ti.iSize, converted⟩), ti)

/-- The array after the first `n` slots of a request are copied over it. -/
def copySlots (slots req : Bytes) (n : Nat) : Bytes := field req 16 (n * 24) ++ slots.drop (n * 24)

theorem length_copySlots {slots req : Bytes} {n : Nat} (hslots : slots.length = maxSelect * 24)
    (hreq : req.length = redundancyWireSize) (hn : n ≤ maxSelect) : (copySlots slots req n).length = maxSelect * 24 := by
  unfold copySlots field
  unfold redundancyWireSize at hreq
  rw [List.length_append, List.length_take, List.length_drop, List.length_drop, hslots, hreq]
  omega

theorem length_copyFromUser {caller : Caller} {n : Nat} {req : Bytes} (h : copyFromUser caller n = some req) :
    req.length = n := by
  unfold copyFromUser at h
  split at h
  · rename_i hle
    obtain rfl := Option.some.inj h
    rw [List.length_take]
    omega
  · cases h

/-- `TARTINE_IOC_SET_REDUNDANCY`: everything is checked before anything is stored. -/
def setRedundancy (caller : Caller) (ti : InodeInfo) : Except Errno Bytes × InodeInfo :=
  if ¬caller.ownerOrCapable then (.error .eperm, ti)
  else
    match hreq : copyFromUser caller redundancyWireSize with
    | none     => (.error .efault, ti)
    | some req =>
        let schemeKind := UInt32.ofNat (leNat (field req 0 4))
        let nSlots := UInt32.ofNat (leNat (field req 4 4))
        if schemeKind = tartineRedundancyErasureCoded then (.error .eopnotsupp, ti)
        else if schemeKind ≠ tartineRedundancyReplicated then (.error .einval, ti)
        else if hn : nSlots = 0 ∨ maxSelect < nSlots.toNat then (.error .einval, ti)
        else
          have hle : nSlots.toNat ≤ maxSelect := by
            push Not at hn
            exact hn.2
          (.ok [],
            { ti with
              nRedundancySlots := nSlots
              redundancySlots := copySlots ti.redundancySlots req nSlots.toNat
              slots_le := hle
              length_slots := length_copySlots ti.length_slots (length_copyFromUser hreq) hle })

/-- `TARTINE_IOC_GET_REDUNDANCY`: the slots in use, in a zeroed structure. -/
def getRedundancy (caller : Caller) (ti : InodeInfo) : Except Errno Bytes × InodeInfo :=
  let n := ti.nRedundancySlots.toNat
  (copyToUser caller (leBytes 4 tartineRedundancyReplicated.toNat ++ leBytes 4 n ++ List.replicate 8 0 ++
    ti.redundancySlots.take (n * 24) ++ List.replicate ((maxSelect - n) * 24) 0), ti)

/-- `tartine_file_ioctl`: the reply and the inode after it. -/
def tartineFileIoctl (cmd : UInt32) (caller : Caller) (ti : InodeInfo) : Except Errno Bytes × InodeInfo :=
  if cmd = tartineIocMakeWritable then makeWritable caller ti
  else if cmd = tartineIocGetState then getState caller ti
  else if cmd = tartineIocSetRedundancy then setRedundancy caller ti
  else if cmd = tartineIocGetRedundancy then getRedundancy caller ti
  else (.error .enotty, ti)

/-! ## A refused `MAKE_WRITABLE` -/

/-- The request gets as far as the state machine and asks to wait for the end of the conversion. -/
def AsksToWait (caller : Caller) : Prop :=
  caller.ownerOrCapable ∧ 4 ≤ caller.arg.length ∧
    UInt32.ofNat (leNat (caller.arg.take 4)) &&& tartineConvertFlagWait ≠ 0

instance (caller : Caller) : Decidable (AsksToWait caller) := inferInstanceAs (Decidable (_ ∧ _ ∧ _))

/-- **Every way `MAKE_WRITABLE` can end.** -/
theorem tartineFileIoctl_makeWritable (caller : Caller) (ti : InodeInfo) :
    (∃ e, tartineFileIoctl tartineIocMakeWritable caller ti = (.error e, ti) ∧
      ¬(ti.mode = modeAppendOnly ∧ AsksToWait caller)) ∨
    (tartineFileIoctl tartineIocMakeWritable caller ti = (.ok [], { ti with mode := modeConverting }) ∧
      ¬AsksToWait caller) ∨
    (tartineFileIoctl tartineIocMakeWritable caller ti = (.error .eopnotsupp, { ti with mode := modeConverting }) ∧
      ti.mode = modeAppendOnly ∧ AsksToWait caller) := by
  show (∃ e, makeWritable caller ti = _ ∧ _) ∨ (makeWritable caller ti = _ ∧ _) ∨ makeWritable caller ti = _ ∧ _
  unfold makeWritable AsksToWait
  by_cases howner : caller.ownerOrCapable
  · rw [if_neg (by simpa using howner)]
    by_cases hread : 4 ≤ caller.arg.length
    · rw [copyFromUser, if_pos hread]
      dsimp only
      by_cases hmode : ti.mode = modeAppendOnly
      · have hbegin : tartineBeginConvert ti.mode = 1 := by
          rw [hmode]
          decide
        rw [hbegin, if_neg (by decide)]
        by_cases hwait : UInt32.ofNat (leNat (caller.arg.take 4)) &&& tartineConvertFlagWait ≠ 0
        · rw [if_pos hwait]
          exact Or.inr (Or.inr ⟨rfl, hmode, howner, hread, hwait⟩)
        · rw [if_neg hwait]
          exact Or.inr (Or.inl ⟨rfl, fun h => hwait h.2.2⟩)
      · -- the state machine refuses, and the old mode stays
        have hneg : tartineBeginConvert ti.mode < 0 := by
          by_contra hle
          exact hmode (tartineBeginConvert_nonneg_iff.mp (by omega))
        rw [if_pos hneg]
        left
        split
        · exact ⟨_, rfl, fun h => hmode h.1⟩
        · exact ⟨_, rfl, fun h => hmode h.1⟩
    · rw [copyFromUser, if_neg hread]
      exact Or.inl ⟨_, rfl, fun h => hread h.2.2.1⟩
  · rw [if_pos (by simpa using howner)]
    exact Or.inl ⟨_, rfl, fun h => howner h.2.1⟩

/-- An error reply to `MAKE_WRITABLE` leaves the inode as it was. -/
def MakeWritableKeeps (caller : Caller) (ti : InodeInfo) : Prop :=
  ∀ e, (tartineFileIoctl tartineIocMakeWritable caller ti).1 = .error e →
    (tartineFileIoctl tartineIocMakeWritable caller ti).2 = ti

/-- **An error reply changes nothing, except the one after the mode is stored.** -/
theorem makeWritable_keeps_iff (caller : Caller) (ti : InodeInfo) :
    MakeWritableKeeps caller ti ↔ ¬(ti.mode = modeAppendOnly ∧ AsksToWait caller) := by
  unfold MakeWritableKeeps
  rcases tartineFileIoctl_makeWritable caller ti with ⟨e, h, hwhen⟩ | ⟨h, hwait⟩ | ⟨h, hmode, hwait⟩
  · rw [h]
    exact ⟨fun _ => hwhen, fun _ _ _ => rfl⟩
  · rw [h]
    refine ⟨fun _ hboth => hwait hboth.2, fun _ e he => ?_⟩
    cases he
  · rw [h]
    constructor
    · intro hkeeps
      have hsame : modeConverting = ti.mode := congrArg InodeInfo.mode (hkeeps _ rfl)
      rw [hmode] at hsame
      exact absurd hsame (by decide)
    · intro hnot
      exact absurd ⟨hmode, hwait⟩ hnot

end Tartine.Kernel
