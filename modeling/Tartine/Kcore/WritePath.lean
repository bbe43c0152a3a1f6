import Mathlib.Data.Nat.Basic

/-!
# `Kcore.WritePath` — the append-only / converting / writable state machine

`write_path.rs`, on the plain integers that cross the C ABI: modes are `u32`, results are `i32` with negative
error codes. Both front ends call these functions, so a mode never changes except through them.

* `tartineBeginConvert_nonneg_iff` — where a conversion may start.
-/

namespace Tartine.Kcore

def modeAppendOnly : UInt32 := 0
def modeConverting : UInt32 := 1
def modeWritable : UInt32 := 2

def writeKindAppend : Int := 0
def writeKindRandom : Int := 1

def errNotAppendOrder : Int := -1
def errRandomWriteDenied : Int := -2
def errConversionInProgress : Int := -3
def errAlreadyWritable : Int := -4
def errAlreadyConverting : Int := -5
def errBadMode : Int := -6

/-- `tartine_classify_write`: an append at the end of the file, a random write, or a rejection. -/
def tartineClassifyWrite (mode : UInt32) (size offset : UInt64) : Int :=
  if mode = modeAppendOnly then if offset = size then writeKindAppend else errNotAppendOrder
  -- tail appends are still accepted while converting
  else if mode = modeConverting then if offset = size then writeKindAppend else errConversionInProgress
  else if mode = modeWritable then writeKindRandom
  else errBadMode

/-- `tartine_truncate_allowed`: zero, or a negative code. -/
def tartineTruncateAllowed (mode : UInt32) : Int :=
  if mode = modeWritable then 0
  else if mode = modeAppendOnly ∨ mode = modeConverting then errRandomWriteDenied
  else errBadMode

/-- `tartine_begin_convert`: the new mode, or a negative code. -/
def tartineBeginConvert (mode : UInt32) : Int :=
  if mode = modeAppendOnly then modeConverting.toNat
  else if mode = modeWritable then errAlreadyWritable
  else if mode = modeConverting then errAlreadyConverting
  else errBadMode

/-- `tartine_complete_convert`: the new mode, or a negative code. -/
def tartineCompleteConvert (mode : UInt32) : Int :=
  if mode = modeConverting then modeWritable.toNat else errBadMode

/-- Conversion starts from append-only, and only from there. -/
theorem tartineBeginConvert_nonneg_iff {mode : UInt32} : 0 ≤ tartineBeginConvert mode ↔ mode = modeAppendOnly := by
  unfold tartineBeginConvert
  split
  · rename_i h
    exact ⟨fun _ => h, fun _ => by decide⟩
  · rename_i h
    refine ⟨?_, fun hm => absurd hm h⟩
    split
    · exact fun hneg => absurd hneg (by decide)
    · split <;> exact fun hneg => absurd hneg (by decide)

end Tartine.Kcore
