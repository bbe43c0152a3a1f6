import Mathlib.Logic.Function.Basic
import Tartine.Basis.Action
import Tartine.Basis.Bytes
import Tartine.Proto

/-!
# `Core.Disk` — disk files, checksums, and the outcome of an I/O call

A pool disk is a regular file: bytes at every offset (zero where nothing was written) and a length. `readAt` is
`read_exact_at` (fails past the end), `writeAt` is `write_all_at` (extends the file). Disks are shared between the
data path and the metadata log (`Arc<FileDisk>` in the source), so all of them live in one `World`, addressed by
the position of their path.

Whether a write or a sync succeeds is the device's choice: a `Schedule` gives the outcome of each call in turn. A
failed write leaves arbitrary bytes inside its target range; a failed sync leaves what was written.
-/

namespace Tartine

open Basis

/-! ## `crc32c.rs` -/

namespace Crc32c

/-- Reversed Castagnoli polynomial. -/
def poly : UInt32 := 0x82f63b78

/-- The `j`-loop of `build_table`: `k` shift-and-reduce rounds. -/
def shiftRounds : Nat → UInt32 → UInt32
  | 0,     c => c
  | k + 1, c => shiftRounds k (if c &&& 1 ≠ 0 then poly ^^^ (c >>> 1) else c >>> 1)

/-- `build_table`. -/
def table : List UInt32 := (List.range 256).map (fun i => shiftRounds 8 (UInt32.ofNat i))

/-- One byte through the table. -/
def step (crc : UInt32) (b : UInt8) : UInt32 :=
  table.getD ((crc ^^^ b.toUInt32) &&& 0xff).toNat 0 ^^^ (crc >>> 8)

def checksum (data : Bytes) : UInt32 := ~~~(data.foldl step (~~~0))

/-- The checksum of the empty string is zero: an all-zero header is self-consistent. -/
theorem checksum_nil : checksum [] = 0 := rfl

end Crc32c

/-! ## `disk.rs`: a disk backed by a regular file -/

/-- A disk file. Bytes past the end read as zero once the file grows over them. -/
@[ext] structure FileDisk where
  bytes : Nat → UInt8
  len : Nat
  hole : ∀ i, len ≤ i → bytes i = 0

namespace FileDisk

/-- `FileDisk::create`: a sparse file of the given length. -/
def create (capacityBytes : Nat) : FileDisk := ⟨fun _ => 0, capacityBytes, fun _ _ => rfl⟩

/-- `read_at`: `n` bytes from `off`, or an error past the end of the file. An empty read always succeeds. -/
def readAt (d : FileDisk) (off n : Nat) : Option Bytes :=
  if n = 0 ∨ off + n ≤ d.len then some (slice d.bytes off n) else none

/-- `write_at`: overwrite from `off`, growing the file if needed. An empty write does nothing. -/
def writeAt (d : FileDisk) (off : Nat) (buf : Bytes) : FileDisk where
  bytes := patch d.bytes off buf
  len := if buf = [] then d.len else max d.len (off + buf.length)
  hole := by
    intro i hi
    by_cases hb : buf = []
    · subst hb
      rw [if_pos rfl] at hi
      rw [patch_nil, d.hole i hi]
    · rw [if_neg hb] at hi
      rw [patch_of_not_mem (by omega), d.hole i (by omega)]

/-- `File::set_len`: cut the file, or extend it with zeros. -/
def setLen (d : FileDisk) (n : Nat) : FileDisk where
  bytes i := if i < n then d.bytes i else 0
  len := n
  hole := by
    intro i hi
    rw [if_neg (by omega)]

variable {d : FileDisk} {off : Nat} {buf : Bytes}

@[simp] theorem writeAt_bytes : (d.writeAt off buf).bytes = patch d.bytes off buf := rfl

theorem writeAt_nil : d.writeAt off [] = d := by
  refine FileDisk.ext ?_ ?_
  · rw [writeAt_bytes, patch_nil]
  · simp [writeAt]

theorem len_le_writeAt (d : FileDisk) (off : Nat) (buf : Bytes) : d.len ≤ (d.writeAt off buf).len := by
  show d.len ≤ if buf = [] then d.len else max d.len (off + buf.length)
  split <;> omega

theorem writeAt_end_le (d : FileDisk) (off : Nat) (buf : Bytes) :
    buf = [] ∨ off + buf.length ≤ (d.writeAt off buf).len := by
  by_cases hb : buf = []
  · exact Or.inl hb
  · right
    show off + buf.length ≤ if buf = [] then d.len else max d.len (off + buf.length)
    rw [if_neg hb]; omega

/-- A string that lies inside the file is read back. -/
theorem readAt_of_holds {bs : Bytes} (h : Holds d.bytes off bs) (hlen : bs = [] ∨ off + bs.length ≤ d.len) :
    d.readAt off bs.length = some bs := by
  unfold Holds at h
  have hin : bs.length = 0 ∨ off + bs.length ≤ d.len := by
    rcases hlen with rfl | hlen
    · exact Or.inl rfl
    · exact Or.inr hlen
  rw [readAt, if_pos hin, h]

/-- Whatever a read returns, it returns as many bytes as asked for. -/
theorem length_of_readAt {n : Nat} {bs : Bytes} (h : d.readAt off n = some bs) :
    bs.length = n ∧ Holds d.bytes off bs := by
  unfold readAt at h
  split at h
  · obtain rfl := Option.some.inj h
    exact ⟨length_slice _ _ _, holds_slice _ _ _⟩
  · exact absurd h (by simp)

theorem take_of_readAt {k n : Nat} {bs : Bytes} (h : d.readAt off n = some bs) (hk : k ≤ n) :
    bs.take k = slice d.bytes off k := by
  obtain ⟨hlen, hold⟩ := length_of_readAt h
  rw [← hold, hlen, take_slice hk]

/-- A shorter read returns the first bytes of a longer one. -/
theorem readAt_take {k n : Nat} {bs : Bytes} (h : d.readAt off n = some bs) (hk : k ≤ n) :
    d.readAt off k = some (bs.take k) := by
  unfold readAt at h ⊢
  split at h
  · rename_i hin
    obtain rfl := Option.some.inj h
    rw [if_pos (by omega), take_slice hk]
  · cases h

/-- What can be read of a file can be read of a longer one. -/
theorem isSome_readAt_mono {d' : FileDisk} {n : Nat} (h : (d.readAt off n).isSome) (hlen : d.len ≤ d'.len) :
    (d'.readAt off n).isSome := by
  unfold readAt at h ⊢
  split at h
  · rw [if_pos (by omega)]
    rfl
  · cases h

/-- A read outside the range of a write returns what it returned before. -/
theorem readAt_writeAt_disjoint {off' n : Nat} {bs : Bytes} (h : d.readAt off' n = some bs)
    (hd : off' + n ≤ off ∨ off + buf.length ≤ off') : (d.writeAt off buf).readAt off' n = some bs := by
  obtain ⟨rfl, hold⟩ := length_of_readAt h
  have hin : bs.length = 0 ∨ off' + bs.length ≤ d.len := by
    unfold readAt at h
    by_contra hout
    rw [if_neg hout] at h
    cases h
  refine readAt_of_holds ?_ ?_
  · exact hold.patch_disjoint hd
  · rcases hin with h0 | hle
    · exact Or.inl (List.length_eq_zero_iff.mp h0)
    · exact Or.inr (Nat.le_trans hle (len_le_writeAt d off buf))

/-- A write below a range leaves every read of it as it was, also one that fails. -/
theorem readAt_writeAt_below {off' n : Nat} (h : off + buf.length ≤ off') :
    (d.writeAt off buf).readAt off' n = d.readAt off' n := by
  cases hread : d.readAt off' n with
  | some bs => exact readAt_writeAt_disjoint hread (Or.inr h)
  | none =>
      unfold readAt at hread ⊢
      split at hread
      · cases hread
      · rename_i hout
        have hlen : (d.writeAt off buf).len ≤ max d.len off' := by
          show (if buf = [] then d.len else max d.len (off + buf.length)) ≤ _
          split <;> omega
        rw [if_neg (by omega)]

/-- Two files that agree below `e`, and are at least that long, read the same there. -/
theorem readAt_congr {d' : FileDisk} {e n : Nat} (hlen : e ≤ d.len) (hlen' : e ≤ d'.len)
    (hb : ∀ i, i < e → d.bytes i = d'.bytes i) (hn : off + n ≤ e) : d.readAt off n = d'.readAt off n := by
  unfold readAt
  rw [if_pos (Or.inr (by omega)), if_pos (Or.inr (by omega))]
  exact congrArg some (slice_congr (fun i _ hi => hb i (by omega)))

end FileDisk

/-! ## Outcomes of I/O calls, and the world they act on -/

/-- The errors the disk layer reports. -/
inductive IoError where
  | unexpectedEof
  | segmentFull
  | device
  deriving DecidableEq, Repr

/-- What the device does with one call; a failed write leaves `left` (cut to the target range) on the disk. -/
inductive IoOutcome where
  | ok
  | fail (left : Bytes)

/-- The outcome of every write and sync call, in the order they are issued. -/
abbrev Schedule := Nat → IoOutcome

/-- Disks whose writes and syncs never fail. -/
def healthy : Schedule := fun _ => .ok

/-- Everything outside the program's memory: the device's behaviour and the hash maps' iteration order. -/
structure Env where
  io : Schedule
  ord : IterOrder

/-- An environment with healthy disks. -/
def Env.healthy (ord : IterOrder) : Env := ⟨Tartine.healthy, ord⟩

theorem Env.eq_healthy {env : Env} (h : env.io = Tartine.healthy) : ∃ ord, env = Env.healthy ord :=
  ⟨env.ord, by cases env; exact congrArg (Env.mk · _) h⟩

/-- A shared handle on a disk: the position of its path. -/
abbrev DiskRef := Nat

/-- The disk files, and the number of I/O calls issued so far. -/
structure World where
  disk : DiskRef → FileDisk
  clock : Nat

namespace World

/-- Freshly created disk files. -/
def blank (capacityBytes : Nat) : World := ⟨fun _ => .create capacityBytes, 0⟩

/-- The world with one disk file replaced. -/
def setDisk (w : World) (r : DiskRef) (d : FileDisk) : World :=
  { w with disk := Function.update w.disk r d }

/-- `Disk::write_at` on a shared disk. -/
def writeAt (env : Env) (w : World) (r : DiskRef) (off : Nat) (buf : Bytes) : Except IoError Unit × World :=
  match env.io w.clock with
  | .ok        => (.ok (), { w.setDisk r ((w.disk r).writeAt off buf) with clock := w.clock + 1 })
  | .fail left =>
      (.error .device,
        { w.setDisk r ((w.disk r).writeAt off (left.take buf.length)) with clock := w.clock + 1 })

/-- `Disk::sync`: no effect on the bytes. -/
def sync (env : Env) (w : World) (_r : DiskRef) : Except IoError Unit × World :=
  match env.io w.clock with
  | .ok     => (.ok (), { w with clock := w.clock + 1 })
  | .fail _ => (.error .device, { w with clock := w.clock + 1 })

/-- `write_at` followed, if it succeeded, by `sync`. -/
def writeSync (env : Env) (w : World) (r : DiskRef) (off : Nat) (buf : Bytes) : Except IoError Unit × World :=
  match w.writeAt env r off buf with
  | (.error e, w) => (.error e, w)
  | (.ok (), w)   => w.sync env r

variable {env : Env} {w : World} {r : DiskRef} {off : Nat} {buf : Bytes}

@[simp] theorem setDisk_self {d : FileDisk} : (w.setDisk r d).disk r = d := Function.update_self ..

theorem setDisk_of_ne {d : FileDisk} {r' : DiskRef} (h : r' ≠ r) : (w.setDisk r d).disk r' = w.disk r' :=
  Function.update_of_ne h ..

/-- **What one durable write can do.** It succeeds with exactly the bytes written, or fails having put some bytes
    of its own inside the target range; other disks are untouched either way. -/
theorem writeSync_cases (env : Env) (w : World) (r : DiskRef) (off : Nat) (buf : Bytes) :
    (∃ k, w.writeSync env r off buf =
        (.ok (), { w.setDisk r ((w.disk r).writeAt off buf) with clock := k })) ∨
    ∃ left k, left.length ≤ buf.length ∧ w.writeSync env r off buf =
        (.error .device, { w.setDisk r ((w.disk r).writeAt off left) with clock := k }) := by
  unfold writeSync writeAt
  cases hw : env.io w.clock with
  | fail left =>
      right
      exact ⟨left.take buf.length, w.clock + 1, by rw [List.length_take]; omega, rfl⟩
  | ok =>
      simp only [sync]
      cases hs : env.io (w.clock + 1) with
      | ok => left; exact ⟨w.clock + 2, rfl⟩
      | fail _ => right; exact ⟨buf, w.clock + 2, Nat.le_refl _, rfl⟩

/-- On healthy disks a durable write always succeeds. -/
theorem writeSync_healthy (ord : IterOrder) (w : World) (r : DiskRef) (off : Nat) (buf : Bytes) :
    w.writeSync (Env.healthy ord) r off buf =
      (.ok (), { w.setDisk r ((w.disk r).writeAt off buf) with clock := w.clock + 2 }) := rfl

end World

end Tartine
