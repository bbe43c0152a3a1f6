import Mathlib.Data.Prod.Lex
import Mathlib.Data.Nat.Log
import Tartine.Basis.Bytes

/-!
# `Kcore.Placement` — rendezvous placement, as `tartine-kcore` computes it

`hash.rs` and `placement.rs` of the kernel-safe core: the FNV-1a hash of a disk id and a key, the fixed-point
logarithm, the rendezvous score, the selection of the best candidate for one slot (`hrwSelectOne`) and of the best
few (`hrwSelect`), and the walk over a file's slot list (`placeRedundancy`).

Indices are stored as `u32` and the scratch array `excluded` is filled only for placed slots, exactly as in the
source; the array's used prefix `excluded[..filled_excl]` is modelled as the list of its entries. Scores are
`u128` values below `2 ^ 96`, modelled as naturals.
-/

namespace Tartine.Kcore

open Basis

/-! ## `hash.rs`: FNV-1a -/

def fnvOffset : UInt64 := 0xcbf29ce484222325
def fnvPrime : UInt64 := 0x00000100000001b3

/-- `Fnv1a::write`: fold the bytes into the state, with wrapping multiplication. -/
def fnvWrite (state : UInt64) (bytes : List UInt8) : UInt64 :=
  bytes.foldl (fun h b => (h ^^^ b.toUInt64) * fnvPrime) state

/-- `hash_u128_u64`: the 16 bytes of the id, then the 8 bytes of the key. -/
def hashU128U64 (a : BitVec 128) (b : UInt64) : UInt64 :=
  fnvWrite (fnvWrite fnvOffset (leBytes 16 a.toNat)) (leBytes 8 b.toNat)

/-- `tartine_hash_key`: the placement key of `(inode, chunk_seq)`. -/
def hashKey (inode seq : UInt64) : UInt64 := hashU128U64 (BitVec.ofNat 128 inode.toNat) seq

/-! ## Scores -/

/-- One candidate disk, as the caller has it. -/
structure DiskCandidate where
  diskIdHi : UInt64
  diskIdLo : UInt64
  weightMilli : UInt32
  active : UInt8
  cls : UInt8
  deriving DecidableEq, Repr

def classAny : UInt8 := 0
def classHdd : UInt8 := 1
def classSsd : UInt8 := 2
def classNvme : UInt8 := 3

/-- Hard cap on replicas selectable in one call. -/
def maxSelect : Nat := 16

/-- The square-and-shift rounds of the binary logarithm: the mantissa `m` is Q32, each round yields one bit. -/
def log2Rounds : Nat → Nat → Nat → Nat
  | 0,     _, frac => frac
  | k + 1, m, frac =>
      let sq := m * m
      let frac := (frac <<< 1) % 2 ^ 64
      if 2 ^ 65 ≤ sq then log2Rounds k ((sq >>> 33) % 2 ^ 64) (frac ||| 1)
      else log2Rounds k ((sq >>> 32) % 2 ^ 64) frac

/-- `neg_log2_q16`: `-log2((h + 1) / 2^64)` in Q16. -/
def negLog2Q16 (h : UInt64) : Nat :=
  let x := h.toNat + 1
  if x = 2 ^ 64 then 0
  else
    let intPart := Nat.log2 x
    let m := if 32 ≤ intPart then x >>> (intPart - 32) else (x <<< (32 - intPart)) % 2 ^ 64
    (64 <<< 16) - ((intPart <<< 16) ||| log2Rounds 16 m 0)

/-- `score_from`: `weight / -log2(u)` with 64 fractional bits. -/
def scoreFrom (raw : UInt64) (weightMilli : UInt32) : Nat :=
  (max weightMilli.toNat 1 <<< 64) / (negLog2Q16 raw + 1)

/-- The 128-bit id, from its two halves. -/
def diskId128 (hi lo : UInt64) : BitVec 128 := BitVec.ofNat 128 (hi.toNat <<< 64 ||| lo.toNat)

/-- One scored candidate during selection. -/
structure Ranked where
  score : Nat
  raw : UInt64
  idHi : UInt64
  idLo : UInt64
  idx : UInt32

/-- The tuple the source compares: score, raw hash, then the id's two halves. -/
def Ranked.key (r : Ranked) : ℕ ×ₗ ℕ ×ₗ ℕ ×ₗ ℕ :=
  toLex (r.score, toLex (r.raw.toNat, toLex (r.idHi.toNat, r.idLo.toNat)))

def beats (a b : Ranked) : Bool := decide (b.key < a.key)

def rank (key : UInt64) (idx : Nat) (c : DiskCandidate) : Ranked :=
  let raw := hashU128U64 (diskId128 c.diskIdHi c.diskIdLo) key
  { score := scoreFrom raw c.weightMilli
    raw := raw
    idHi := c.diskIdHi
    idLo := c.diskIdLo
    idx := UInt32.ofNat idx }

/-! ## Selection -/

/-- One turn of the selection loop: `continue` on an inactive, excluded or wrong-class candidate, else keep the
    better of `best` and this one. -/
def selectStep (key : UInt64) (excluded : List UInt32) (requiredClass : UInt8) (best : Option Ranked)
    (ci : DiskCandidate × Nat) : Option Ranked :=
  if ci.1.active = 0 then best
  else if excluded.contains (UInt32.ofNat ci.2) then best
  else if requiredClass ≠ classAny ∧ ci.1.cls ≠ requiredClass then best
  else
    let entry := rank key ci.2 ci.1
    match best with
    | none   => some entry
    | some b => if beats entry b then some entry else some b

/-- `hrw_select_one`: the highest-ranked active candidate of the class that is not excluded. -/
def hrwSelectOne (candidates : List DiskCandidate) (key : UInt64) (excluded : List UInt32)
    (requiredClass : UInt8) : Option UInt32 :=
  (candidates.zipIdx.foldl (selectStep key excluded requiredClass) none).map Ranked.idx

/-- The loop of `hrw_select`, with `k` turns left; it breaks at the first turn that finds no candidate. The entries
    written so far are the ones excluded. -/
def hrwSelectLoop (candidates : List DiskCandidate) (key : UInt64) :
    Nat → List UInt32 → List UInt32 → Nat × List UInt32
  | 0,     excluded, out => (excluded.length, out)
  | k + 1, excluded, out =>
      match hrwSelectOne candidates key excluded classAny with
      | some idx => hrwSelectLoop candidates key k (excluded ++ [idx]) (out.set excluded.length idx)
      | none     => (excluded.length, out)

/-- `hrw_select`: the number of entries written, and the output buffer after the call. -/
def hrwSelect (candidates : List DiskCandidate) (key : UInt64) (out : List UInt32) : Nat × List UInt32 :=
  hrwSelectLoop candidates key (min out.length maxSelect) [] out

/-- One entry of a file's redundancy policy: a class (`classAny` for none), or, if `pinned ≠ 0`, one disk. -/
structure ReplicaSlotSpec where
  requiredClass : UInt8
  pinned : UInt8
  pinnedIdHi : UInt64
  pinnedIdLo : UInt64
  deriving DecidableEq, Repr

/-- Written for a slot that could not be satisfied. -/
def unplaced : UInt32 := 0xffffffff

/-- A pinned slot is a lookup: the first active, unused candidate with the pinned id. -/
def findPinned (candidates : List DiskCandidate) (excluded : List UInt32) (slot : ReplicaSlotSpec) :
    Option UInt32 :=
  candidates.zipIdx.findSome? fun ci =>
    if ci.1.active ≠ 0 ∧ ¬excluded.contains (UInt32.ofNat ci.2) ∧ ci.1.diskIdHi = slot.pinnedIdHi ∧
        ci.1.diskIdLo = slot.pinnedIdLo then
      some (UInt32.ofNat ci.2)
    else none

/-- The choice for one slot. -/
def chooseSlot (candidates : List DiskCandidate) (key : UInt64) (excluded : List UInt32)
    (slot : ReplicaSlotSpec) : Option UInt32 :=
  if slot.pinned ≠ 0 then findPinned candidates excluded slot
  else hrwSelectOne candidates key excluded slot.requiredClass

/-- The slot loop: writes `out[i]` for each slot in turn and extends `excluded` for the placed ones. -/
def placeLoop (candidates : List DiskCandidate) (key : UInt64) :
    List ReplicaSlotSpec → Nat → List UInt32 → List UInt32 → List UInt32
  | [],            _, _,        out => out
  | slot :: slots, i, excluded, out =>
      match chooseSlot candidates key excluded slot with
      | some idx =>
          let excluded := if excluded.length < maxSelect then excluded ++ [idx] else excluded
          placeLoop candidates key slots (i + 1) excluded (out.set i idx)
      | none => placeLoop candidates key slots (i + 1) excluded (out.set i unplaced)

/-- `place_redundancy`: the number of entries written, and the output buffer after the call. -/
def placeRedundancy (candidates : List DiskCandidate) (key : UInt64) (slots : List ReplicaSlotSpec)
    (out : List UInt32) : Nat × List UInt32 :=
  let n := min slots.length (min out.length maxSelect)
  (n, placeLoop candidates key (slots.take n) 0 [] out)

/-! ## What one slot asks for -/

/-- The disk id of a candidate, as the pair the source compares. -/
def DiskCandidate.id (c : DiskCandidate) : UInt64 × UInt64 := (c.diskIdHi, c.diskIdLo)

/-- The rank of a candidate for a key; it does not depend on where the candidate is listed. -/
def rankKey (key : UInt64) (c : DiskCandidate) : ℕ ×ₗ ℕ ×ₗ ℕ ×ₗ ℕ := (rank key 0 c).key

/-- A candidate meets a slot's constraint: it is the pinned disk, or of the required class. -/
def ReplicaSlotSpec.Accepts (slot : ReplicaSlotSpec) (c : DiskCandidate) : Prop :=
  if slot.pinned ≠ 0 then c.id = (slot.pinnedIdHi, slot.pinnedIdLo)
  else slot.requiredClass = classAny ∨ c.cls = slot.requiredClass

instance (slot : ReplicaSlotSpec) (c : DiskCandidate) : Decidable (slot.Accepts c) :=
  inferInstanceAs (Decidable (if slot.pinned ≠ 0 then c.id = (slot.pinnedIdHi, slot.pinnedIdLo)
    else slot.requiredClass = classAny ∨ c.cls = slot.requiredClass))

@[simp] theorem rank_key (key : UInt64) (i : Nat) (c : DiskCandidate) : (rank key i c).key = rankKey key c :=
  rfl

@[simp] theorem rank_idx (key : UInt64) (i : Nat) (c : DiskCandidate) :
    (rank key i c).idx = UInt32.ofNat i := rfl

theorem beats_iff {a b : Ranked} : beats a b = true ↔ b.key < a.key := decide_eq_true_iff

/-- The rank determines the id: it ends in the id's two halves. -/
theorem rankKey_inj {key : UInt64} {c c' : DiskCandidate} (h : rankKey key c = rankKey key c') :
    c.id = c'.id := by
  simp only [rankKey, Ranked.key, rank, EmbeddingLike.apply_eq_iff_eq, Prod.mk.injEq, UInt64.toNat_inj] at h
  exact Prod.ext h.2.2.1 h.2.2.2

end Tartine.Kcore
