import Mathlib.Data.List.Induction
import Mathlib.Data.Nat.Bitwise
import Tartine.Basis.ShiftRegister
import Tartine.Core.Disk

/-!
# `Core.Crc32c` — what the checksum computes, and what it is sure to notice

The checksum runs a 32-bit register over the bytes, eight shift-and-reduce rounds a byte, through a table. The rounds are
the moves of a shift register, so they are linear in exclusive or, and a look at the table is eight bits of the reflected
CRC. No non-zero byte's table word has an empty top byte: so the top byte of the register tells which table word went in
last, and what was there before can be peeled off byte by byte.

* `toBitVec_step` — one look at the table is eight bits;
* `checksum_eq_serial` — the checksum is the CRC computed one bit at a time;
* `step_injective` — one byte never merges two registers;
* `foldl_step_injective` — up to four bytes from the same register are told apart;
* `checksum_ne_of_burst` — a change confined to four consecutive bytes changes the checksum.
-/

namespace Tartine.Crc32c

open Basis

/-! ## The rounds are linear -/

theorem low_bit (c : UInt32) : c &&& 1 ≠ 0 ↔ c.toBitVec.getLsbD 0 = true := by
  have hmod : (c &&& 1).toNat = c.toNat % 2 := by
    rw [UInt32.toNat_and]
    exact Nat.and_one_is_mod _
  rw [BitVec.getLsbD, Nat.testBit_zero, decide_eq_true_iff, Ne, ← UInt32.toNat_inj, hmod, UInt32.toNat_zero,
    UInt32.toNat_toBitVec]
  omega

/-- **The rounds are the moves of a shift register.** -/
theorem toBitVec_shiftRounds (k : Nat) (c : UInt32) : (shiftRounds k c).toBitVec = shifts poly.toBitVec k c.toBitVec := by
  induction k generalizing c with
  | zero => rfl
  | succ k ih =>
      have hmove : (if c &&& 1 ≠ 0 then poly ^^^ (c >>> 1) else c >>> 1).toBitVec = shift poly.toBitVec c.toBitVec := by
        unfold shift
        by_cases hlow : c &&& 1 ≠ 0
        · rw [if_pos hlow, if_pos ((low_bit c).mp hlow)]
          rfl
        · rw [if_neg hlow, if_neg (mt (low_bit c).mpr hlow)]
          rfl
      rw [shifts_succ, ← hmove]
      exact ih _

theorem shiftRounds_xor (k : Nat) (a b : UInt32) :
    shiftRounds k (a ^^^ b) = shiftRounds k a ^^^ shiftRounds k b := by
  rw [← UInt32.toBitVec_inj, UInt32.toBitVec_xor, toBitVec_shiftRounds, toBitVec_shiftRounds, toBitVec_shiftRounds,
    UInt32.toBitVec_xor, shifts_xor]

/-- No byte but zero leaves the top byte of its table word empty. -/
theorem eq_zero_of_top {i : Nat} (hi : i < 256) (h : (shiftRounds 8 (UInt32.ofNat i)).toNat >>> 24 = 0) : i = 0 := by
  have hall : ∀ i < 256, (shiftRounds 8 (UInt32.ofNat i)).toNat >>> 24 = 0 → i = 0 := by decide +kernel
  exact hall i hi h

/-! ## One byte -/

/-- The table word a byte brings in. -/
def index (crc : UInt32) (b : UInt8) : UInt32 := (crc ^^^ b.toUInt32) &&& 0xff

theorem index_lt (crc : UInt32) (b : UInt8) : (index crc b).toNat < 256 := by
  unfold index
  rw [UInt32.toNat_and]
  exact Nat.and_lt_two_pow (n := 8) _ (by decide)

theorem step_eq (crc : UInt32) (b : UInt8) : step crc b = shiftRounds 8 (index crc b) ^^^ (crc >>> 8) := by
  have hlt := index_lt crc b
  show table.getD (index crc b).toNat 0 ^^^ _ = _
  rw [table, List.getD_eq_getElem?_getD, List.getElem?_map, List.getElem?_range hlt]
  simp

theorem toNat_step (crc : UInt32) (b : UInt8) :
    (step crc b).toNat = (shiftRounds 8 (index crc b)).toNat ^^^ (crc.toNat >>> 8) := by
  rw [step_eq, UInt32.toNat_xor, UInt32.toNat_shiftRight]
  rfl

/-! ## One bit at a time -/

/-- The bits of a byte, the lowest first. -/
def bitsOf (b : UInt8) : List Bool := (List.range 8).map b.toBitVec.getLsbD

/-- The register after a string. -/
def register (data : Bytes) : UInt32 := data.foldl step (~~~0)

/-- The register of the reflected CRC, fed one bit at a time. -/
def serialRegister (data : Bytes) : BitVec 32 := (data.flatMap bitsOf).foldl (feed 0x82f63b78#32) (BitVec.allOnes 32)

/-- The reflected CRC: from a register of ones, with ones added at the end. -/
def serialChecksum (data : Bytes) : BitVec 32 := serialRegister data ^^^ BitVec.allOnes 32

/-- **One look at the table is eight bits**, for every register and byte. -/
theorem toBitVec_step (crc : UInt32) (b : UInt8) :
    (step crc b).toBitVec = (bitsOf b).foldl (feed 0x82f63b78#32) crc.toBitVec := by
  -- the byte as wide as the register
  have hwide : bitsOf b = (List.range 8).map b.toUInt32.toBitVec.getLsbD := by
    refine List.map_congr_left fun i hi => ?_
    have hlt := List.mem_range.mp hi
    rw [UInt8.toBitVec_toUInt32, BitVec.getLsbD_setWidth, decide_eq_true (by omega), Bool.true_and]
  have hgone : b.toUInt32.toBitVec >>> 8 = 0#32 := by
    refine BitVec.eq_of_getLsbD_eq fun i _ => ?_
    rw [BitVec.getLsbD_ushiftRight, UInt8.toBitVec_toUInt32, BitVec.getLsbD_setWidth, BitVec.getLsbD_of_ge _ _ (by omega),
      Bool.and_false, BitVec.getLsbD_zero]
  have hmask : ∀ i, (0xff#32).getLsbD i = (decide (i < 8) && decide (i < 32)) := by
    intro i
    rw [show (0xff#32) = (BitVec.allOnes 8).setWidth 32 from rfl, BitVec.getLsbD_setWidth, BitVec.getLsbD_allOnes, Bool.and_comm]
  have hindex : (index crc b).toBitVec = (crc.toBitVec ^^^ b.toUInt32.toBitVec) &&& 0xff#32 := rfl
  have hhigh : (crc >>> 8).toBitVec = crc.toBitVec >>> 8 := rfl
  have htable := shifts_table hmask poly.toBitVec (crc.toBitVec ^^^ b.toUInt32.toBitVec)
  rw [BitVec.ushiftRight_xor_distrib, hgone, BitVec.xor_zero] at htable
  calc (step crc b).toBitVec
      = shifts poly.toBitVec 8 ((crc.toBitVec ^^^ b.toUInt32.toBitVec) &&& 0xff#32) ^^^ (crc.toBitVec >>> 8) := by
        rw [step_eq, UInt32.toBitVec_xor, toBitVec_shiftRounds, hindex, hhigh]
    _ = shifts poly.toBitVec 8 (crc.toBitVec ^^^ b.toUInt32.toBitVec) := htable.symm
    _ = (bitsOf b).foldl (feed 0x82f63b78#32) crc.toBitVec := by
        rw [hwide, feed_range, hgone, BitVec.xor_zero]
        rfl

theorem toBitVec_foldl_step (data : Bytes) (crc : UInt32) :
    (data.foldl step crc).toBitVec = (data.flatMap bitsOf).foldl (feed 0x82f63b78#32) crc.toBitVec := by
  induction data generalizing crc with
  | nil => rfl
  | cons b data ih => rw [List.foldl_cons, ih, toBitVec_step, List.flatMap_cons, List.foldl_append]

/-- The register after two strings comes from the register after the first. -/
theorem register_append (a b : Bytes) : register (a ++ b) = b.foldl step (register a) := List.foldl_append

theorem checksum_eq_register (data : Bytes) : checksum data = ~~~register data := rfl

/-- **The table-driven checksum is the bit-serial one.** For every string; and a string that is continued has a register
    that depends on what went before through its register only. -/
theorem checksum_eq_serial : (∀ data : Bytes, (checksum data).toBitVec = serialChecksum data) ∧
    (∀ data : Bytes, checksum data = ~~~register data) ∧
    ∀ a b : Bytes, register (a ++ b) = b.foldl step (register a) := by
  refine ⟨fun data => ?_, checksum_eq_register, register_append⟩
  have hregister : (register data).toBitVec = serialRegister data := toBitVec_foldl_step data _
  have hnot : ∀ c : UInt32, (~~~c).toBitVec = c.toBitVec ^^^ BitVec.allOnes 32 := fun c => BitVec.xor_allOnes.symm
  rw [serialChecksum, ← hregister, ← hnot, ← checksum_eq_register]

/-- The check value of the algorithm: the digits from one to nine. -/
example : checksum [0x31, 0x32, 0x33, 0x34, 0x35, 0x36, 0x37, 0x38, 0x39] = 0xe3069283 := by decide +kernel

/-! ## Registers told apart -/

/-- **Peeling off a byte.** Registers that agree from the byte `j` up took in the same table word, and agreed from one
    byte higher before. -/
theorem step_peel {crc crc' : UInt32} {b b' : UInt8} {j : Nat} (hj : j < 4)
    (h : (step crc b).toNat >>> (8 * j) = (step crc' b').toNat >>> (8 * j)) :
    index crc b = index crc' b' ∧ crc.toNat >>> (8 * (j + 1)) = crc'.toNat >>> (8 * (j + 1)) := by
  have htop : ∀ (c : UInt32) (x : UInt8), (step c x).toNat >>> 24 = (shiftRounds 8 (index c x)).toNat >>> 24 := by
    intro c x
    have hlt := c.toNat_lt
    have hzero : c.toNat >>> 8 >>> 24 = 0 := by
      rw [← Nat.shiftRight_add, Nat.shiftRight_eq_div_pow]
      exact Nat.div_eq_of_lt hlt
    rw [toNat_step, Nat.shiftRight_xor_distrib, hzero, Nat.xor_zero]
  have hindex : index crc b = index crc' b' := by
    have hsplit : 8 * j + (24 - 8 * j) = 24 := by omega
    have hboth : (shiftRounds 8 (index crc b)).toNat >>> 24 = (shiftRounds 8 (index crc' b')).toNat >>> 24 := by
      rw [← htop, ← htop, ← hsplit, Nat.shiftRight_add, Nat.shiftRight_add, h]
    have hxor : (shiftRounds 8 (index crc b ^^^ index crc' b')).toNat >>> 24 = 0 := by
      rw [shiftRounds_xor, UInt32.toNat_xor, Nat.shiftRight_xor_distrib, hboth, Nat.xor_self]
    have hlt : (index crc b ^^^ index crc' b').toNat < 256 := by
      rw [UInt32.toNat_xor]
      exact Nat.xor_lt_two_pow (n := 8) (index_lt _ _) (index_lt _ _)
    have hzero := eq_zero_of_top hlt (by rwa [UInt32.ofNat_toNat])
    exact UInt32.xor_eq_zero_iff.mp (UInt32.toNat_inj.mp hzero)
  refine ⟨hindex, ?_⟩
  rw [toNat_step, toNat_step, hindex, Nat.shiftRight_xor_distrib, Nat.shiftRight_xor_distrib] at h
  have hcancel := congrArg ((shiftRounds 8 (index crc' b')).toNat >>> (8 * j) ^^^ ·) h
  simp only [Nat.xor_xor_cancel_left, ← Nat.shiftRight_add] at hcancel
  rw [Nat.mul_succ, Nat.add_comm (8 * j)]
  exact hcancel

/-- The same table word comes in when the low byte and the byte read have the same exclusive or. -/
theorem low_of_index {crc crc' : UInt32} {b b' : UInt8} (h : index crc b = index crc' b') :
    crc.toNat % 256 ^^^ b.toNat = crc'.toNat % 256 ^^^ b'.toNat := by
  have hlow : ∀ (c : UInt32) (x : UInt8), (index c x).toNat = c.toNat % 256 ^^^ x.toNat := by
    intro c x
    have hmask : ∀ n : Nat, n &&& 255 = n % 256 := fun n => Nat.and_two_pow_sub_one_eq_mod n 8
    unfold index
    rw [UInt32.toNat_and, UInt32.toNat_xor, show (0xff : UInt32).toNat = 255 from rfl, Nat.and_xor_distrib_right, hmask,
      hmask, UInt8.toNat_toUInt32, Nat.mod_eq_of_lt x.toNat_lt]
  rw [← hlow, ← hlow, h]

/-- **One byte never merges two registers.** -/
theorem step_injective (b : UInt8) : Function.Injective (fun crc => step crc b) := by
  intro crc crc' h
  obtain ⟨hindex, hhigh⟩ := step_peel (j := 0) (by decide) (congrArg (fun c => c.toNat >>> (8 * 0)) h)
  have hlow := congrArg (· ^^^ b.toNat) (low_of_index hindex)
  simp only [Nat.xor_xor_cancel_right] at hlow
  rw [Nat.shiftRight_eq_div_pow, Nat.shiftRight_eq_div_pow] at hhigh
  exact UInt32.toNat_inj.mp (by omega)

/-- The register after a byte tells the byte, if it was the same before. -/
theorem byte_of_index {crc : UInt32} {b b' : UInt8} (h : index crc b = index crc b') : b = b' := by
  have hlow := congrArg (crc.toNat % 256 ^^^ ·) (low_of_index h)
  simp only [Nat.xor_xor_cancel_left] at hlow
  exact UInt8.toNat_inj.mp hlow

/-! ## Bytes in a row -/

theorem foldl_step_register (bytes : Bytes) {crc crc' : UInt32} (h : bytes.foldl step crc = bytes.foldl step crc') :
    crc = crc' := by
  induction bytes generalizing crc crc' with
  | nil => exact h
  | cons b bytes ih => exact step_injective b (ih h)

/-- **Up to four bytes are told apart** by what they leave of the register they started from. -/
theorem foldl_step_injective {crc : UInt32} {bs bs' : Bytes} {j : Nat} (hlen : bs.length = bs'.length)
    (hj : j + bs.length ≤ 4) (h : (bs.foldl step crc).toNat >>> (8 * j) = (bs'.foldl step crc).toNat >>> (8 * j)) :
    bs = bs' := by
  -- the last byte is peeled off first: what is known of the register shrinks by one byte a turn
  induction bs using List.reverseRecOn generalizing bs' j with
  | nil => exact (List.length_eq_zero_iff.mp hlen.symm).symm
  | append_singleton bs b ih =>
      obtain ⟨bs₁, b', rfl⟩ : ∃ bs₁ b', bs' = bs₁ ++ [b'] := by
        rcases List.eq_nil_or_concat bs' with rfl | ⟨bs₁, b', rfl⟩
        · simp at hlen
        · exact ⟨bs₁, b', List.concat_eq_append⟩
      simp only [List.length_append, List.length_singleton, Nat.add_right_cancel_iff] at hlen hj
      simp only [List.foldl_append, List.foldl_cons, List.foldl_nil] at h
      obtain ⟨hindex, hhigh⟩ := step_peel (by omega) h
      obtain rfl := ih hlen (by omega) hhigh
      rw [byte_of_index hindex]

/-- **A change within four consecutive bytes changes the checksum.** -/
theorem checksum_ne_of_burst {bs bs' : Bytes} {k : Nat} (hlen : bs.length = bs'.length)
    (hburst : ∀ i, bs[i]? ≠ bs'[i]? → k ≤ i ∧ i < k + 4) (hne : bs ≠ bs') : checksum bs ≠ checksum bs' := by
  intro hsum
  refine hne ?_
  -- equal before and after the window: only the four bytes in it can differ
  have hbefore : bs.take k = bs'.take k := by
    refine List.ext_getElem? (fun i => ?_)
    rw [List.getElem?_take, List.getElem?_take]
    split
    · by_contra hdiff
      have := hburst i hdiff
      omega
    · rfl
  have hafter : bs.drop (k + 4) = bs'.drop (k + 4) := by
    refine List.ext_getElem? (fun i => ?_)
    rw [List.getElem?_drop, List.getElem?_drop]
    by_contra hdiff
    have := hburst _ hdiff
    omega
  have hcut : ∀ l : Bytes, l = l.take k ++ ((l.drop k).take 4 ++ l.drop (k + 4)) := by
    intro l
    rw [← List.drop_drop, List.take_append_drop, List.take_append_drop]
  have hfold : bs.foldl step (~~~0) = bs'.foldl step (~~~0) := by
    have := congrArg (~~~ ·) hsum
    simpa [checksum] using this
  rw [hcut bs, hcut bs', List.foldl_append, List.foldl_append, List.foldl_append, List.foldl_append, hbefore,
    hafter] at hfold
  -- the bytes after the window act on the register injectively, and so do four bytes from one register
  have hwindow := foldl_step_register _ hfold
  have hmid : (bs.drop k).take 4 = (bs'.drop k).take 4 := by
    refine foldl_step_injective (j := 0) ?_ ?_ (congrArg (fun c => c.toNat >>> (8 * 0)) hwindow)
    · rw [List.length_take, List.length_take, List.length_drop, List.length_drop, hlen]
    · rw [List.length_take]
      omega
  rw [hcut bs, hcut bs', hbefore, hmid, hafter]

/-- Whatever is changed within four consecutive bytes of a stored string, its checksum tells. -/
theorem checksum_slice_ne {f g : Nat → UInt8} {off n k : Nat}
    (hwithin : ∀ i, g i ≠ f i → off ≤ i ∧ i < off + n ∧ k ≤ i ∧ i < k + 4) (hne : ∃ i, g i ≠ f i) :
    checksum (slice g off n) ≠ checksum (slice f off n) := by
  refine checksum_ne_of_burst (k := k - off) (by rw [length_slice, length_slice]) ?_ ?_
  · intro i hdiff
    have hi : i < n := by
      by_contra hout
      rw [List.getElem?_eq_none (by rw [length_slice]; omega), List.getElem?_eq_none (by rw [length_slice]; omega)]
        at hdiff
      exact hdiff rfl
    rw [getElem?_slice hi, getElem?_slice hi] at hdiff
    have := hwithin (off + i) (fun heq => hdiff (by rw [heq]))
    omega
  · intro hsame
    obtain ⟨i, hi⟩ := hne
    obtain ⟨hlow, hhigh, -⟩ := hwithin i hi
    have hat := congrArg (fun l => l[i - off]?) hsame
    simp only [getElem?_slice (show i - off < n by omega), Nat.add_sub_cancel' hlow] at hat
    exact hi (Option.some.inj hat)

end Tartine.Crc32c
