import Mathlib.Data.List.Basic
import Mathlib.Data.List.GetD
import Mathlib.Data.Nat.Basic
import Mathlib.Tactic.Ring

/-!
# `Basis.Bytes` — little-endian numbers and byte-addressed storage

Two small theories that every byte-level format rests on, independent of any particular format.

* **Little-endian numbers.** `leBytes n v` is the `n`-byte image of `v`, `leNat` reads it back;
  `leNat_leBytes` and `leBytes_leNat` say they are inverse up to `256 ^ n`.
* **Storage.** A byte store is a function `Nat → UInt8`. `slice` reads a range, `patch` overwrites one,
  and `Holds f off bs` says that `bs` lies at `off`. The frame lemmas (`Holds.patch_disjoint`) and the
  append lemma (`holds_append`) are what a log or an allocator reasons with.
-/

namespace Basis

/-! ## Little-endian numbers -/

/-- The `n` low bytes of `v`, least significant first. -/
def leBytes : Nat → Nat → List UInt8
  | 0,     _ => []
  | n + 1, v => UInt8.ofNat v :: leBytes n (v / 256)

/-- The number whose little-endian bytes are given. -/
def leNat : List UInt8 → Nat
  | []      => 0
  | b :: bs => b.toNat + 256 * leNat bs

@[simp] theorem length_leBytes (n v : Nat) : (leBytes n v).length = n := by
  induction n generalizing v with
  | zero => rfl
  | succ n ih => simp [leBytes, ih]

/-- Reading back an `n`-byte image gives the number modulo `256 ^ n`. -/
theorem leNat_leBytes (n v : Nat) : leNat (leBytes n v) = v % 256 ^ n := by
  induction n generalizing v with
  | zero => simp [leBytes, leNat, Nat.mod_one]
  | succ n ih =>
      have hb : (UInt8.ofNat v).toNat = v % 256 := UInt8.toNat_ofNat'
      rw [leBytes, leNat, ih, hb, Nat.pow_succ', Nat.mod_mul]

/-- A number that fits in `n` bytes survives the trip. -/
theorem leNat_leBytes_of_lt {n v : Nat} (h : v < 256 ^ n) : leNat (leBytes n v) = v := by
  rw [leNat_leBytes, Nat.mod_eq_of_lt h]

theorem leNat_lt (bs : List UInt8) : leNat bs < 256 ^ bs.length := by
  induction bs with
  | nil => simp [leNat]
  | cons b bs ih =>
      have hb : b.toNat < 256 := b.toNat_lt
      simp only [leNat, List.length_cons, Nat.pow_succ]
      omega

/-- Bytes are recovered from the number they denote. -/
theorem leBytes_leNat (bs : List UInt8) : leBytes bs.length (leNat bs) = bs := by
  induction bs with
  | nil => rfl
  | cons b bs ih =>
      have hb : b.toNat < 256 := b.toNat_lt
      have hdiv : (b.toNat + 256 * leNat bs) / 256 = leNat bs := by omega
      have hhead : UInt8.ofNat (b.toNat + 256 * leNat bs) = b := by
        apply UInt8.toNat_inj.mp
        rw [UInt8.toNat_ofNat']
        omega
      simp only [List.length_cons, leBytes, leNat, hdiv, hhead, ih]

/-- A field of a string: `n` bytes at `off`. -/
theorem leBytes_field {bs : List UInt8} {off n : Nat} (h : off + n ≤ bs.length) :
    leBytes n (leNat ((bs.drop off).take n)) = (bs.drop off).take n ∧ leNat ((bs.drop off).take n) < 256 ^ n := by
  have hlen : ((bs.drop off).take n).length = n := by
    rw [List.length_take, List.length_drop]
    omega
  have hbytes := leBytes_leNat ((bs.drop off).take n)
  have hlt := leNat_lt ((bs.drop off).take n)
  rw [hlen] at hbytes hlt
  exact ⟨hbytes, hlt⟩

/-- A field and what is behind it. -/
theorem field_append (bs : List UInt8) (off n : Nat) : (bs.drop off).take n ++ bs.drop (off + n) = bs.drop off := by
  rw [← List.drop_drop, List.take_append_drop]

theorem leBytes_field_u64 {bs : List UInt8} {off : Nat} (h : off + 8 ≤ bs.length) :
    leBytes 8 (UInt64.ofNat (leNat ((bs.drop off).take 8))).toNat = (bs.drop off).take 8 := by
  obtain ⟨hbytes, hlt⟩ := leBytes_field h
  rw [UInt64.toNat_ofNat_of_lt' hlt, hbytes]

theorem leBytes_field_u32 {bs : List UInt8} {off : Nat} (h : off + 4 ≤ bs.length) :
    leBytes 4 (UInt32.ofNat (leNat ((bs.drop off).take 4))).toNat = (bs.drop off).take 4 := by
  obtain ⟨hbytes, hlt⟩ := leBytes_field h
  rw [UInt32.toNat_ofNat_of_lt' hlt, hbytes]

/-- A field of four bytes at most is a `u32`. -/
theorem leNat_take_four_lt (bs : List UInt8) : leNat (bs.take 4) < 2 ^ 32 := by
  refine Nat.lt_of_lt_of_le (leNat_lt _) ?_
  calc 256 ^ (bs.take 4).length ≤ 256 ^ 4 := Nat.pow_le_pow_right (by decide) (by rw [List.length_take]; omega)
    _ = 2 ^ 32 := by decide

theorem leNat_replicate_zero (n : Nat) : leNat (List.replicate n 0) = 0 := by
  induction n with
  | zero => rfl
  | succ n ih => simp [List.replicate_succ, leNat, ih]

/-! ## Byte stores: reading and overwriting ranges -/

/-- The `n` bytes of `f` from `off` on. -/
def slice (f : Nat → UInt8) (off n : Nat) : List UInt8 := (List.range n).map (fun i => f (off + i))

/-- `f` with the bytes from `off` on replaced by `buf`. -/
def patch (f : Nat → UInt8) (off : Nat) (buf : List UInt8) : Nat → UInt8 :=
  fun i => if off ≤ i ∧ i < off + buf.length then buf.getD (i - off) 0 else f i

@[simp] theorem length_slice (f : Nat → UInt8) (off n : Nat) : (slice f off n).length = n := by
  simp [slice]

@[simp] theorem slice_zero (f : Nat → UInt8) (off : Nat) : slice f off 0 = [] := rfl

@[simp] theorem patch_nil (f : Nat → UInt8) (off : Nat) : patch f off [] = f := by
  funext i
  have h : ¬(off ≤ i ∧ i < off + ([] : List UInt8).length) := by simp
  rw [patch, if_neg h]

/-- Outside the patched range nothing changes. -/
theorem patch_of_not_mem {f : Nat → UInt8} {off i : Nat} {buf : List UInt8}
    (h : i < off ∨ off + buf.length ≤ i) : patch f off buf i = f i :=
  if_neg (by omega)

/-- Two writes, the second where the first ends, are one. -/
theorem patch_append (f : Nat → UInt8) (off : Nat) (as bs : List UInt8) :
    patch (patch f off as) (off + as.length) bs = patch f off (as ++ bs) := by
  funext i
  simp only [patch, List.length_append]
  by_cases hbs : off + as.length ≤ i ∧ i < off + as.length + bs.length
  · rw [if_pos hbs, if_pos (by omega), List.getD_append_right _ _ _ _ (by omega), Nat.sub_sub]
  · rw [if_neg hbs]
    by_cases has : off ≤ i ∧ i < off + as.length
    · rw [if_pos has, if_pos (by omega), List.getD_append _ _ _ _ (by omega)]
    · rw [if_neg has, if_neg (by omega)]

/-- Stores that agree at a place still do after the same patch. -/
theorem patch_congr {f g : Nat → UInt8} {off i : Nat} {buf : List UInt8} (h : f i = g i) :
    patch f off buf i = patch g off buf i := by
  unfold patch
  split
  · rfl
  · exact h

/-- Two stores that agree on a range have the same slice there. -/
theorem slice_congr {f g : Nat → UInt8} {off n : Nat} (h : ∀ i, off ≤ i → i < off + n → f i = g i) :
    slice f off n = slice g off n := by
  apply List.map_congr_left
  intro i hi
  rw [List.mem_range] at hi
  exact h _ (by omega) (by omega)

theorem slice_add (f : Nat → UInt8) (off m n : Nat) :
    slice f off (m + n) = slice f off m ++ slice f (off + m) n := by
  simp only [slice, List.range_add, List.map_append, List.map_map]
  congr 1
  apply List.map_congr_left
  intro i _
  simp [Nat.add_assoc]

theorem slice_succ (f : Nat → UInt8) (off n : Nat) :
    slice f off (n + 1) = f off :: slice f (off + 1) n := by
  rw [Nat.add_comm, slice_add]
  rfl

/-- Taking and dropping inside a slice. -/
theorem take_slice {f : Nat → UInt8} {off m n : Nat} (h : m ≤ n) :
    (slice f off n).take m = slice f off m := by
  obtain ⟨k, rfl⟩ := Nat.exists_eq_add_of_le h
  rw [slice_add, List.take_append_of_le_length (by simp), List.take_of_length_le (by simp)]

theorem drop_slice {f : Nat → UInt8} {off m n : Nat} (h : m ≤ n) :
    (slice f off n).drop m = slice f (off + m) (n - m) := by
  obtain ⟨k, rfl⟩ := Nat.exists_eq_add_of_le h
  rw [slice_add, List.drop_append_of_le_length (by simp), List.drop_of_length_le (by simp)]
  simp

theorem getElem?_slice {f : Nat → UInt8} {off n i : Nat} (h : i < n) :
    (slice f off n)[i]? = some (f (off + i)) := by
  simp [slice, h]

/-- A list seen as a byte store, zero past its end. -/
theorem slice_getD {l : List UInt8} {a n : Nat} (h : a + n ≤ l.length) :
    slice (fun i => l.getD i 0) a n = (l.drop a).take n := by
  apply List.ext_getElem?
  intro i
  by_cases hi : i < n
  · rw [getElem?_slice hi, List.getElem?_take, if_pos hi, List.getElem?_drop, List.getD_eq_getElem?_getD,
      List.getElem?_eq_getElem (by omega), Option.getD_some]
  · rw [List.getElem?_eq_none (by simpa using hi), List.getElem?_eq_none (by rw [List.length_take]; omega)]

/-- A store shifted to an offset. -/
theorem slice_shift (f : Nat → UInt8) (c a n : Nat) : slice (fun i => f (c + i)) a n = slice f (c + a) n := by
  apply List.map_congr_left
  intro i _
  show f (c + (a + i)) = f (c + a + i)
  rw [Nat.add_assoc]

/-- A range that reads as zero throughout. -/
theorem slice_zeros {f : Nat → UInt8} {off n : Nat} (h : ∀ i, i < n → f (off + i) = 0) :
    slice f off n = List.replicate n 0 := by
  rw [List.eq_replicate_iff]
  refine ⟨length_slice f off n, ?_⟩
  intro b hb
  obtain ⟨i, hi, rfl⟩ := List.mem_map.mp hb
  exact h i (List.mem_range.mp hi)

/-! ## `Holds`: a byte string lies at an offset -/

/-- The bytes `bs` lie in `f` at `off`. -/
def Holds (f : Nat → UInt8) (off : Nat) (bs : List UInt8) : Prop := slice f off bs.length = bs

/-- A slice holds what it read. -/
theorem holds_slice (f : Nat → UInt8) (off n : Nat) : Holds f off (slice f off n) := by
  unfold Holds; rw [length_slice]

theorem holds_append {f : Nat → UInt8} {off : Nat} {as bs : List UInt8} :
    Holds f off (as ++ bs) ↔ Holds f off as ∧ Holds f (off + as.length) bs := by
  unfold Holds
  rw [List.length_append, slice_add]
  constructor
  · intro h
    exact List.append_inj h (by simp)
  · rintro ⟨ha, hb⟩
    rw [ha, hb]

theorem Holds.congr {f g : Nat → UInt8} {off : Nat} {bs : List UInt8} (h : Holds f off bs)
    (hfg : ∀ i, off ≤ i → i < off + bs.length → g i = f i) : Holds g off bs := by
  unfold Holds at h ⊢
  rw [slice_congr hfg, h]

/-- Strings that lie where a longer one does are its prefixes. -/
theorem Holds.prefix_iff {f : Nat → UInt8} {off : Nat} {as bs : List UInt8} (h : Holds f off bs) :
    as <+: bs ↔ as.length ≤ bs.length ∧ Holds f off as := by
  unfold Holds at h ⊢
  constructor
  · intro hpre
    refine ⟨hpre.length_le, ?_⟩
    rw [← take_slice hpre.length_le, h]
    exact (List.prefix_iff_eq_take.mp hpre).symm
  · rintro ⟨hlen, hold⟩
    rw [← hold, ← take_slice hlen, h]
    exact List.take_prefix _ _

/-- What was just written can be read back. -/
theorem holds_patch_self (f : Nat → UInt8) (off : Nat) (buf : List UInt8) :
    Holds (patch f off buf) off buf := by
  apply List.ext_getElem?
  intro i
  by_cases hi : i < buf.length
  · have hin : off ≤ off + i ∧ off + i < off + buf.length := by omega
    rw [getElem?_slice hi, patch, if_pos hin, Nat.add_sub_cancel_left, List.getElem?_eq_getElem hi,
      List.getD_eq_getElem?_getD, List.getElem?_eq_getElem hi, Option.getD_some]
  · rw [List.getElem?_eq_none (by simpa using hi), List.getElem?_eq_none (by omega)]

/-- A write outside a string's range leaves the string where it was. -/
theorem Holds.patch_disjoint {f : Nat → UInt8} {off off' : Nat} {bs buf : List UInt8}
    (h : Holds f off bs) (hd : off + bs.length ≤ off' ∨ off' + buf.length ≤ off) :
    Holds (patch f off' buf) off bs :=
  h.congr (fun i h1 h2 => patch_of_not_mem (by omega))

end Basis
