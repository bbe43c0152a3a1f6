import Tartine.Basis.FrameLog
import Tartine.Core.Disk

/-!
# `Core.Segment` — the chunk log: framed records and the recovery scan

`segment.rs`. A record is `magic(4) inode(8) chunk_seq(8) checksum(4) len(4)` followed by its payload. The writer
refuses a record that does not fit the segment; the reader (`scan`) follows records from the start of the region
until it finds something that is not one.

* `probe_of_record` — the reader accepts a record where one was written;
* `probe_of_zeros` — and stops on space that was never written;
* `Carries.scan_eq`, `Carries.snoc` — a region of records followed by blank space is recovered exactly, and grows by a
  record.
-/

namespace Tartine.Segment

open Basis

def segmentSizeBytes : Nat := 256 * 1024 * 1024

/-- `"TARC"`. -/
def recordMagic : UInt32 := 0x54415243

def headerLen : Nat := 4 + 8 + 8 + 4 + 4

/-- One physical record: an append for a single inode. -/
structure Record where
  inode : InodeId
  chunkSeq : UInt64
  checksum : UInt32
  payload : Bytes
  deriving DecidableEq, Repr

/-- `Record::new`: the checksum is the payload's. -/
def Record.new (inode : InodeId) (chunkSeq : UInt64) (payload : Bytes) : Record :=
  ⟨inode, chunkSeq, Crc32c.checksum payload, payload⟩

/-- The 28 bytes before the payload; the length is `payload.len() as u32`. -/
def encodeHeader (r : Record) : Bytes :=
  leBytes 4 recordMagic.toNat ++ (leBytes 8 r.inode.toNat ++ (leBytes 8 r.chunkSeq.toNat ++
    (leBytes 4 r.checksum.toNat ++ leBytes 4 (UInt32.ofNat r.payload.length).toNat)))

def encode (r : Record) : Bytes := encodeHeader r ++ r.payload

/-! ## `SegmentWriter` -/

/-- The write cursor of one open segment on one disk. -/
structure SegmentWriter where
  disk : DiskRef
  baseOffset : Nat
  cursor : Nat

namespace SegmentWriter

def new (disk : DiskRef) (baseOffset : Nat) : SegmentWriter := ⟨disk, baseOffset, 0⟩

def resume (disk : DiskRef) (baseOffset resumeAt : Nat) : SegmentWriter := ⟨disk, baseOffset, resumeAt⟩

def remaining (s : SegmentWriter) : Nat := segmentSizeBytes - s.cursor

/-- `append`: refuses a record that does not fit the rest of the segment; returns the offset written at. -/
def append (env : Env) (w : World) (s : SegmentWriter) (record : Record) :
    Except IoError Nat × World × SegmentWriter :=
  let encoded := encode record
  if s.remaining < encoded.length then (.error .segmentFull, w, s)
  else
    let offset := s.baseOffset + s.cursor
    match w.writeAt env s.disk offset encoded with
    | (.error e, w) => (.error e, w, s)
    | (.ok (), w)   => (.ok offset, w, { s with cursor := s.cursor + encoded.length })

def sync (env : Env) (w : World) (s : SegmentWriter) : Except IoError Unit × World := w.sync env s.disk

end SegmentWriter

/-! ## `scan` -/

/-- How the reader takes a header apart: refused unless it opens with the magic. -/
def framing : Framing (UInt64 × UInt64 × UInt32) Record where
  headerLen := headerLen
  header h :=
    if h.take 4 ≠ leBytes 4 recordMagic.toNat then none
    else
      let inode := UInt64.ofNat (leNat ((h.drop 4).take 8))
      let chunkSeq := UInt64.ofNat (leNat ((h.drop 12).take 8))
      let checksum := UInt32.ofNat (leNat ((h.drop 20).take 4))
      some ((inode, chunkSeq, checksum), leNat ((h.drop 24).take 4))
  accept k payload :=
    if Crc32c.checksum payload ≠ k.2.2 then none else some ⟨k.1, k.2.1, k.2.2, payload⟩

/-- What the scan finds at `cursor`, an offset relative to `baseOffset`. -/
def probe (d : FileDisk) (baseOffset : Nat) : Nat → Probe Record :=
  framing.probe (fun off n => d.readAt (baseOffset + off) n) segmentSizeBytes

/-- `segment::scan`. -/
def scan (d : FileDisk) (baseOffset : Nat) : ScanResult Record := Basis.scan (probe d baseOffset) segmentSizeBytes

/-! ## What the reader makes of what the writer wrote -/

variable {d : FileDisk} {baseOffset c : Nat}

@[simp] theorem length_encodeHeader (r : Record) : (encodeHeader r).length = headerLen := by
  simp [encodeHeader, headerLen]

@[simp] theorem length_encode (r : Record) : (encode r).length = headerLen + r.payload.length := by
  simp [encode]

theorem encode_ne_nil (r : Record) : encode r ≠ [] := by
  refine List.ne_nil_of_length_pos ?_
  rw [length_encode]
  exact Nat.add_pos_left (by decide) _

/-- The header is read back. -/
theorem header_encodeHeader {r : Record} (hlen : r.payload.length < 2 ^ 32) :
    framing.header (encodeHeader r) = some ((r.inode, r.chunkSeq, r.checksum), r.payload.length) := by
  have h64 : ∀ v : UInt64, UInt64.ofNat (leNat (leBytes 8 v.toNat)) = v := by
    intro v
    rw [leNat_leBytes_of_lt v.toNat_lt, UInt64.ofNat_toNat]
  have h32 : UInt32.ofNat (leNat (leBytes 4 r.checksum.toNat)) = r.checksum := by
    rw [leNat_leBytes_of_lt r.checksum.toNat_lt, UInt32.ofNat_toNat]
  have hl : leNat (leBytes 4 (UInt32.ofNat r.payload.length).toNat) = r.payload.length := by
    rw [leNat_leBytes_of_lt (UInt32.toNat_lt _), UInt32.toNat_ofNat', Nat.mod_eq_of_lt hlen]
  simp only [framing, encodeHeader, List.take_append, List.drop_append, length_leBytes, List.take_of_length_le,
    List.drop_of_length_le, List.drop_zero, Nat.sub_self, Nat.reduceSub, Nat.reduceLeDiff, Nat.le_refl,
    List.take_zero, List.append_nil, List.nil_append, h64, h32, hl, ne_eq, not_true_eq_false, if_false]

theorem probe_bounded : Bounded (probe d baseOffset) segmentSizeBytes :=
  Framing.probe_bounded (F := framing) (by show 0 < headerLen; decide)

/-- **Where a record was written, the reader finds it.** -/
theorem probe_of_record {r : Record} (hold : Holds d.bytes (baseOffset + c) (encode r))
    (hend : baseOffset + c + (encode r).length ≤ d.len) (hcap : c + (encode r).length ≤ segmentSizeBytes)
    (hsum : r.checksum = Crc32c.checksum r.payload) : probe d baseOffset c = .entry r (encode r).length := by
  rw [length_encode] at hend hcap ⊢
  have hpay : r.payload.length < 2 ^ 32 := by
    have : segmentSizeBytes < 2 ^ 32 := by decide
    omega
  obtain ⟨hheader, hbody⟩ := holds_append.mp hold
  rw [length_encodeHeader, Nat.add_assoc] at hbody
  refine Framing.probe_eq_entry_iff.mpr
    ⟨encodeHeader r, _, _, r.payload, ?_, header_encodeHeader hpay, rfl, hcap, ?_, ?_⟩
  · have := FileDisk.readAt_of_holds hheader (Or.inr (by rw [length_encodeHeader]; omega))
    rwa [length_encodeHeader] at this
  · exact FileDisk.readAt_of_holds hbody (Or.inr (by show _ + (c + headerLen) + _ ≤ _; omega))
  · show (if Crc32c.checksum r.payload ≠ r.checksum then none else _) = _
    rw [if_neg (by simp [hsum])]

/-- **Unwritten space is the resume point**: the reader stops on zeros. -/
theorem probe_of_zeros (hzero : ∀ i, i < 4 → d.bytes (baseOffset + c + i) = 0) :
    probe d baseOffset c = .stop := by
  refine Framing.probe_of_no_header ?_
  intro bs hread
  have hfirst : bs.take 4 = slice d.bytes (baseOffset + c) 4 := FileDisk.take_of_readAt hread (by decide)
  have hzeros : slice d.bytes (baseOffset + c) 4 = List.replicate 4 0 := slice_zeros hzero
  show (if bs.take 4 ≠ leBytes 4 recordMagic.toNat then none else _) = none
  rw [if_pos (by rw [hfirst, hzeros]; decide)]

/-- A disk that still reads everything below `e` still shows the reader a chain that ends there. -/
theorem chain_mono {d' : FileDisk} {rs : List Record} {e : Nat} (h : Chain (probe d baseOffset) c rs e)
    (hread : ∀ off n bs, off + n ≤ e → d.readAt (baseOffset + off) n = some bs →
      d'.readAt (baseOffset + off) n = some bs) : Chain (probe d' baseOffset) c rs e :=
  Framing.chain_mono h hread

/-! ## A region that carries records -/

/-- A disk carries exactly the records `rs` from `baseOffset` on: one after another, then blank space. -/
structure Carries (d : FileDisk) (baseOffset : Nat) (rs : List Record) (e : Nat) : Prop where
  chain : Chain (probe d baseOffset) 0 rs e
  blank : ∀ i, baseOffset + e ≤ i → d.bytes i = 0

theorem carries_nil (h : ∀ i, d.bytes i = 0) : Carries d baseOffset [] 0 := ⟨.nil, fun i _ => h i⟩

variable {rs : List Record} {e : Nat}

/-- **Recovery returns exactly the records a region carries**, and resumes at their end. -/
theorem Carries.scan_eq (h : Carries d baseOffset rs e) : scan d baseOffset = ⟨rs, e, none⟩ :=
  scan_of_chain probe_bounded h.chain (probe_of_zeros (fun i _ => h.blank _ (by omega)))

theorem Carries.snoc (h : Carries d baseOffset rs e) {r : Record} (hcap : e + (encode r).length ≤ segmentSizeBytes)
    (hsum : r.checksum = Crc32c.checksum r.payload) :
    Carries (d.writeAt (baseOffset + e) (encode r)) baseOffset (rs ++ [r]) (e + (encode r).length) := by
  have hend := (FileDisk.writeAt_end_le d (baseOffset + e) (encode r)).resolve_left (encode_ne_nil r)
  have hchain : Chain (probe (d.writeAt (baseOffset + e) (encode r)) baseOffset) 0 rs e := by
    refine chain_mono h.chain ?_
    intro off n bs hx hread
    exact FileDisk.readAt_writeAt_disjoint hread (Or.inl (by omega))
  refine ⟨hchain.snoc (probe_of_record (holds_patch_self _ _ _) hend hcap hsum), ?_⟩
  intro i hi
  rw [FileDisk.writeAt_bytes, patch_of_not_mem (by omega)]
  exact h.blank i (by omega)

/-- A write before the region leaves its records as they were. -/
theorem Carries.writeAt_before {off : Nat} {buf : Bytes} (h : Carries d baseOffset rs e)
    (hoff : off + buf.length ≤ baseOffset) : Carries (d.writeAt off buf) baseOffset rs e := by
  refine ⟨chain_mono h.chain ?_, ?_⟩
  · intro x n bs _ hread
    exact FileDisk.readAt_writeAt_disjoint hread (Or.inr (by omega))
  · intro i hi
    rw [FileDisk.writeAt_bytes, patch_of_not_mem (by omega)]
    exact h.blank i hi

end Tartine.Segment
