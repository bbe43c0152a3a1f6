import Tartine.Basis.FrameLog
import Tartine.Core.Disk

/-!
# `Meta.Wal` — framing of the metadata log

`wal.rs`: each encoded operation is one frame `magic(4) len(4) checksum(4)` and the payload. The writer
(`buildFrame`) knows no bound; the reader (`scan`) never looks past `walCapacityBytes`.

* `probe_of_frame` — the reader accepts a frame that lies within the region;
* `probe_of_zeros` — and stops on space that was never written;
* `chain_writeAt` — writing at or past the end of the log leaves the log as it was;
* `Carries.scan_eq`, `Carries.snoc` — a log followed by blank space is recovered exactly, and grows by a frame.
-/

namespace Tartine.Wal

open Basis

/-- `"WAL1"`. -/
def walMagic : UInt32 := 0x57414c31

def headerLen : Nat := 4 + 4 + 4

def walCapacityBytes : Nat := 64 * 1024 * 1024

/-- Whatever lies inside the region has a length that fits its `u32` field. -/
theorem walCapacityBytes_lt : walCapacityBytes + 1 < 2 ^ 32 := by decide

/-- The 12 bytes before the payload; the length is `payload.len() as u32`. -/
def frameHeader (payload : Bytes) : Bytes :=
  leBytes 4 walMagic.toNat ++ (leBytes 4 (UInt32.ofNat payload.length).toNat ++
    leBytes 4 (Crc32c.checksum payload).toNat)

def frame (payload : Bytes) : Bytes := frameHeader payload ++ payload

/-- `build_frame`. -/
def buildFrame (payload : Bytes) : Bytes := frame payload

/-- How the reader takes a frame apart. -/
def framing : Framing UInt32 Bytes where
  headerLen := headerLen
  header h :=
    if h.take 4 ≠ leBytes 4 walMagic.toNat then none
    else some (UInt32.ofNat (leNat ((h.drop 8).take 4)), leNat ((h.drop 4).take 4))
  accept checksum payload := if Crc32c.checksum payload ≠ checksum then none else some payload

/-- What the scan finds at `cursor`, an offset relative to `baseOffset`. -/
def probe (d : FileDisk) (baseOffset : Nat) : Nat → Probe Bytes :=
  framing.probe (fun off n => d.readAt (baseOffset + off) n) walCapacityBytes

/-- `wal::scan`. -/
def scan (d : FileDisk) (baseOffset : Nat) : ScanResult Bytes := Basis.scan (probe d baseOffset) walCapacityBytes

/-! ## What the reader makes of what the writer wrote -/

variable {d d' : FileDisk} {baseOffset c : Nat} {payload : Bytes}

@[simp] theorem length_frameHeader (payload : Bytes) : (frameHeader payload).length = headerLen := by
  simp [frameHeader, headerLen]

@[simp] theorem length_buildFrame (payload : Bytes) :
    (buildFrame payload).length = headerLen + payload.length := by
  simp [buildFrame, frame]

/-- The header is read back. -/
theorem header_frameHeader (payload : Bytes) : framing.header (frameHeader payload) =
    some (Crc32c.checksum payload, payload.length % 2 ^ 32) := by
  have hsum : UInt32.ofNat (leNat (leBytes 4 (Crc32c.checksum payload).toNat)) = Crc32c.checksum payload := by
    rw [leNat_leBytes_of_lt (UInt32.toNat_lt _), UInt32.ofNat_toNat]
  have hl : leNat (leBytes 4 (UInt32.ofNat payload.length).toNat) = payload.length % 2 ^ 32 := by
    rw [leNat_leBytes_of_lt (UInt32.toNat_lt _), UInt32.toNat_ofNat']
  simp only [framing, frameHeader, List.take_append, List.drop_append, length_leBytes, List.take_of_length_le,
    List.drop_of_length_le, List.drop_zero, Nat.sub_self, Nat.reduceSub, Nat.reduceLeDiff, Nat.le_refl,
    List.take_zero, List.append_nil, List.nil_append, hsum, hl, ne_eq, not_true_eq_false, if_false]

theorem probe_bounded : Bounded (probe d baseOffset) walCapacityBytes :=
  Framing.probe_bounded (F := framing) (by show 0 < headerLen; decide)

/-- **Where a frame was written inside the region, the reader finds its payload.** -/
theorem probe_of_frame (hold : Holds d.bytes (baseOffset + c) (buildFrame payload))
    (hend : baseOffset + c + (buildFrame payload).length ≤ d.len)
    (hcap : c + (buildFrame payload).length ≤ walCapacityBytes) :
    probe d baseOffset c = .entry payload (buildFrame payload).length := by
  rw [length_buildFrame] at hend hcap ⊢
  have hpay : payload.length % 2 ^ 32 = payload.length := by
    have := walCapacityBytes_lt
    exact Nat.mod_eq_of_lt (by omega)
  obtain ⟨hheader, hbody⟩ := holds_append.mp hold
  rw [length_frameHeader, Nat.add_assoc] at hbody
  have hhead := header_frameHeader payload
  rw [hpay] at hhead
  refine Framing.probe_eq_entry_iff.mpr ⟨frameHeader payload, _, _, payload, ?_, hhead, rfl, hcap, ?_, ?_⟩
  · have := FileDisk.readAt_of_holds hheader (Or.inr (by rw [length_frameHeader]; omega))
    rwa [length_frameHeader] at this
  · exact FileDisk.readAt_of_holds hbody (Or.inr (by show _ + (c + headerLen) + _ ≤ _; omega))
  · show (if Crc32c.checksum payload ≠ Crc32c.checksum payload then none else _) = _
    rw [if_neg (by simp)]

/-- Where a frame reaches past the region, the reader stops: the header is all it looks at. -/
theorem probe_of_cut_frame (hold : Holds d.bytes (baseOffset + c) (frameHeader payload)) (hlen : payload.length < 2 ^ 32)
    (hcut : walCapacityBytes < c + (buildFrame payload).length) : probe d baseOffset c = .stop := by
  rw [length_buildFrame, ← Nat.add_assoc] at hcut
  refine Framing.probe_of_too_long ?_
  intro bs hread
  have hbs : bs = frameHeader payload := by
    obtain ⟨hl, hheld⟩ := FileDisk.length_of_readAt (show d.readAt (baseOffset + c) headerLen = some bs from hread)
    unfold Holds at hheld hold
    rw [← hheld, ← hold, hl, length_frameHeader]
  have hheader := header_frameHeader payload
  rw [Nat.mod_eq_of_lt hlen] at hheader
  exact ⟨_, _, by rw [hbs]; exact hheader, hcut⟩

/-- **Unwritten space is the resume point**: the reader stops unless the magic is there. -/
theorem probe_of_no_magic (h : slice d.bytes (baseOffset + c) 4 ≠ leBytes 4 walMagic.toNat) :
    probe d baseOffset c = .stop := by
  refine Framing.probe_of_no_header ?_
  intro bs hread
  have hfirst : bs.take 4 = slice d.bytes (baseOffset + c) 4 := FileDisk.take_of_readAt hread (by decide)
  show (if bs.take 4 ≠ leBytes 4 walMagic.toNat then none else _) = none
  rw [if_pos (by rw [hfirst]; exact h)]

theorem probe_of_zeros (hzero : ∀ i, i < 4 → d.bytes (baseOffset + c + i) = 0) :
    probe d baseOffset c = .stop := by
  refine probe_of_no_magic ?_
  rw [slice_zeros hzero]
  decide

/-! ## Writing to a disk that carries a log -/

/-- **Writing at or past the end of the log leaves the log as it was.** -/
theorem chain_writeAt {ps : List Bytes} {e off : Nat} {buf : Bytes} (h : Chain (probe d baseOffset) c ps e)
    (hoff : baseOffset + e ≤ off) : Chain (probe (d.writeAt off buf) baseOffset) c ps e := by
  refine Framing.chain_mono h ?_
  intro x n bs hx hread
  exact FileDisk.readAt_writeAt_disjoint hread (Or.inl (by omega))

/-- Writing a frame at the end of the log extends the log by its payload. -/
theorem chain_snoc {ps : List Bytes} {e : Nat} (h : Chain (probe d baseOffset) c ps e)
    (hcap : e + (buildFrame payload).length ≤ walCapacityBytes) :
    Chain (probe (d.writeAt (baseOffset + e) (buildFrame payload)) baseOffset) c (ps ++ [payload])
      (e + (buildFrame payload).length) := by
  have hne : buildFrame payload ≠ [] := by
    intro hnil
    have := length_buildFrame payload
    rw [hnil] at this
    simp only [List.length_nil, headerLen] at this
    omega
  have hend := (FileDisk.writeAt_end_le d (baseOffset + e) (buildFrame payload)).resolve_left hne
  exact (chain_writeAt h (Nat.le_refl _)).snoc (probe_of_frame (holds_patch_self _ _ _) hend hcap)

/-- A disk carries exactly the log `ps`: its frames one after another, then blank space to the end of the region. -/
structure Carries (d : FileDisk) (ps : List Bytes) (e : Nat) : Prop where
  chain : Chain (probe d 0) 0 ps e
  blank : ∀ i, e ≤ i → i < walCapacityBytes → d.bytes i = 0

theorem carries_nil (h : ∀ i, d.bytes i = 0) : Carries d [] 0 := ⟨.nil, fun i _ _ => h i⟩

/-- The reader stops where the region ends. -/
theorem probe_of_end (h : walCapacityBytes < c + headerLen) : probe d baseOffset c = .stop := if_pos h

theorem Carries.probe_end {ps : List Bytes} {e : Nat} (h : Carries d ps e) : probe d 0 e = .stop := by
  by_cases hcap : walCapacityBytes < e + headerLen
  · exact probe_of_end hcap
  · refine probe_of_zeros ?_
    intro i hi
    exact h.blank _ (by omega) (by unfold headerLen at hcap; omega)

/-- **Recovery returns exactly the log a disk carries**, and resumes at its end. -/
theorem Carries.scan_eq {ps : List Bytes} {e : Nat} (h : Carries d ps e) : scan d 0 = ⟨ps, e, none⟩ :=
  scan_of_chain probe_bounded h.chain h.probe_end

theorem Carries.snoc {ps : List Bytes} {e : Nat} (h : Carries d ps e)
    (hcap : e + (buildFrame payload).length ≤ walCapacityBytes) :
    Carries (d.writeAt e (buildFrame payload)) (ps ++ [payload]) (e + (buildFrame payload).length) := by
  have hchain := chain_snoc h.chain hcap
  rw [Nat.zero_add] at hchain
  refine ⟨hchain, ?_⟩
  intro i hi hlt
  rw [FileDisk.writeAt_bytes, patch_of_not_mem (Or.inr hi)]
  exact h.blank i (by omega) hlt

/-- A write past the region leaves the log as it was. -/
theorem Carries.writeAt {ps : List Bytes} {e off : Nat} {buf : Bytes} (h : Carries d ps e)
    (hoff : walCapacityBytes ≤ off) : Carries (d.writeAt off buf) ps e := by
  have hend : e ≤ walCapacityBytes := h.chain.end_le probe_bounded (Nat.zero_le _)
  refine ⟨chain_writeAt h.chain (by omega), ?_⟩
  intro i hi hlt
  rw [FileDisk.writeAt_bytes, patch_of_not_mem (by omega)]
  exact h.blank i hi hlt

/-- Disks that agree below the capacity, and reach it, give the same scan. -/
theorem scan_congr (hlen : walCapacityBytes ≤ d.len) (hlen' : walCapacityBytes ≤ d'.len)
    (hb : ∀ i, i < walCapacityBytes → d.bytes i = d'.bytes i) : scan d 0 = scan d' 0 := by
  have hprobe : probe d 0 = probe d' 0 := by
    funext c
    refine Framing.probe_congr ?_ c
    intro off n hn
    exact FileDisk.readAt_congr hlen hlen' hb (by omega)
  unfold scan
  rw [hprobe]

end Tartine.Wal
