import Tartine.Core.Crc32c
import Tartine.Core.SegmentRecovery
import Tartine.Meta.Wal

/-!
# `Meta.LogScan` — the two recovery scans on arbitrary and on damaged disks

`segment::scan` and `wal::scan` read different frames in the same way, so what is said of one is said of the other: both
are instances of `Basis.FrameStore`.

* `Wal.coding` — the writer's side of the log framing;
* `scans_sound` — on any disk both loops end without overflow, and what they return is what lies there;
* `scan_of_payload_burst` — a change within four bytes of one payload is always noticed, at that entry.
-/

namespace Tartine

open Basis

/-! ## The log framing, written -/

namespace Wal

variable {d : FileDisk} {base : Nat} {p : Bytes} {ps : List Bytes}

/-- The bytes of the first `j` frames of a log. -/
def frameStart (ps : List Bytes) (j : Nat) : Nat := ((ps.take j).map (fun p => (buildFrame p).length)).sum

/-- A length field has four bytes. -/
theorem header_len_lt {h : Bytes} {key : UInt32} {len : Nat} (hhead : framing.header h = some (key, len)) :
    len < 2 ^ 32 := by
  change (if h.take 4 ≠ leBytes 4 walMagic.toNat then none else some (_, leNat ((h.drop 4).take 4))) = _ at hhead
  split at hhead
  · cases hhead
  · obtain ⟨-, rfl⟩ := Prod.mk.inj (Option.some.inj hhead)
    exact leNat_take_four_lt _

/-- A header the reader takes apart is put together again. -/
theorem frameHeader_of_header {h : Bytes} (hlen : h.length = headerLen) (hmagic : h.take 4 = leBytes 4 walMagic.toNat)
    (hpay : p.length = leNat ((h.drop 4).take 4))
    (hsum : Crc32c.checksum p = UInt32.ofNat (leNat ((h.drop 8).take 4))) : frameHeader p = h := by
  have hlen : h.length = 12 := hlen
  have hlast : (h.drop 8).take 4 = h.drop 8 := List.take_of_length_le (by rw [List.length_drop, hlen])
  unfold frameHeader
  rw [hpay, hsum, ← hmagic, leBytes_field_u32 (by omega), leBytes_field_u32 (by omega), hlast, field_append h 4 4,
    List.take_append_drop]

/-- The writer's side of the framing. -/
def coding : framing.Coding where
  key := Crc32c.checksum
  head := frameHeader
  body p := p
  limit := 2 ^ 32
  header_pos := by show 0 < headerLen; decide
  length_head := length_frameHeader
  header_head p hlen := by rw [header_frameHeader, Nat.mod_eq_of_lt hlen]
  of_accept := by
    intro h p key q hlen hhead hacc
    have hlt := header_len_lt hhead
    change (if h.take 4 ≠ leBytes 4 walMagic.toNat then none else some (_, leNat ((h.drop 4).take 4))) = _ at hhead
    change (if Crc32c.checksum p ≠ key then none else some p) = some q at hacc
    split at hhead
    · cases hhead
    · rename_i hmagic
      split at hacc
      · cases hacc
      · rename_i hsum
        obtain rfl := Option.some.inj hacc
        obtain ⟨rfl, hp⟩ := Prod.mk.inj (Option.some.inj hhead)
        exact ⟨frameHeader_of_header hlen (not_not.mp hmagic) hp.symm (not_not.mp hsum), rfl, not_not.mp hsum, hlt⟩

theorem valid_of_length (h : p.length < 2 ^ 32) : coding.Valid p := ⟨if_neg (not_not.mpr rfl), h⟩

theorem start_eq (ps : List Bytes) (j : Nat) : coding.start ps j = frameStart ps j := List.length_flatMap

/-- The reader looks at the bytes from `base` on. -/
theorem probe_eq_storage (d : FileDisk) (base : Nat) : probe d base =
    framing.probe (storage (fun i => d.bytes (base + i)) (d.len - base)) walCapacityBytes := by
  unfold probe
  rw [FileDisk.readAt_eq_storage]

/-- A log whose first frame ends it is empty. -/
theorem scan_of_stop (h : probe d base 0 = .stop) : scan d base = ⟨[], 0, none⟩ := scan_of_chain probe_bounded .nil h

/-- `wal::scan` as it runs: `u64` offsets, and no bound on its turns but `fuel`. -/
def scanLoop (d : FileDisk) (base : UInt64) (fuel : Nat) : Option (Res IoError (ScanResult Bytes)) :=
  framing.loop (fun off n => d.readAt off.toNat n) base (UInt64.ofNat walCapacityBytes) fuel 0 []

/-- The stored checksum of a frame is its payload's. -/
theorem checksum_field {off : Nat} (hold : Holds d.bytes off (frame p)) :
    leNat (slice d.bytes (off + 8) 4) = (Crc32c.checksum p).toNat := by
  obtain ⟨hheader, -⟩ := holds_append.mp hold
  obtain ⟨-, hrest⟩ := holds_append.mp hheader
  obtain ⟨-, hsum⟩ := holds_append.mp hrest
  unfold Holds at hsum
  simp only [length_leBytes, Nat.add_assoc, Nat.reduceAdd] at hsum
  rw [hsum, leNat_leBytes_of_lt (UInt32.toNat_lt _)]

end Wal

/-- `segment::scan` as it runs. -/
def Segment.scanLoop (d : FileDisk) (base : UInt64) (fuel : Nat) : Option (Res IoError (ScanResult Segment.Record)) :=
  Segment.framing.loop (fun off n => d.readAt off.toNat n) base (UInt64.ofNat Segment.segmentSizeBytes) fuel 0 []

/-! ## Any disk -/

/-- A loop over a region of a disk ends as the scan of it does. -/
theorem loop_disk {κ α : Type} {F : Framing κ α} (d : FileDisk) (base : UInt64) {cap : Nat}
    (hbase : base.toNat + cap < 2 ^ 64) (hcap : cap + F.headerLen + 2 ^ 32 < 2 ^ 64) (hpos : 0 < F.headerLen)
    (hlen : ∀ h k len, F.header h = some (k, len) → len < 2 ^ 32) {fuel : Nat} (hfuel : cap < fuel) :
    F.loop (fun off n => d.readAt off.toNat n) base (UInt64.ofNat cap) fuel 0 [] =
      some (.ok (scan (F.probe (fun off n => d.readAt (base.toNat + off) n) cap) cap) : Res IoError (ScanResult α)) := by
  have hval : (UInt64.ofNat cap).toNat = cap := UInt64.toNat_ofNat_of_lt' (by show cap < 2 ^ 64; omega)
  have hloop := @Framing.loop_eq κ α IoError F (fun off n => d.readAt off.toNat n) base (UInt64.ofNat cap)
    (fun off n => d.readAt (base.toNat + off) n) (fun x y hxy n => by rw [hxy]) (by rw [hval]; exact hbase)
    (by rw [hval]; exact hcap) hlen hpos fuel (cap + 1) 0 [] (Nat.zero_le _) (by rw [hval]; exact Nat.lt_add_left _ hfuel)
    (by rw [hval]; exact Nat.lt_add_left _ (Nat.lt_succ_self _))
  rw [hval] at hloop
  exact hloop

/-- What a scan of a region of a disk returns is what lies there. -/
theorem scan_disk_sound {κ α : Type} {F : Framing κ α} (C : F.Coding) (d : FileDisk) (base cap : Nat) :
    let r := scan (F.probe (fun off n => d.readAt (base + off) n) cap) cap
    r.resumeAt ≤ cap ∧ (r.resumeAt = 0 ∨ base + r.resumeAt ≤ d.len) ∧
      r.entries.flatMap C.encode = slice d.bytes base r.resumeAt ∧ ∀ a ∈ r.entries, C.Valid a := by
  rw [FileDisk.readAt_eq_storage]
  intro r
  obtain ⟨hcap, hlen, hbytes, hvalid⟩ :
      r.resumeAt ≤ cap ∧ (r.resumeAt = 0 ∨ r.resumeAt ≤ d.len - base) ∧
        r.entries.flatMap C.encode = slice (fun i => d.bytes (base + i)) 0 r.resumeAt ∧ ∀ a ∈ r.entries, C.Valid a :=
    C.scan_sound
  refine ⟨hcap, by omega, ?_, hvalid⟩
  rw [hbytes, slice_shift, Nat.add_zero]

/-- **The recovery scans are sound on arbitrary disks.** Whatever a disk holds, and wherever the region starts below
    `2^64`: both loops end without a panic and return Ok; where to resume lies within the region; the bytes up to there are
    exactly the encodings of the entries returned; and every entry has the checksum of its payload, which for the log is
    the one stored in its frame. -/
theorem scans_sound (d : FileDisk) (base : UInt64) :
    (base.toNat + Segment.segmentSizeBytes < 2 ^ 64 → ∃ r,
      (∀ fuel, Segment.segmentSizeBytes < fuel → Segment.scanLoop d base fuel = some (.ok r)) ∧
      r.resumeAt ≤ Segment.segmentSizeBytes ∧ (r.resumeAt = 0 ∨ base.toNat + r.resumeAt ≤ d.len) ∧
      r.entries.flatMap Segment.encode = slice d.bytes base.toNat r.resumeAt ∧
      ∀ e ∈ r.entries, Crc32c.checksum e.payload = e.checksum) ∧
    (base.toNat + Wal.walCapacityBytes < 2 ^ 64 → ∃ r,
      (∀ fuel, Wal.walCapacityBytes < fuel → Wal.scanLoop d base fuel = some (.ok r)) ∧
      r.resumeAt ≤ Wal.walCapacityBytes ∧ (r.resumeAt = 0 ∨ base.toNat + r.resumeAt ≤ d.len) ∧
      r.entries.flatMap Wal.frame = slice d.bytes base.toNat r.resumeAt ∧
      ∀ (j : Nat) (p : Bytes), r.entries[j]? = some p →
        leNat (slice d.bytes (base.toNat + Wal.frameStart r.entries j + 8) 4) = (Crc32c.checksum p).toNat) := by
  constructor
  · intro hbase
    obtain ⟨hcap, hlen, hbytes, hvalid⟩ := scan_disk_sound Segment.coding d base.toNat Segment.segmentSizeBytes
    refine ⟨Segment.scan d base.toNat, fun fuel hfuel => ?_, hcap, hlen, hbytes, fun e he => ?_⟩
    · exact loop_disk d base hbase (by decide) (by decide) (fun _ _ _ => Segment.header_len_lt) hfuel
    · exact (Segment.Record.built_iff.mp (Segment.valid_iff.mp (hvalid e he)).1).symm
  · intro hbase
    obtain ⟨hcap, hlen, hbytes, -⟩ := scan_disk_sound Wal.coding d base.toNat Wal.walCapacityBytes
    refine ⟨Wal.scan d base.toNat, fun fuel hfuel => ?_, hcap, hlen, hbytes, fun j p hj => ?_⟩
    · exact loop_disk d base hbase (by decide) (by decide) (fun _ _ _ => Wal.header_len_lt) hfuel
    · -- the frames lie at their starts, as the bytes are theirs
      have hold : Holds (fun i => d.bytes (base.toNat + i)) 0 ((Wal.scan d base.toNat).entries.flatMap Wal.coding.encode) := by
        have hbytes : (Wal.scan d base.toNat).entries.flatMap Wal.coding.encode =
          slice d.bytes base.toNat (Wal.scan d base.toNat).resumeAt := hbytes
        have hend := congrArg List.length hbytes
        rw [length_slice] at hend
        unfold Holds
        rw [slice_shift, Nat.add_zero, hend]
        exact hbytes.symm
      have hframe := Framing.Coding.holds_start hold hj
      rw [Wal.start_eq] at hframe
      unfold Holds at hframe
      rw [slice_shift] at hframe
      exact Wal.checksum_field hframe

/-- A disk with a log of two frames and a segment of two records. -/
def writtenDisk : FileDisk :=
  ((FileDisk.create 8192).writeAt 4096
    ([Segment.Record.new 1 0 [1, 2, 3], Segment.Record.new 2 1 []].flatMap Segment.encode)).writeAt 0
      ([[7, 7], [9]].flatMap Wal.frame)

/-- The theorem at that disk: what its scans return is what was written. -/
theorem scans_sound_writtenDisk :
    (∃ r, (∀ fuel, Segment.segmentSizeBytes < fuel → Segment.scanLoop writtenDisk 4096 fuel = some (.ok r)) ∧
      r.entries = [Segment.Record.new 1 0 [1, 2, 3], Segment.Record.new 2 1 []] ∧ r.resumeAt = 59 ∧
      r.entries.flatMap Segment.encode = slice writtenDisk.bytes 4096 59) ∧
    ∃ r, (∀ fuel, Wal.walCapacityBytes < fuel → Wal.scanLoop writtenDisk 0 fuel = some (.ok r)) ∧
      r.entries = [[7, 7], [9]] ∧ r.resumeAt = 27 ∧ r.entries.flatMap Wal.frame = slice writtenDisk.bytes 0 27 := by
  constructor
  · obtain ⟨r, hloop, -, -, hbytes, -⟩ := (scans_sound writtenDisk 4096).1 (by decide)
    have hrun : Segment.scanLoop writtenDisk 4096 (Segment.segmentSizeBytes + 1) =
        some (.ok ⟨[Segment.Record.new 1 0 [1, 2, 3], Segment.Record.new 2 1 []], 59, none⟩) := by decide +kernel
    obtain rfl := Res.ok.inj (Option.some.inj (hrun.symm.trans (hloop _ (Nat.lt_succ_self _))))
    exact ⟨_, hloop, rfl, rfl, hbytes⟩
  · obtain ⟨r, hloop, -, -, hbytes, -⟩ := (scans_sound writtenDisk 0).2 (by decide)
    have hrun : Wal.scanLoop writtenDisk 0 (Wal.walCapacityBytes + 1) = some (.ok ⟨[[7, 7], [9]], 27, none⟩) := by
      decide +kernel
    obtain rfl := Res.ok.inj (Option.some.inj (hrun.symm.trans (hloop _ (Nat.lt_succ_self _))))
    exact ⟨_, hloop, rfl, rfl, hbytes⟩

/-! ## Damaged payloads -/

/-- A change of at least one bit, confined to at most four consecutive bytes of the `n` bytes at `lo`. -/
structure BurstIn (d d' : FileDisk) (lo n : Nat) : Prop where
  len_eq : d'.len = d.len
  changed : ∃ i, d'.bytes i ≠ d.bytes i
  within : ∃ k, ∀ i, d'.bytes i ≠ d.bytes i → lo ≤ i ∧ i < lo + n ∧ k ≤ i ∧ i < k + 4

/-- The payload no longer has its checksum. -/
theorem BurstIn.checksum_ne {d d' : FileDisk} {lo : Nat} {p : Bytes} (h : BurstIn d d' lo p.length)
    (hold : Holds d.bytes lo p) : Crc32c.checksum (slice d'.bytes lo p.length) ≠ Crc32c.checksum p := by
  obtain ⟨k, hwithin⟩ := h.within
  have hne := Crc32c.checksum_slice_ne hwithin h.changed
  unfold Holds at hold
  rwa [hold] at hne

/-- **A payload that fails its check is where the scan of a region stops.** -/
theorem scan_disk_of_burst {κ α : Type} {F : Framing κ α} (C : F.Coding) {d d' : FileDisk} {base cap j : Nat} {as : List α}
    {a : α} (hvalid : ∀ b ∈ as.take (j + 1), C.Valid b) (hat : as[j]? = some a)
    (hold : Holds d.bytes base ((as.take (j + 1)).flatMap C.encode)) (hcap : C.start as (j + 1) ≤ cap)
    (hlen : base + C.start as (j + 1) ≤ d.len)
    (hburst : BurstIn d d' (base + C.start as j + F.headerLen) (C.body a).length)
    (hrejects : ∀ p, Crc32c.checksum p ≠ Crc32c.checksum (C.body a) → F.accept (C.key a) p = none) :
    scan (F.probe (fun off n => d'.readAt (base + off) n) cap) cap = ⟨as.take j, C.start as j, some (C.start as j)⟩ := by
  rw [FileDisk.readAt_eq_storage, hburst.len_eq]
  have hsucc := Framing.Coding.start_succ (C := C) hat
  rw [Framing.Coding.length_encode] at hsucc
  have hbody : Holds d.bytes (base + C.start as j + F.headerLen) (C.body a) := by
    have hsplit : as.take (j + 1) = as.take j ++ [a] := by
      rw [List.take_add_one, hat]
      rfl
    rw [hsplit, List.flatMap_append, List.flatMap_singleton] at hold
    obtain ⟨-, hentry⟩ := holds_append.mp hold
    obtain ⟨-, hbody⟩ := holds_append.mp hentry
    rwa [C.length_head] at hbody
  refine Framing.Coding.scan_of_damage (C := C) (g := fun i => d.bytes (base + i)) hvalid hat ?_ hcap (by omega) ?_ ?_
  · unfold Holds
    rw [slice_shift, Nat.add_zero]
    exact hold
  · intro i hdiff
    obtain ⟨k, hwithin⟩ := hburst.within
    have := hwithin (base + i) hdiff
    omega
  · rw [slice_shift, ← Nat.add_assoc]
    exact hrejects _ (hburst.checksum_ne hbody)

/-- A log written frame after frame from `off` on. -/
def Wal.appendFrames (d : FileDisk) (off : Nat) : List Bytes → FileDisk
  | []      => d
  | p :: ps => appendFrames (d.writeAt off (Wal.buildFrame p)) (off + (Wal.buildFrame p).length) ps

theorem Wal.appendFrames_eq (d : FileDisk) (off : Nat) (ps : List Bytes) :
    Wal.appendFrames d off ps = d.writeAt off (ps.flatMap Wal.buildFrame) := by
  induction ps generalizing d off with
  | nil => exact FileDisk.writeAt_nil.symm
  | cons p ps ih => rw [Wal.appendFrames, ih, FileDisk.writeAt_append, List.flatMap_cons]

/-- **A written log with a damaged payload is recovered up to it.** -/
theorem scan_written_of_burst {κ α : Type} {F : Framing κ α} (C : F.Coding) {d d' : FileDisk} {base cap j : Nat}
    {as : List α} {a : α} (hvalid : ∀ b ∈ as.take (j + 1), C.Valid b) (hat : as[j]? = some a)
    (hcap : C.start as (j + 1) ≤ cap)
    (hburst : BurstIn (d.writeAt base (as.flatMap C.encode)) d' (base + C.start as j + F.headerLen) (C.body a).length)
    (hrejects : ∀ p, Crc32c.checksum p ≠ Crc32c.checksum (C.body a) → F.accept (C.key a) p = none) :
    scan (F.probe (fun off n => d'.readAt (base + off) n) cap) cap = ⟨as.take j, C.start as j, some (C.start as j)⟩ := by
  have hall : as.flatMap C.encode = (as.take (j + 1)).flatMap C.encode ++ (as.drop (j + 1)).flatMap C.encode := by
    rw [← List.flatMap_append, List.take_append_drop]
  have hlen : C.start as (j + 1) ≤ (as.flatMap C.encode).length := by
    rw [hall, List.length_append]
    exact Nat.le_add_right _ _
  have hpos : 0 < C.start as (j + 1) := by
    rw [Framing.Coding.start_succ hat, Framing.Coding.length_encode]
    have := C.header_pos
    omega
  refine scan_disk_of_burst C hvalid hat ?_ hcap ?_ hburst hrejects
  · have hold := holds_patch_self d.bytes base (as.flatMap C.encode)
    nth_rewrite 2 [hall] at hold
    exact (holds_append.mp hold).1
  · rcases FileDisk.writeAt_end_le d base (as.flatMap C.encode) with hnil | hend
    · rw [hnil, List.length_nil] at hlen
      omega
    · omega

/-- **Short-burst corruption of a payload is always caught.** Whatever records a `SegmentWriter` has appended, and whatever
    payloads were framed into a log, one after another at any base offset: after a change confined to four consecutive
    bytes of the payload of entry `j`, the scan returns exactly the entries before `j`, resumes at the start of `j` and
    reports the corruption there. A log's entry has to end within the log's region, which is all the scan looks at. -/
theorem scan_of_payload_burst :
    (∀ (env : Env) (w w' : World) (disk : DiskRef) (base : Nat) (s' : Segment.SegmentWriter) (rs : List Segment.Record)
      (d' : FileDisk) (j : Nat) (r : Segment.Record), (∀ r ∈ rs, r.Built) →
      (Segment.SegmentWriter.new disk base).appendAll env w rs = (.ok (), w', s') → rs[j]? = some r →
      BurstIn (w'.disk disk) d' (base + Segment.recordEnd rs j + Segment.headerLen) r.payload.length →
      Segment.scan d' base = ⟨rs.take j, Segment.recordEnd rs j, some (Segment.recordEnd rs j)⟩) ∧
    (∀ (d : FileDisk) (base : Nat) (ps : List Bytes) (d' : FileDisk) (j : Nat) (p : Bytes), ps[j]? = some p →
      Wal.frameStart ps (j + 1) ≤ Wal.walCapacityBytes →
      BurstIn (Wal.appendFrames d base ps) d' (base + Wal.frameStart ps j + Wal.headerLen) p.length →
      Wal.scan d' base = ⟨ps.take j, Wal.frameStart ps j, some (Wal.frameStart ps j)⟩) := by
  constructor
  · intro env w w' disk base s' rs d' j r hnew hrun hat hburst
    obtain ⟨hfit, hdisk⟩ := Segment.appendAll_eq_ok hrun
    have hdisk : w'.disk disk = (w.disk disk).writeAt base (rs.flatMap Segment.encode) := hdisk
    have hfit : (rs.flatMap Segment.encode).length ≤ Segment.segmentSizeBytes := by
      rcases hfit with rfl | hfit
      · simp
      · exact Nat.le_trans (Nat.le_add_left _ _) hfit
    have hvalid := Segment.valid_of_fit hnew hfit
    rw [hdisk] at hburst
    obtain ⟨hj, -⟩ := List.getElem?_eq_some_iff.mp hat
    refine scan_written_of_burst Segment.coding (fun b hb => hvalid b (List.mem_of_mem_take hb)) hat ?_ hburst ?_
    · rw [Segment.length_flatMap_encode] at hfit
      exact Nat.le_trans (Framing.Coding.start_mono (C := Segment.coding) hj) hfit
    · intro p hp
      refine if_pos (fun hsum => hp ?_)
      rw [hsum]
      exact Segment.Record.built_iff.mp (hnew r (List.mem_of_getElem? hat))
  · intro d base ps d' j p hat hcap hburst
    rw [Wal.appendFrames_eq] at hburst
    simp only [← Wal.start_eq] at hcap hburst ⊢
    refine scan_written_of_burst Wal.coding (fun q hq => Wal.valid_of_length ?_) hat hcap hburst (fun q hq => if_pos hq)
    -- a frame that lies in the region has a length that fits its field
    have hle : (Wal.coding.encode q).length ≤ Wal.coding.start ps (j + 1) :=
      (List.sublist_flatten_of_mem (List.mem_map_of_mem hq)).length_le
    have hcap' := Wal.walCapacityBytes_lt
    rw [Framing.Coding.length_encode] at hle
    have : (Wal.coding.body q).length = q.length := rfl
    omega

/-- One byte written over another inside a range. -/
theorem burstIn_writeAt {d : FileDisk} {off lo n : Nat} {b : UInt8} (hne : d.bytes off ≠ b) (hlow : lo ≤ off)
    (hhigh : off < lo + n) (hlen : off < d.len) : BurstIn d (d.writeAt off [b]) lo n := by
  have hat : (d.writeAt off [b]).bytes off = b := by
    rw [FileDisk.writeAt_bytes, patch, if_pos (by simp)]
    simp
  refine ⟨?_, ⟨off, by rw [hat]; exact hne.symm⟩, off, fun i hdiff => ?_⟩
  · show (if ([b] : Bytes) = [] then d.len else max d.len (off + 1)) = d.len
    rw [if_neg (by simp)]
    omega
  · have hi : i = off := by
      by_contra hother
      refine hdiff (patch_of_not_mem ?_)
      rw [List.length_singleton]
      omega
    omega

/-- Three records, written to a segment. -/
def threeRecords : List Segment.Record :=
  [Segment.Record.new 1 0 [1, 2, 3], Segment.Record.new 2 1 [4, 5, 6, 7], Segment.Record.new 1 1 [8]]

def threeRecordsRun : Except IoError Unit × World × Segment.SegmentWriter :=
  (Segment.SegmentWriter.new 0 4096).appendAll (Env.healthy Segment.storedOrder) (World.blank 8192) threeRecords

/-- The theorem at the third byte of the second of three payloads, in a segment and in a log. -/
theorem scan_of_payload_burst_second :
    Segment.scan ((threeRecordsRun.2.1.disk 0).writeAt 4157 [9]) 4096 = ⟨threeRecords.take 1, 31, some 31⟩ ∧
    Wal.scan ((Wal.appendFrames (FileDisk.create 0) 64 [[1, 2, 3], [4, 5, 6, 7], [8]]).writeAt 93 [9]) 64 =
      ⟨[[1, 2, 3]], 15, some 15⟩ := by
  constructor
  · have hnew : ∀ r ∈ threeRecords, r.Built := by simp [Segment.Record.Built, Segment.Record.new, threeRecords]
    refine scan_of_payload_burst.1 (Env.healthy Segment.storedOrder) (World.blank 8192) threeRecordsRun.2.1 0 4096
      threeRecordsRun.2.2 threeRecords _ 1 (Segment.Record.new 2 1 [4, 5, 6, 7]) hnew rfl rfl ?_
    refine burstIn_writeAt ?_ (by decide +kernel) (by decide +kernel) ?_
    · decide +kernel
    · decide +kernel
  · refine scan_of_payload_burst.2 (FileDisk.create 0) 64 [[1, 2, 3], [4, 5, 6, 7], [8]] _ 1 [4, 5, 6, 7] rfl
      (by decide +kernel) ?_
    refine burstIn_writeAt ?_ (by decide +kernel) (by decide +kernel) ?_
    · decide +kernel
    · decide +kernel

/-- A frame that reaches past the region hides a change of its first payload byte. -/
theorem scan_of_large_frame {p : Bytes} (hcap : Wal.walCapacityBytes ≤ p.length) (hlen : p.length < 2 ^ 32)
    (hfirst : p[0]? = some 0) :
    BurstIn (Wal.appendFrames (FileDisk.create 0) 0 [p]) ((Wal.appendFrames (FileDisk.create 0) 0 [p]).writeAt 12 [1])
      (0 + Wal.frameStart [p] 0 + Wal.headerLen) p.length ∧
    Wal.scan ((Wal.appendFrames (FileDisk.create 0) 0 [p]).writeAt 12 [1]) 0 = ⟨[], 0, none⟩ := by
  have hpos : 0 < Wal.walCapacityBytes := by decide
  have hd : Wal.appendFrames (FileDisk.create 0) 0 [p] = (FileDisk.create 0).writeAt 0 (Wal.buildFrame p) := rfl
  have hend := (FileDisk.writeAt_end_le (FileDisk.create 0) 0 (Wal.buildFrame p)).resolve_left
    (List.ne_nil_of_length_pos (by rw [Wal.length_buildFrame]; omega))
  rw [Wal.length_buildFrame, Nat.zero_add] at hend
  obtain ⟨hheader, hbody⟩ := holds_append.mp (holds_patch_self (FileDisk.create 0).bytes 0 (Wal.buildFrame p))
  rw [Wal.length_frameHeader, Nat.zero_add] at hbody
  rw [hd]
  constructor
  · refine burstIn_writeAt ?_ (Nat.le_refl 12) (Nat.lt_add_of_pos_right (by omega)) ?_
    · have hbyte := congrArg (fun l => l[0]?) (show slice _ Wal.headerLen p.length = p from hbody)
      rw [getElem?_slice (by omega), hfirst] at hbyte
      rw [show ((FileDisk.create 0).writeAt 0 (Wal.buildFrame p)).bytes 12 = 0 from Option.some.inj hbyte]
      decide
    · exact Nat.lt_of_lt_of_le (Nat.lt_add_of_pos_right (by omega)) hend
  · have hkept : Holds (((FileDisk.create 0).writeAt 0 (Wal.buildFrame p)).writeAt 12 [1]).bytes (0 + 0)
        (Wal.frameHeader p) :=
      hheader.patch_disjoint (Or.inl (by rw [Wal.length_frameHeader]; decide))
    refine Wal.scan_of_stop (Wal.probe_of_cut_frame hkept hlen ?_)
    have hheader : 0 < Wal.headerLen := by decide
    rw [Wal.length_buildFrame]
    omega

/-- A payload as large as the log's region. -/
def largePayload : Bytes := List.replicate Wal.walCapacityBytes 0

/-- **A log that runs past its region hides its damage**: the scan stops before the frame and reports nothing. -/
theorem large_frame_hides_burst :
    BurstIn (Wal.appendFrames (FileDisk.create 0) 0 [largePayload])
      ((Wal.appendFrames (FileDisk.create 0) 0 [largePayload]).writeAt 12 [1])
      (0 + Wal.frameStart [largePayload] 0 + Wal.headerLen) largePayload.length ∧
    Wal.scan ((Wal.appendFrames (FileDisk.create 0) 0 [largePayload]).writeAt 12 [1]) 0 = ⟨[], 0, none⟩ ∧
    ¬(Wal.scan ((Wal.appendFrames (FileDisk.create 0) 0 [largePayload]).writeAt 12 [1]) 0).corruptionAt =
      some (Wal.frameStart [largePayload] 0) := by
  have hlen : largePayload.length = Wal.walCapacityBytes := List.length_replicate
  have hcap := Wal.walCapacityBytes_lt
  have hfirst : largePayload[0]? = some 0 := by
    rw [largePayload, List.getElem?_replicate, if_pos (by decide)]
  obtain ⟨hburst, hscan⟩ := scan_of_large_frame (Nat.le_of_eq hlen.symm) (by omega) hfirst
  refine ⟨hburst, hscan, ?_⟩
  rw [hscan]
  intro h
  cases h

end Tartine
