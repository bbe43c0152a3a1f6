import Tartine.Basis.FrameStore
import Tartine.Core.Segment

/-!
# `Core.SegmentRecovery` — what a scan makes of a segment that was cut

A segment that a `SegmentWriter` filled, cut anywhere, and what `segment::scan` and a writer resumed behind it make of it.

* `coding` — the writer's side of the record framing;
* `appendAll_healthy` — appending records is writing their bytes in a row;
* `scan_of_written` — the scan returns exactly the whole records, wherever the file was cut;
* `resume_clean_iff` — when a writer that resumes behind a torn record leaves a segment that scans as written.
-/

namespace Tartine

open Basis

/-! ## Files as storage -/

namespace FileDisk

variable {d : FileDisk} {off : Nat}

/-- A file, seen from an offset on. -/
theorem readAt_eq_storage (d : FileDisk) (base : Nat) :
    (fun off n => d.readAt (base + off) n) = storage (fun i => d.bytes (base + i)) (d.len - base) := by
  funext off n
  unfold readAt storage
  rw [slice_shift]
  refine if_congr ?_ rfl rfl
  omega

/-- Two writes, the second where the first ends, are one. -/
theorem writeAt_append (d : FileDisk) (off : Nat) (as bs : Bytes) :
    (d.writeAt off as).writeAt (off + as.length) bs = d.writeAt off (as ++ bs) := by
  refine FileDisk.ext ?_ ?_
  · simp only [writeAt_bytes, patch_append]
  · show (if bs = [] then (if as = [] then d.len else max d.len (off + as.length))
      else max (if as = [] then d.len else max d.len (off + as.length)) (off + as.length + bs.length)) =
      if as ++ bs = [] then d.len else max d.len (off + (as ++ bs).length)
    by_cases hbs : bs = []
    · simp [hbs]
    · by_cases has : as = []
      · simp [has, hbs]
      · simp only [if_neg hbs, if_neg has, List.append_eq_nil_iff, List.length_append]
        rw [if_neg (by simp [has]), Nat.add_assoc]
        omega

end FileDisk

namespace Segment

variable {d : FileDisk} {base k : Nat} {r : Record} {rs : List Record}

/-! ## The record framing, written -/

/-- `r` was built by `Record::new`. -/
def Record.Built (r : Record) : Prop := ∃ inode chunkSeq payload, r = Record.new inode chunkSeq payload

theorem Record.built_iff : r.Built ↔ r.checksum = Crc32c.checksum r.payload := by
  constructor
  · rintro ⟨inode, chunkSeq, payload, rfl⟩
    rfl
  · intro h
    refine ⟨r.inode, r.chunkSeq, r.payload, ?_⟩
    unfold Record.new
    rw [← h]

/-- A length field has four bytes. -/
theorem header_len_lt {h : Bytes} {key : UInt64 × UInt64 × UInt32} {len : Nat}
    (hhead : framing.header h = some (key, len)) : len < 2 ^ 32 := by
  change (if h.take 4 ≠ leBytes 4 recordMagic.toNat then none else some (_, leNat ((h.drop 24).take 4))) = _ at hhead
  split at hhead
  · cases hhead
  · obtain ⟨-, rfl⟩ := Prod.mk.inj (Option.some.inj hhead)
    exact leNat_take_four_lt _

/-- A header the reader takes apart is put together again. -/
theorem encodeHeader_of_header {h : Bytes} (hlen : h.length = headerLen) (hmagic : h.take 4 = leBytes 4 recordMagic.toNat)
    (hpay : r.payload.length = leNat ((h.drop 24).take 4))
    (hinode : r.inode = UInt64.ofNat (leNat ((h.drop 4).take 8)))
    (hseq : r.chunkSeq = UInt64.ofNat (leNat ((h.drop 12).take 8)))
    (hsum : r.checksum = UInt32.ofNat (leNat ((h.drop 20).take 4))) : encodeHeader r = h := by
  have hlen : h.length = 28 := hlen
  have hlast : (h.drop 24).take 4 = h.drop 24 := List.take_of_length_le (by rw [List.length_drop, hlen])
  unfold encodeHeader
  rw [hinode, hseq, hsum, hpay, ← hmagic, leBytes_field_u64 (by omega), leBytes_field_u64 (by omega),
    leBytes_field_u32 (by omega), leBytes_field_u32 (by omega), hlast, field_append h 20 4, field_append h 12 8,
    field_append h 4 8, List.take_append_drop]

/-- The writer's side of the framing. -/
def coding : framing.Coding where
  key r := (r.inode, r.chunkSeq, r.checksum)
  head := encodeHeader
  body r := r.payload
  limit := 2 ^ 32
  header_pos := by show 0 < headerLen; decide
  length_head := length_encodeHeader
  header_head _ hlen := header_encodeHeader hlen
  of_accept := by
    intro h p key r hlen hhead hacc
    have hlt := header_len_lt hhead
    change (if h.take 4 ≠ leBytes 4 recordMagic.toNat then none else some (_, leNat ((h.drop 24).take 4))) = _ at hhead
    change (if Crc32c.checksum p ≠ key.2.2 then none else some (⟨key.1, key.2.1, key.2.2, p⟩ : Record)) = _ at hacc
    split at hhead
    · cases hhead
    · rename_i hmagic
      split at hacc
      · cases hacc
      · obtain rfl := Option.some.inj hacc
        obtain ⟨rfl, hp⟩ := Prod.mk.inj (Option.some.inj hhead)
        exact ⟨encodeHeader_of_header hlen (not_not.mp hmagic) hp.symm rfl rfl rfl, rfl, rfl, hlt⟩

/-- What the code writes is a record whose checksum is its payload's. -/
theorem valid_iff : coding.Valid r ↔ r.Built ∧ r.payload.length < 2 ^ 32 := by
  have hacc : framing.accept (coding.key r) r.payload = some r ↔ r.checksum = Crc32c.checksum r.payload := by
    show (if Crc32c.checksum r.payload ≠ r.checksum then none else some (⟨r.inode, r.chunkSeq, r.checksum, r.payload⟩ : Record)) =
      some r ↔ _
    by_cases h : Crc32c.checksum r.payload = r.checksum
    · simp [h]
    · simp [h, Ne.symm h]
  rw [Record.built_iff, ← hacc]
  exact ⟨fun h => ⟨h.accepted, h.short⟩, fun ⟨h, hlen⟩ => ⟨h, hlen⟩⟩

/-- The reader looks at the bytes from `base` on. -/
theorem probe_eq_storage (d : FileDisk) (base : Nat) : probe d base =
    framing.probe (storage (fun i => d.bytes (base + i)) (d.len - base)) segmentSizeBytes := by
  unfold probe
  rw [FileDisk.readAt_eq_storage]

/-- The reader of a file cut `k` bytes behind `base`. -/
theorem probe_setLen (d : FileDisk) (base k : Nat) : probe (d.setLen (base + k)) base =
    framing.probe (storage (fun i => (d.setLen (base + k)).bytes (base + i)) k) segmentSizeBytes := by
  rw [probe_eq_storage, show (d.setLen (base + k)).len - base = k from Nat.add_sub_cancel_left base k]

/-! ## Appending records -/

/-- `append` for each record in turn, up to the first that fails. -/
def SegmentWriter.appendAll (env : Env) : World → SegmentWriter → List Record → Except IoError Unit × World × SegmentWriter
  | w, s, []      => (.ok (), w, s)
  | w, s, r :: rs =>
      match s.append env w r with
      | (.error e, w, s) => (.error e, w, s)
      | (.ok _, w, s)    => appendAll env w s rs

/-- The bytes of the first `j` records of a list: where record `j` starts, and record `j - 1` ends. -/
def recordEnd (rs : List Record) (j : Nat) : Nat := ((rs.take j).flatMap encode).length

/-- **Appending records that fit is writing their bytes in a row.** -/
theorem appendAll_healthy (ord : IterOrder) (w : World) {s : SegmentWriter}
    (hfit : s.cursor + (rs.flatMap encode).length ≤ segmentSizeBytes) :
    ∃ w', s.appendAll (Env.healthy ord) w rs = (.ok (), w', { s with cursor := s.cursor + (rs.flatMap encode).length }) ∧
      w'.disk s.disk = (w.disk s.disk).writeAt (s.baseOffset + s.cursor) (rs.flatMap encode) := by
  induction rs generalizing w s with
  | nil => exact ⟨w, rfl, FileDisk.writeAt_nil.symm⟩
  | cons r rs ih =>
      rw [List.flatMap_cons, List.length_append] at hfit
      have happend : s.append (Env.healthy ord) w r = (.ok (s.baseOffset + s.cursor),
          { w.setDisk s.disk ((w.disk s.disk).writeAt (s.baseOffset + s.cursor) (encode r)) with clock := w.clock + 1 },
          { s with cursor := s.cursor + (encode r).length }) := by
        unfold SegmentWriter.append SegmentWriter.remaining
        rw [if_neg (by omega)]
        rfl
      obtain ⟨w', hrun, hdisk⟩ := @ih
        { w.setDisk s.disk ((w.disk s.disk).writeAt (s.baseOffset + s.cursor) (encode r)) with clock := w.clock + 1 }
        { s with cursor := s.cursor + (encode r).length } (by dsimp only; omega)
      refine ⟨w', ?_, ?_⟩
      · simp only [SegmentWriter.appendAll, happend]
        rw [hrun, List.flatMap_cons, List.length_append, Nat.add_assoc]
      · rw [hdisk, List.flatMap_cons, ← FileDisk.writeAt_append, Nat.add_assoc]
        exact congrArg (fun d : FileDisk => d.writeAt _ _) World.setDisk_self

/-- A record that does not fit the rest of the segment is refused, and nothing is touched. -/
theorem append_full (env : Env) (w : World) {s : SegmentWriter} (h : s.remaining < (encode r).length) :
    s.append env w r = (.error .segmentFull, w, s) := if_pos h

/-- An append that succeeded found room for its record, and wrote it. -/
theorem append_eq_ok {env : Env} {w w' : World} {s s' : SegmentWriter} {off : Nat}
    (h : s.append env w r = (.ok off, w', s')) :
    s.cursor + (encode r).length ≤ segmentSizeBytes ∧ s' = { s with cursor := s.cursor + (encode r).length } ∧
      w'.disk s.disk = (w.disk s.disk).writeAt (s.baseOffset + s.cursor) (encode r) := by
  have hpos : 0 < (encode r).length := List.length_pos_iff.mpr (encode_ne_nil r)
  by_cases hroom : s.remaining < (encode r).length
  · rw [append_full env w hroom] at h
    cases h
  · unfold SegmentWriter.append at h
    rw [if_neg hroom] at h
    unfold SegmentWriter.remaining at hroom
    cases hio : env.io w.clock with
    | ok =>
        simp only [World.writeAt, hio] at h
        cases h
        exact ⟨by omega, rfl, World.setDisk_self⟩
    | fail left =>
        simp only [World.writeAt, hio] at h
        cases h

/-- Whatever the disk did, records that were all appended fit, and are on it. -/
theorem appendAll_eq_ok {env : Env} {w w' : World} {s s' : SegmentWriter} (h : s.appendAll env w rs = (.ok (), w', s')) :
    (rs = [] ∨ s.cursor + (rs.flatMap encode).length ≤ segmentSizeBytes) ∧
      w'.disk s.disk = (w.disk s.disk).writeAt (s.baseOffset + s.cursor) (rs.flatMap encode) := by
  induction rs generalizing w s with
  | nil =>
      cases h
      exact ⟨Or.inl rfl, FileDisk.writeAt_nil.symm⟩
  | cons r rs ih =>
      unfold SegmentWriter.appendAll at h
      rcases hfirst : s.append env w r with ⟨res, w₁, s₁⟩
      rw [hfirst] at h
      cases res with
      | error e => cases h
      | ok off =>
          obtain ⟨hroom, rfl, hdisk⟩ := append_eq_ok hfirst
          obtain ⟨hfit, hdisk'⟩ := ih h
          dsimp only at hfit hdisk'
          refine ⟨Or.inr ?_, ?_⟩
          · rw [List.flatMap_cons, List.length_append]
            rcases hfit with rfl | hfit
            · simpa using hroom
            · omega
          · rw [hdisk', hdisk, List.flatMap_cons, ← Nat.add_assoc, FileDisk.writeAt_append]

/-- Built records that fit a segment are read back. -/
theorem valid_of_fit (hnew : ∀ r ∈ rs, r.Built) (hfit : (rs.flatMap encode).length ≤ segmentSizeBytes) :
    ∀ r ∈ rs, coding.Valid r := by
  intro r hr
  refine valid_iff.mpr ⟨hnew r hr, ?_⟩
  have hle : (encode r).length ≤ (rs.flatMap encode).length := (List.sublist_flatten_of_mem (List.mem_map_of_mem hr)).length_le
  have hcap : segmentSizeBytes < 2 ^ 32 := by decide
  rw [length_encode] at hle
  omega

/-! ## A segment that was cut -/

/-- **Segment write and recovery are inverse, up to truncation.** Records that fit a segment, appended to a blank file at
    any base offset: wherever the file is cut, the scan returns exactly the records that end at or before the cut, field
    for field, and resumes at the end of the last of them; left whole, it returns them all. An append that does not fit is
    an error that touches neither disk nor cursor. -/
theorem scan_of_written (ord : IterOrder) (w : World) (disk : DiskRef) (base : Nat) (rs : List Record)
    (hnew : ∀ r ∈ rs, r.Built) (hblank : ∀ i, (w.disk disk).bytes i = 0)
    (hfit : recordEnd rs rs.length ≤ segmentSizeBytes) :
    ∃ w' s', (SegmentWriter.new disk base).appendAll (Env.healthy ord) w rs = (.ok (), w', s') ∧
      s'.cursor = recordEnd rs rs.length ∧
      (∀ k, ∃ n ≤ rs.length, (∀ j < rs.length, j < n ↔ recordEnd rs (j + 1) ≤ k) ∧
        scan ((w'.disk disk).setLen (base + k)) base = ⟨rs.take n, recordEnd rs n, none⟩) ∧
      scan (w'.disk disk) base = ⟨rs, recordEnd rs rs.length, none⟩ ∧
      ∀ (env : Env) (w : World) (s : SegmentWriter) (r : Record), s.remaining < (encode r).length →
        s.append env w r = (.error .segmentFull, w, s) := by
  have hall : (rs.flatMap encode).length = recordEnd rs rs.length := by
    unfold recordEnd
    rw [List.take_length]
  rw [← hall] at hfit
  obtain ⟨w', hrun, hdisk⟩ := appendAll_healthy ord w (s := SegmentWriter.new disk base) (show 0 + (rs.flatMap encode).length ≤ _ by omega)
  have hdisk : w'.disk disk = (w.disk disk).writeAt base (rs.flatMap encode) := hdisk
  have hhold : Holds (w'.disk disk).bytes base (rs.flatMap encode) := by
    rw [hdisk]
    exact holds_patch_self _ _ _
  have hzero : ∀ i, base + (rs.flatMap encode).length ≤ i → (w'.disk disk).bytes i = 0 := by
    intro i hi
    rw [hdisk, FileDisk.writeAt_bytes, patch_of_not_mem (Or.inr hi)]
    exact hblank i
  have hhold' : Holds (fun i => (w'.disk disk).bytes (base + i)) 0 (rs.flatMap encode) := by
    unfold Holds
    rw [slice_shift]
    exact hhold
  refine ⟨w', _, hrun, ?_, ?_, ?_, fun env w s r h => append_full env w h⟩
  · show 0 + (rs.flatMap encode).length = _
    rw [Nat.zero_add, hall]
  · intro k
    -- behind the last record the file reads as zeros, cut or not
    have hend : probe ((w'.disk disk).setLen (base + k)) base (recordEnd rs rs.length) = .stop := by
      refine probe_of_zeros (fun i _ => ?_)
      show (if _ then (w'.disk disk).bytes _ else 0) = 0
      split
      · exact hzero _ (by omega)
      · rfl
    unfold scan
    rw [probe_setLen] at hend ⊢
    exact Framing.Coding.scan_of_cut (C := coding) (valid_of_fit hnew hfit) hhold' (fun i hi => if_pos (by omega))
      (Nat.le_trans (Nat.le_of_eq hall.symm) hfit) (fun _ => hend)
  · rw [← hall]
    refine (Carries.scan_eq ⟨?_, hzero⟩)
    rw [probe_eq_storage]
    refine coding.chain_iff.mpr ⟨valid_of_fit hnew hfit, (Nat.zero_add _).symm, Or.inr hfit, ?_, hhold'⟩
    rcases FileDisk.writeAt_end_le (w.disk disk) base (rs.flatMap encode) with hnil | hend
    · left
      exact List.eq_nil_iff_forall_not_mem.mpr (fun r hr => encode_ne_nil r (List.flatMap_eq_nil_iff.mp hnil r hr))
    · right
      rw [← hdisk] at hend
      omega

/-- An iteration order, for concrete runs: a segment depends on none. -/
def storedOrder : IterOrder := ⟨id, List.Perm.refl⟩

/-- The theorem at two records. -/
theorem scan_of_written_two : ∃ w' s', (SegmentWriter.new 0 4096).appendAll (Env.healthy storedOrder) (World.blank 8192)
      [Record.new 7 0 [1, 2, 3], Record.new 7 1 []] = (.ok (), w', s') ∧
    scan (w'.disk 0) 4096 = ⟨[Record.new 7 0 [1, 2, 3], Record.new 7 1 []], 59, none⟩ := by
  obtain ⟨w', s', hrun, -, -, hscan, -⟩ := scan_of_written storedOrder (World.blank 8192) 0 4096
    [Record.new 7 0 [1, 2, 3], Record.new 7 1 []] (by simp [Record.Built, Record.new]) (fun _ => rfl) (by decide)
  exact ⟨w', s', hrun, hscan⟩

/-! ## Resuming behind a torn record -/

/-- What is left of a torn record, of which `torn` bytes are on the disk, behind `covered` bytes of new records. -/
def leftover (last : Record) (torn covered : Nat) : Bytes := ((encode last).take torn).drop covered

theorem length_flatMap_encode (rs : List Record) : (rs.flatMap encode).length = recordEnd rs rs.length := by
  unfold recordEnd
  rw [List.take_length]

variable {last : Record} {more : List Record}

/-- A segment cut inside its last record scans as the records before it. -/
theorem scan_of_torn (hold : Holds d.bytes base ((rs ++ [last]).flatMap encode)) (hnew : ∀ r ∈ rs ++ [last], r.Built)
    (hfit : ((rs ++ [last]).flatMap encode).length ≤ segmentSizeBytes) (hlow : recordEnd rs rs.length ≤ k)
    (hhigh : k < ((rs ++ [last]).flatMap encode).length) :
    scan (d.setLen (base + k)) base = ⟨rs, recordEnd rs rs.length, none⟩ := by
  have hvalid := valid_of_fit hnew hfit
  have hold' : Holds (fun i => d.bytes (base + i)) 0 ((rs ++ [last]).flatMap encode) := by
    unfold Holds
    rw [slice_shift]
    exact hold
  rw [List.flatMap_append, List.length_append, List.flatMap_singleton, length_flatMap_encode] at hfit hhigh
  rw [List.flatMap_append, List.flatMap_singleton] at hold'
  obtain ⟨hbefore, hlast⟩ := holds_append.mp hold'
  rw [Nat.zero_add, length_flatMap_encode] at hlast
  have hag : ∀ i, i < k → (d.setLen (base + k)).bytes (base + i) = d.bytes (base + i) := fun i hi => if_pos (by omega)
  refine scan_of_chain probe_bounded ?_ ?_
  · rw [probe_setLen]
    refine coding.chain_iff.mpr ⟨fun r hr => hvalid r (List.mem_append_left _ hr), ?_, Or.inr (by omega), Or.inr hlow, ?_⟩
    · rw [Nat.zero_add]
      exact (length_flatMap_encode rs).symm
    · refine hbefore.congr (fun i _ hi => hag i ?_)
      rw [length_flatMap_encode] at hi
      omega
  · rw [probe_setLen]
    exact Framing.Coding.probe_of_torn (C := coding) (hvalid last (by simp)).short hlast hag hhigh

/-- What a reader finds behind records that cover part of a torn one: a record exactly if the leftover begins with one. -/
theorem probe_leftover {e len : Nat} {left : Bytes} (hold : Holds d.bytes (base + e) left) (hend : base + len = d.len)
    (hlen : e + left.length = len) (hcap : len ≤ segmentSizeBytes) :
    (∃ ghost n, probe d base e = .entry ghost n) ↔ ∃ ghost : Record, ghost.Built ∧ encode ghost <+: left := by
  have hold' : Holds (fun i => d.bytes (base + i)) e left := by
    unfold Holds
    rw [slice_shift]
    exact hold
  rw [probe_eq_storage, show d.len - base = len by omega]
  constructor
  · rintro ⟨ghost, n, hprobe⟩
    obtain ⟨hvalid, rfl, -, hin, hghost⟩ := coding.probe_eq_entry_iff.mp hprobe
    exact ⟨ghost, (valid_iff.mp hvalid).1, hold'.prefix_iff.mpr ⟨by show (coding.encode ghost).length ≤ _; omega, hghost⟩⟩
  · rintro ⟨ghost, hbuilt, hpre⟩
    obtain ⟨hle, hghost⟩ := hold'.prefix_iff.mp hpre
    refine ⟨ghost, (encode ghost).length, coding.probe_eq_entry_iff.mpr ⟨valid_iff.mpr ⟨hbuilt, ?_⟩, rfl, by omega, by omega, hghost⟩⟩
    have hcap' : segmentSizeBytes < 2 ^ 32 := by decide
    rw [length_encode] at hle
    omega

/-- What is left of a record lies behind what covers it. -/
theorem holds_leftover {f : Nat → UInt8} {off : Nat} (torn covered : Nat) (hold : Holds f off (encode last)) :
    Holds f (off + covered) (leftover last torn covered) := by
  unfold leftover
  rw [← List.take_append_drop torn (encode last)] at hold
  have htorn := (holds_append.mp hold).1
  by_cases hle : covered ≤ ((encode last).take torn).length
  · rw [← List.take_append_drop covered ((encode last).take torn)] at htorn
    have hdrop := (holds_append.mp htorn).2
    rwa [List.length_take, Nat.min_eq_left hle] at hdrop
  · rw [List.drop_of_length_le (by omega)]
    rfl

/-! ### A file cut at `k` and written over from `e` on -/

def overwritten (d : FileDisk) (base k e : Nat) (more : List Record) : FileDisk :=
  (d.setLen (base + k)).writeAt (base + e) (more.flatMap encode)

/-- Outside the new records, and before the cut, it is what it was. -/
theorem overwritten_bytes {e i : Nat} (hi : i < base + k)
    (hout : i < base + e ∨ base + e + recordEnd more more.length ≤ i) :
    (overwritten d base k e more).bytes i = d.bytes i := by
  have hlen := length_flatMap_encode more
  rw [overwritten, FileDisk.writeAt_bytes, patch_of_not_mem (by omega)]
  exact if_pos hi

theorem overwritten_len (d : FileDisk) (base : Nat) (more : List Record) {e : Nat} (he : e ≤ k) :
    base + max k (e + recordEnd more more.length) = (overwritten d base k e more).len := by
  rw [← length_flatMap_encode more]
  show _ = if more.flatMap encode = [] then base + k else max (base + k) _
  by_cases hnil : more.flatMap encode = []
  · rw [if_pos hnil, hnil, List.length_nil]
    omega
  · rw [if_neg hnil]
    omega

/-- The overwritten disk holds the records before the cut one, and then the new ones. -/
theorem chain_overwritten (hold : Holds d.bytes base (rs.flatMap encode)) (hnew : ∀ r ∈ rs ++ more, r.Built)
    (hlow : recordEnd rs rs.length ≤ k)
    (hmore : recordEnd rs rs.length + recordEnd more more.length ≤ segmentSizeBytes) :
    Chain (probe (overwritten d base k (recordEnd rs rs.length) more) base) 0 (rs ++ more)
      (recordEnd rs rs.length + recordEnd more more.length) := by
  have hlen := overwritten_len d base more hlow
  have htotal : ((rs ++ more).flatMap encode).length = recordEnd rs rs.length + recordEnd more more.length := by
    rw [List.flatMap_append, List.length_append, length_flatMap_encode, length_flatMap_encode]
  rw [probe_eq_storage]
  refine coding.chain_iff.mpr ⟨valid_of_fit hnew (by omega), ?_, Or.inr hmore, Or.inr (by omega), ?_⟩
  · show _ = 0 + ((rs ++ more).flatMap encode).length
    rw [htotal, Nat.zero_add]
  · unfold Holds
    rw [slice_shift]
    show Holds (overwritten d base k (recordEnd rs rs.length) more).bytes base ((rs ++ more).flatMap encode)
    rw [List.flatMap_append]
    refine holds_append.mpr ⟨hold.congr (fun i _ hi => ?_), ?_⟩
    · rw [length_flatMap_encode] at hi
      exact overwritten_bytes (by omega) (Or.inl hi)
    · rw [length_flatMap_encode]
      exact holds_patch_self _ _ _

/-- Behind the new records the disk holds what is left of the cut one. -/
theorem holds_overwritten (more : List Record) (hlast : Holds d.bytes (base + recordEnd rs rs.length) (encode last))
    (hlow : recordEnd rs rs.length ≤ k) (hhigh : k < recordEnd rs rs.length + (encode last).length) :
    Holds (overwritten d base k (recordEnd rs rs.length) more).bytes
        (base + (recordEnd rs rs.length + recordEnd more more.length))
        (leftover last (k - recordEnd rs rs.length) (recordEnd more more.length)) ∧
      recordEnd rs rs.length + recordEnd more more.length +
          (leftover last (k - recordEnd rs rs.length) (recordEnd more more.length)).length =
        max k (recordEnd rs rs.length + recordEnd more more.length) := by
  have hlen : (leftover last (k - recordEnd rs rs.length) (recordEnd more more.length)).length =
      k - recordEnd rs rs.length - recordEnd more more.length := by
    rw [leftover, List.length_drop, List.length_take, Nat.min_eq_left (by omega)]
  refine ⟨?_, by omega⟩
  rw [← Nat.add_assoc]
  refine (holds_leftover (k - recordEnd rs rs.length) (recordEnd more more.length) hlast).congr (fun i hi hi' => ?_)
  exact overwritten_bytes (by omega) (Or.inr hi)

/-- **When writing resumes cleanly after recovery.** Records are appended to a segment, the file is cut inside the last of
    them, and a writer resumes at the offset the scan of the cut file reports and appends further records that fit. The
    next scan returns the recovered records and then the new ones, and resumes at the writer's cursor, exactly if what is
    left of the torn record behind them does not begin with the bytes of a whole record. -/
theorem resume_clean_iff (ord : IterOrder) (w : World) (disk : DiskRef) (base : Nat) (rs : List Record) (last : Record)
    (k : Nat) (more : List Record) (hnew : ∀ r ∈ rs ++ [last] ++ more, r.Built)
    (hfit : recordEnd (rs ++ [last]) (rs.length + 1) ≤ segmentSizeBytes)
    (hcut : recordEnd rs rs.length ≤ k ∧ k < recordEnd (rs ++ [last]) (rs.length + 1))
    (hmore : recordEnd rs rs.length + recordEnd more more.length ≤ segmentSizeBytes) :
    ∃ w₁ s₁ w₂ s₂, (SegmentWriter.new disk base).appendAll (Env.healthy ord) w (rs ++ [last]) = (.ok (), w₁, s₁) ∧
      let cut := (w₁.disk disk).setLen (base + k)
      (SegmentWriter.resume disk base (scan cut base).resumeAt).appendAll (Env.healthy ord) (w₁.setDisk disk cut) more =
        (.ok (), w₂, s₂) ∧
      (((scan (w₂.disk disk) base).entries = (scan cut base).entries ++ more ∧
          (scan (w₂.disk disk) base).resumeAt = s₂.cursor) ↔
        ¬∃ ghost : Record, ghost.Built ∧
          encode ghost <+: leftover last (k - recordEnd rs rs.length) (recordEnd more more.length)) := by
  have hend : recordEnd (rs ++ [last]) (rs.length + 1) = recordEnd rs rs.length + (encode last).length := by
    rw [← length_flatMap_encode rs, ← List.length_append, ← List.flatMap_singleton encode last, ← List.flatMap_append]
    exact congrArg (fun l => (List.flatMap encode l).length) (List.take_of_length_le (by simp))
  have htotal : ((rs ++ [last]).flatMap encode).length = recordEnd rs rs.length + (encode last).length := by
    rw [List.flatMap_append, List.length_append, List.flatMap_singleton, length_flatMap_encode]
  obtain ⟨hlow, hhigh⟩ := hcut
  rw [hend] at hfit hhigh
  -- the segment as first written, and as it was cut
  obtain ⟨w₁, hrun₁, hdisk₁⟩ := appendAll_healthy ord w (s := SegmentWriter.new disk base)
    (show 0 + ((rs ++ [last]).flatMap encode).length ≤ _ by omega)
  have hdisk₁ : w₁.disk disk = (w.disk disk).writeAt base ((rs ++ [last]).flatMap encode) := hdisk₁
  have hold₁ : Holds (w₁.disk disk).bytes base ((rs ++ [last]).flatMap encode) := by
    rw [hdisk₁]
    exact holds_patch_self _ _ _
  have hscan := scan_of_torn hold₁ (fun r hr => hnew r (List.mem_append_left _ hr)) (by omega) hlow (by omega)
  rw [List.flatMap_append, List.flatMap_singleton] at hold₁
  obtain ⟨hbefore, hlast⟩ := holds_append.mp hold₁
  rw [length_flatMap_encode] at hlast
  -- the resumed writer puts the new records over the torn one
  obtain ⟨w₂, hrun₂, hdisk₂⟩ := appendAll_healthy ord (w₁.setDisk disk ((w₁.disk disk).setLen (base + k)))
    (s := SegmentWriter.resume disk base (recordEnd rs rs.length))
    (show recordEnd rs rs.length + (more.flatMap encode).length ≤ _ by rw [length_flatMap_encode]; exact hmore)
  refine ⟨w₁, _, w₂, ⟨disk, base, recordEnd rs rs.length + (more.flatMap encode).length⟩, hrun₁, ?_⟩
  intro cut
  rw [hscan]
  refine ⟨hrun₂, ?_⟩
  have hdisk₂ : w₂.disk disk = overwritten (w₁.disk disk) base k (recordEnd rs rs.length) more := by
    refine hdisk₂.trans ?_
    exact congrArg (fun d : FileDisk => d.writeAt _ _) World.setDisk_self
  rw [hdisk₂]
  obtain ⟨hheld, hheldLen⟩ := holds_overwritten more hlast hlow hhigh
  rw [← probe_leftover hheld (overwritten_len _ _ _ hlow) hheldLen (by omega), length_flatMap_encode]
  simp only [not_exists]
  refine scan_eq_chain_iff probe_bounded (chain_overwritten hbefore (fun r hr => hnew r ?_) hlow hmore)
  rcases List.mem_append.mp hr with hr | hr
  · simp [hr]
  · simp [hr]

/-- Every record opens with the magic. -/
theorem magic_prefix_encode (r : Record) : leBytes 4 recordMagic.toNat <+: encode r :=
  (List.prefix_append _ _).trans (List.prefix_append (encodeHeader r) r.payload)

/-- Two records, and a third that will be torn. -/
def tornRun : List Record := [Record.new 1 0 [1, 2, 3], Record.new 2 1 []]

def tornLast : Record := Record.new 3 2 (List.replicate 60 7)

/-- The theorem where 51 bytes of the torn record stay behind the new one: none of them opens a record. -/
theorem resume_clean_iff_leftover : ∃ w₁ s₁ w₂ s₂,
    (SegmentWriter.new 0 4096).appendAll (Env.healthy storedOrder) (World.blank 0) (tornRun ++ [tornLast]) =
      (.ok (), w₁, s₁) ∧
    let cut := (w₁.disk 0).setLen (4096 + 139)
    (SegmentWriter.resume 0 4096 (scan cut 4096).resumeAt).appendAll (Env.healthy storedOrder) (w₁.setDisk 0 cut)
      [Record.new 1 1 [9]] = (.ok (), w₂, s₂) ∧
    (leftover tornLast (139 - recordEnd tornRun 2) (recordEnd [Record.new 1 1 [9]] 1)).length = 51 ∧
    (scan (w₂.disk 0) 4096).entries = (scan cut 4096).entries ++ [Record.new 1 1 [9]] ∧
    (scan (w₂.disk 0) 4096).resumeAt = s₂.cursor := by
  obtain ⟨w₁, s₁, w₂, s₂, hrun₁, hrun₂, hiff⟩ := resume_clean_iff storedOrder (World.blank 0) 0 4096 tornRun tornLast 139
    [Record.new 1 1 [9]] (by simp [Record.Built, Record.new, tornRun, tornLast]) (by decide +kernel) (by decide +kernel)
    (by decide +kernel)
  have hclean := hiff.mpr ?_
  · exact ⟨w₁, s₁, w₂, s₂, hrun₁, hrun₂, by decide +kernel, hclean.1, hclean.2⟩
  · rintro ⟨ghost, -, hpre⟩
    have hmagic := (magic_prefix_encode ghost).trans hpre
    revert hmagic
    decide +kernel

/-! ## A record that was never appended -/

/-- A record whose payload is the bytes of another, and one byte more. -/
def nested : Record := Record.new 1 0 (encode (Record.new 9 9 []) ++ [0])

/-- The nested record is appended to a fresh file, of which all but the last byte is kept. -/
def nestedRun : Except IoError Unit × World × SegmentWriter :=
  (SegmentWriter.new 0 0).appendAll (Env.healthy storedOrder) (World.blank 0) [nested]

def nestedCut : FileDisk := (nestedRun.2.1.disk 0).setLen (0 + 56)

/-- A writer resumes where the scan says, with one empty record. -/
def nestedResumed : Except IoError Unit × World × SegmentWriter :=
  (SegmentWriter.resume 0 0 (scan nestedCut 0).resumeAt).appendAll (Env.healthy storedOrder)
    (nestedRun.2.1.setDisk 0 nestedCut) [Record.new 1 0 []]

/-- The next scan returns the new record, and then one that nobody appended: the one inside the torn payload. -/
theorem torn_payload_scans_as_record :
    nested.Built ∧ recordEnd [nested] 1 = 57 ∧ nestedRun.1 = .ok () ∧ nestedResumed.1 = .ok () ∧
    (scan nestedCut 0).entries = [] ∧ (scan nestedCut 0).resumeAt = 0 ∧
    (scan (nestedResumed.2.1.disk 0) 0).entries = [Record.new 1 0 [], Record.new 9 9 []] ∧
    (scan (nestedResumed.2.1.disk 0) 0).resumeAt = 56 ∧ nestedResumed.2.2.cursor = 28 ∧
    ¬((scan (nestedResumed.2.1.disk 0) 0).entries = (scan nestedCut 0).entries ++ [Record.new 1 0 []] ∧
      (scan (nestedResumed.2.1.disk 0) 0).resumeAt = nestedResumed.2.2.cursor) := by
  refine ⟨⟨1, 0, _, rfl⟩, by decide +kernel, rfl, rfl, ?_⟩
  decide +kernel

end Segment

end Tartine
