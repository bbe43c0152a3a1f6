import Tartine.Meta.Codec

/-!
# `Meta.CodecRoundTrip` — every encoding is read back, and decoding stops where it ends

One `Reads` lemma per record type, in the order `Meta.Codec` defines them, up to `reads_op`; `codec_lossless`
collects them. `Fits` is the only side condition: lists and strings shorter than `2^32`, because lengths are stored
as `u32`.
-/

namespace Tartine

open Basis Codec

/-! ## Lengths that fit in a `u32` -/

def RedundancyScheme.Fits : RedundancyScheme → Prop
  | .replicated slots => slots.length < 2 ^ 32
  | .erasureCoded _ _ => True

def ChunkPointer.Fits (c : ChunkPointer) : Prop := c.replicas.length < 2 ^ 32

def Extent.Fits (x : Extent) : Prop := x.replicas.length < 2 ^ 32

def DataLocator.Fits : DataLocator → Prop
  | .chunkLog v => v.length < 2 ^ 32 ∧ ∀ c ∈ v, c.Fits
  | .extents v  => v.length < 2 ^ 32 ∧ ∀ x ∈ v, x.Fits

def InodeRecord.Fits (r : InodeRecord) : Prop := r.redundancy.Fits ∧ r.data.Fits

def PoolMap.Fits (pm : PoolMap) : Prop := pm.disks.toList.length < 2 ^ 32

/-- Names and lists are shorter than `2^32`. -/
def MetaOp.Fits : MetaOp → Prop
  | .createInode rec           => rec.Fits
  | .link _ name _             => name.toUTF8.data.toList.length < 2 ^ 32
  | .unlink _ name             => name.toUTF8.data.toList.length < 2 ^ 32
  | .appendChunk _ chunk       => chunk.Fits
  | .beginConvert _            => True
  | .completeConvert _ extents => extents.length < 2 ^ 32 ∧ ∀ x ∈ extents, x.Fits
  | .setRedundancyScheme _ s   => s.Fits
  | .poolMapChange pm          => pm.Fits
  | .metaGroupChange _         => True
  | .updateExtents _ extents   => extents.length < 2 ^ 32 ∧ ∀ x ∈ extents, x.Fits

instance : DecidablePred RedundancyScheme.Fits
  | .replicated slots => inferInstanceAs (Decidable (slots.length < 2 ^ 32))
  | .erasureCoded _ _ => inferInstanceAs (Decidable True)

instance : DecidablePred ChunkPointer.Fits := fun c => inferInstanceAs (Decidable (c.replicas.length < 2 ^ 32))

instance : DecidablePred Extent.Fits := fun x => inferInstanceAs (Decidable (x.replicas.length < 2 ^ 32))

instance : DecidablePred DataLocator.Fits
  | .chunkLog v => inferInstanceAs (Decidable (v.length < 2 ^ 32 ∧ ∀ c ∈ v, c.Fits))
  | .extents v  => inferInstanceAs (Decidable (v.length < 2 ^ 32 ∧ ∀ x ∈ v, x.Fits))

instance : DecidablePred InodeRecord.Fits := fun r => inferInstanceAs (Decidable (r.redundancy.Fits ∧ r.data.Fits))

instance : DecidablePred PoolMap.Fits := fun pm => inferInstanceAs (Decidable (pm.disks.toList.length < 2 ^ 32))

instance : DecidablePred MetaOp.Fits
  | .createInode rec           => inferInstanceAs (Decidable rec.Fits)
  | .link _ name _             => inferInstanceAs (Decidable (name.toUTF8.data.toList.length < 2 ^ 32))
  | .unlink _ name             => inferInstanceAs (Decidable (name.toUTF8.data.toList.length < 2 ^ 32))
  | .appendChunk _ chunk       => inferInstanceAs (Decidable chunk.Fits)
  | .beginConvert _            => inferInstanceAs (Decidable True)
  | .completeConvert _ extents => inferInstanceAs (Decidable (extents.length < 2 ^ 32 ∧ ∀ x ∈ extents, x.Fits))
  | .setRedundancyScheme _ s   => inferInstanceAs (Decidable s.Fits)
  | .poolMapChange pm          => inferInstanceAs (Decidable pm.Fits)
  | .metaGroupChange _         => inferInstanceAs (Decidable True)
  | .updateExtents _ extents   => inferInstanceAs (Decidable (extents.length < 2 ^ 32 ∧ ∀ x ∈ extents, x.Fits))

namespace Codec

/-! ## Records -/

theorem reads_uuid (id : Uuid) : Reads decodeUuid (encodeUuid id) id :=
  (reads_u128 id.val).map

theorem reads_diskClass (c : DiskClass) : Reads decodeDiskClass (encodeDiskClass c) c := by
  cases c <;> exact (reads_u8 _).refine rfl

theorem reads_replicaSlot (s : ReplicaSlot) : Reads decodeReplicaSlot (encodeReplicaSlot s) s := by
  cases s with
  | anyOfClass cls =>
      cases cls with
      | none => exact (reads_u8 0).bind (Reads.pure _)
      | some c => exact (reads_u8 1).bind (reads_diskClass c).map
  | pinned id => exact (reads_u8 2).bind (reads_uuid id).map

theorem reads_redundancyScheme {s : RedundancyScheme} (h : s.Fits) :
    Reads decodeRedundancyScheme (encodeRedundancyScheme s) s := by
  cases s with
  | replicated slots => exact (reads_u8 0).bind (reads_list h (fun a _ => reads_replicaSlot a)).map
  | erasureCoded ds ps => exact (reads_u8 1).bind ((reads_u8 ds).bind (reads_u8 ps).map)

theorem reads_inodeMode (m : InodeMode) : Reads decodeInodeMode (encodeInodeMode m) m := by
  cases m <;> exact (reads_u8 _).refine rfl

theorem reads_replicaOffset (r : DiskId × UInt64) : Reads decodeReplicaOffset (encodeReplicaOffset r) r :=
  (reads_uuid r.1).bind (reads_u64 r.2).map

theorem reads_replicaOffsets {l : List (DiskId × UInt64)} (h : l.length < 2 ^ 32) :
    Reads decodeReplicaOffsets (encodeReplicaOffsets l) l :=
  reads_list h (fun r _ => reads_replicaOffset r)

theorem reads_chunkPointer {c : ChunkPointer} (h : c.Fits) :
    Reads decodeChunkPointer (encodeChunkPointer c) c :=
  (reads_u64 c.chunkSeq).bind ((reads_replicaOffsets h).bind ((reads_u32 c.len).bind (reads_u32 c.checksum).map))

theorem reads_extent {x : Extent} (h : x.Fits) : Reads decodeExtent (encodeExtent x) x :=
  (reads_u64 x.fileOffset).bind ((reads_u32 x.len).bind ((reads_replicaOffsets h).bind (reads_u32 x.checksum).map))

theorem reads_dataLocator {d : DataLocator} (h : d.Fits) : Reads decodeDataLocator (encodeDataLocator d) d := by
  cases d with
  | chunkLog v => exact (reads_u8 0).bind (reads_list h.1 (fun c hc => reads_chunkPointer (h.2 c hc))).map
  | extents v => exact (reads_u8 1).bind (reads_list h.1 (fun x hx => reads_extent (h.2 x hx))).map

theorem reads_inodeRecord {r : InodeRecord} (h : r.Fits) : Reads decodeInodeRecord (encodeInodeRecord r) r := by
  refine (reads_u64 r.inode).bind ?_
  refine (reads_inodeMode r.mode).bind ?_
  refine (reads_u64 r.size).bind ?_
  refine (reads_redundancyScheme h.1).bind ?_
  refine (reads_dataLocator h.2).bind ?_
  refine (reads_u32 r.uid).bind ?_
  refine (reads_u32 r.gid).bind ?_
  refine (reads_u32 r.unixMode).bind ?_
  exact (reads_u64 r.mtimeUnix).map

theorem reads_diskRoles (r : DiskRoles) : Reads decodeDiskRoles (encodeDiskRoles r) r := by
  obtain ⟨data, metadata⟩ := r
  cases data <;> cases metadata <;> exact (reads_u8 _).map

theorem reads_diskState (s : DiskState) : Reads decodeDiskState (encodeDiskState s) s := by
  cases s <;> exact (reads_u8 _).refine rfl

theorem reads_diskEntry (e : DiskEntry) : Reads decodeDiskEntry (encodeDiskEntry e) e := by
  refine (reads_diskRoles e.roles).bind ?_
  refine (reads_diskState e.state).bind ?_
  refine (reads_diskClass e.cls).bind ?_
  refine (reads_u64 e.weight).bind ?_
  refine (reads_u64 e.usedBytes).bind ?_
  exact (reads_u64 e.capacityBytes).map

theorem reads_poolEntry (e : DiskId × DiskEntry) : Reads decodePoolEntry (encodePoolEntry e) e :=
  (reads_uuid e.1).bind (reads_diskEntry e.2).map

/-! ## Pool maps: any iteration order rebuilds the same map -/

/-- Inserting the entries of a list with distinct keys gives the map that list describes. -/
theorem getElem?_foldl_insert (l : List (DiskId × DiskEntry)) :
    ∀ (m : Std.ExtTreeMap DiskId DiskEntry) (k : DiskId), (l.map Prod.fst).Nodup →
      (l.foldl (fun m e => m.insert e.1 e.2) m)[k]? =
        (l.find? (fun e => e.1 == k)).elim m[k]? (fun e => some e.2) := by
  induction l with
  | nil => intro m k _; rfl
  | cons e l ih =>
      intro m k hnd
      rw [List.map_cons, List.nodup_cons] at hnd
      rw [List.foldl_cons, ih _ k hnd.2, List.find?_cons]
      by_cases hek : e.1 = k
      · subst hek
        -- the remaining keys differ from this one
        have hnone : l.find? (fun x => x.1 == e.1) = none := by
          rw [List.find?_eq_none]
          intro x hx hxe
          exact hnd.1 (List.mem_map.mpr ⟨x, hx, by simpa using hxe⟩)
        simp [hnone]
      · simp only [beq_eq_false_iff_ne.mpr hek]
        cases l.find? (fun e => e.1 == k) with
        | some x => rfl
        | none => simp [Std.ExtTreeMap.getElem?_insert, hek]

/-- A map is rebuilt from any permutation of its entries. -/
theorem foldl_insert_perm_toList {m : Std.ExtTreeMap DiskId DiskEntry} {l : List (DiskId × DiskEntry)}
    (h : l.Perm m.toList) : l.foldl (fun m e => m.insert e.1 e.2) ∅ = m := by
  apply Std.ExtTreeMap.ext_getElem?
  intro k
  have hnd : (l.map Prod.fst).Nodup := by
    refine (h.map Prod.fst).nodup_iff.mpr ?_
    have := Std.ExtTreeMap.distinct_keys_toList (t := m)
    rw [List.Nodup, List.pairwise_map]
    exact this.imp (fun hne heq => hne (by rw [heq]; exact Std.ReflCmp.compare_self))
  rw [getElem?_foldl_insert l ∅ k hnd]
  cases hf : l.find? (fun e => e.1 == k) with
  | some e =>
      have hmem := List.mem_of_find?_eq_some hf
      have hk : e.1 = k := by simpa using List.find?_some hf
      have hin : (k, e.2) ∈ m.toList := h.mem_iff.mp (by rw [← hk]; exact hmem)
      rw [Std.ExtTreeMap.mem_toList_iff_getElem?_eq_some] at hin
      exact hin.symm
  | none =>
      rw [List.find?_eq_none] at hf
      cases hm : m[k]? with
      | none => simp
      | some v =>
          have hin := h.mem_iff.mpr (Std.ExtTreeMap.mem_toList_iff_getElem?_eq_some.mpr hm)
          exact absurd (by simp) (hf _ hin)

theorem reads_poolMap (ord : IterOrder) {pm : PoolMap} (h : pm.Fits) :
    Reads decodePoolMap (encodePoolMap ord pm) pm := by
  have hperm : (pm.iter ord).Perm pm.disks.toList := ord.perm _
  have hlen : (pm.iter ord).length < 2 ^ 32 := by rw [hperm.length_eq]; exact h
  have hread := (reads_list hlen (fun e _ => reads_poolEntry e)).map
    (f := fun entries => (⟨pm.epoch, entries.foldl (fun m e => m.insert e.1 e.2) ∅⟩ : PoolMap))
  rw [foldl_insert_perm_toList hperm] at hread
  exact (reads_u64 pm.epoch).bind hread

theorem reads_metaGroup (g : MetaGroup) : Reads decodeMetaGroup (encodeMetaGroup g) g := by
  obtain ⟨primary, backup, epoch⟩ := g
  refine (reads_uuid primary).bind ?_
  cases backup with
  | none => exact (reads_bool false).bind ((Reads.pure none).bind (reads_u64 epoch).map)
  | some b => exact (reads_bool true).bind ((reads_uuid b).map.bind (reads_u64 epoch).map)

/-! ## Operations -/

/-- **Every operation's encoding is read back, whatever follows it.** -/
theorem reads_op (ord : IterOrder) {op : MetaOp} (h : op.Fits) : Reads opDecoder (encodeOp ord op) op := by
  cases op with
  | createInode rec => exact (reads_u8 0).bind (reads_inodeRecord h).map
  | link parent name child =>
      exact (reads_u8 1).bind ((reads_u64 parent).bind ((reads_str h).bind (reads_u64 child).map))
  | unlink parent name => exact (reads_u8 2).bind ((reads_u64 parent).bind (reads_str h).map)
  | appendChunk inode chunk => exact (reads_u8 3).bind ((reads_u64 inode).bind (reads_chunkPointer h).map)
  | beginConvert inode => exact (reads_u8 4).bind (reads_u64 inode).map
  | completeConvert inode extents =>
      exact (reads_u8 5).bind ((reads_u64 inode).bind
        (reads_list h.1 (fun x hx => reads_extent (h.2 x hx))).map)
  | setRedundancyScheme inode s =>
      exact (reads_u8 6).bind ((reads_u64 inode).bind (reads_redundancyScheme h).map)
  | poolMapChange pm => exact (reads_u8 7).bind (reads_poolMap ord h).map
  | metaGroupChange mg => exact (reads_u8 8).bind (reads_metaGroup mg).map
  | updateExtents inode extents =>
      exact (reads_u8 9).bind ((reads_u64 inode).bind
        (reads_list h.1 (fun x hx => reads_extent (h.2 x hx))).map)

/-- `decode_op(encode_op(op))` is `op`. -/
theorem decodeOp_encodeOp (ord : IterOrder) {op : MetaOp} (h : op.Fits) :
    decodeOp (encodeOp ord op) = some op := by
  rw [decodeOp, (reads_op ord h).exact]
  rfl

/-- On every value that fits, `dec` inverts `enc` and stops exactly at its end, whatever follows. -/
def Lossless {α : Type} (fits : α → Prop) (enc : α → Bytes) (dec : Decoder α) : Prop :=
  ∀ v, fits v → ∀ rest, dec (enc v ++ rest) = some (v, rest)

/-- **The codec is lossless and self-delimiting.** Every operation is read back from its encoding, whatever the
    order in which the encoder met the entries of a hash map, and so is every nested record, followed by
    anything. -/
theorem codec_lossless :
    (∀ (ord : IterOrder) (op : MetaOp), op.Fits → decodeOp (encodeOp ord op) = some op) ∧
    (∀ ord, Lossless MetaOp.Fits (encodeOp ord) opDecoder) ∧
    (∀ ord, Lossless PoolMap.Fits (encodePoolMap ord) decodePoolMap) ∧
    Lossless (fun _ => True) encodeMetaGroup decodeMetaGroup ∧
    Lossless InodeRecord.Fits encodeInodeRecord decodeInodeRecord ∧
    Lossless DataLocator.Fits encodeDataLocator decodeDataLocator ∧
    Lossless Extent.Fits encodeExtent decodeExtent ∧
    Lossless ChunkPointer.Fits encodeChunkPointer decodeChunkPointer ∧
    Lossless (fun l => l.length < 2 ^ 32) encodeReplicaOffsets decodeReplicaOffsets ∧
    Lossless RedundancyScheme.Fits encodeRedundancyScheme decodeRedundancyScheme ∧
    Lossless (fun _ => True) encodeReplicaSlot decodeReplicaSlot ∧
    Lossless (fun _ => True) encodeInodeMode decodeInodeMode ∧
    Lossless (fun _ => True) encodeDiskEntry decodeDiskEntry ∧
    Lossless (fun _ => True) encodeDiskRoles decodeDiskRoles ∧
    Lossless (fun _ => True) encodeDiskState decodeDiskState ∧
    Lossless (fun _ => True) encodeDiskClass decodeDiskClass ∧
    Lossless (fun _ => True) encodeUuid decodeUuid := by
  refine ⟨?_, ?_, ?_, ?_, ?_, ?_, ?_, ?_, ?_, ?_, ?_, ?_, ?_, ?_, ?_, ?_, ?_⟩
  · intro ord op hfits
    exact decodeOp_encodeOp ord hfits
  · intro ord op hfits
    exact reads_op ord hfits
  · intro ord pm hfits
    exact reads_poolMap ord hfits
  · intro g _
    exact reads_metaGroup g
  · intro r hfits
    exact reads_inodeRecord hfits
  · intro d hfits
    exact reads_dataLocator hfits
  · intro x hfits
    exact reads_extent hfits
  · intro c hfits
    exact reads_chunkPointer hfits
  · intro l hfits
    exact reads_replicaOffsets hfits
  · intro s hfits
    exact reads_redundancyScheme hfits
  · intro s _
    exact reads_replicaSlot s
  · intro m _
    exact reads_inodeMode m
  · intro e _
    exact reads_diskEntry e
  · intro r _
    exact reads_diskRoles r
  · intro s _
    exact reads_diskState s
  · intro c _
    exact reads_diskClass c
  · intro id _
    exact reads_uuid id

/-- A chunk with two replicas. -/
theorem codec_lossless_chunk :
    decodeOp (encodeOp ⟨id, fun l => List.Perm.refl l⟩ (.appendChunk 7 ⟨0, [(⟨1⟩, 0), (⟨2⟩, 31)], 3, 9⟩)) =
      some (.appendChunk 7 ⟨0, [(⟨1⟩, 0), (⟨2⟩, 31)], 3, 9⟩) := by
  have hfits : (MetaOp.appendChunk 7 ⟨0, [(⟨1⟩, 0), (⟨2⟩, 31)], 3, 9⟩).Fits := by decide
  exact codec_lossless.1 _ _ hfits

/-! ## An encoding shorter than `2^32` comes from lists and strings shorter than that -/

theorem length_list_le {α : Type} (enc : α → Bytes) {l : List α} (h : ∀ a ∈ l, 0 < (enc a).length) :
    l.length ≤ (Enc.list enc l).length := by
  have hsum : l.length ≤ (l.flatMap enc).length := by
    induction l with
    | nil => simp
    | cons a l ih =>
        have hhead := h a (by simp)
        have htail := ih (fun x hx => h x (List.mem_cons_of_mem _ hx))
        rw [List.flatMap_cons, List.length_append, List.length_cons]
        omega
  rw [Enc.list, List.length_append]
  omega

theorem length_enc_le_list {α : Type} (enc : α → Bytes) {l : List α} {a : α} (h : a ∈ l) :
    (enc a).length ≤ (Enc.list enc l).length := by
  have hsub : (enc a).Sublist (l.flatMap enc) := by
    rw [List.flatMap_def]
    exact List.sublist_flatten_of_mem (List.mem_map_of_mem h)
  rw [Enc.list, List.length_append]
  have := hsub.length_le
  omega

theorem RedundancyScheme.fits_of_length {s : RedundancyScheme} (h : (encodeRedundancyScheme s).length < 2 ^ 32) :
    s.Fits := by
  cases s with
  | replicated slots =>
      have hpos : ∀ a ∈ slots, 0 < (encodeReplicaSlot a).length := by
        intro a _
        rcases a with ⟨_ | c⟩ | id <;> simp [encodeReplicaSlot, Enc.u8]
      have hlen := length_list_le encodeReplicaSlot hpos
      simp only [encodeRedundancyScheme, List.length_append] at h
      show slots.length < 2 ^ 32
      omega
  | erasureCoded ds ps => trivial

theorem length_replicas_le (l : List (DiskId × UInt64)) : l.length ≤ (encodeReplicaOffsets l).length :=
  length_list_le encodeReplicaOffset (fun a _ => by simp [encodeReplicaOffset, encodeUuid, Enc.u128])

theorem ChunkPointer.fits_of_length {c : ChunkPointer} (h : (encodeChunkPointer c).length < 2 ^ 32) : c.Fits := by
  have hlen := length_replicas_le c.replicas
  simp only [encodeChunkPointer, List.length_append] at h
  show c.replicas.length < 2 ^ 32
  omega

theorem Extent.fits_of_length {x : Extent} (h : (encodeExtent x).length < 2 ^ 32) : x.Fits := by
  have hlen := length_replicas_le x.replicas
  simp only [encodeExtent, List.length_append] at h
  show x.replicas.length < 2 ^ 32
  omega

theorem extents_fit_of_length {xs : List Extent} (h : (Enc.list encodeExtent xs).length < 2 ^ 32) :
    xs.length < 2 ^ 32 ∧ ∀ x ∈ xs, x.Fits := by
  have hlen := length_list_le encodeExtent (l := xs) (fun x _ => by simp [encodeExtent, Enc.u64])
  exact ⟨by omega, fun x hx => Extent.fits_of_length (Nat.lt_of_le_of_lt (length_enc_le_list encodeExtent hx) h)⟩

theorem DataLocator.fits_of_length {d : DataLocator} (h : (encodeDataLocator d).length < 2 ^ 32) : d.Fits := by
  cases d with
  | chunkLog cs =>
      simp only [encodeDataLocator, List.length_append] at h
      have hlen := length_list_le encodeChunkPointer (l := cs)
        (fun c _ => by simp [encodeChunkPointer, Enc.u64])
      refine ⟨by omega, fun c hc => ChunkPointer.fits_of_length ?_⟩
      have := length_enc_le_list encodeChunkPointer hc
      omega
  | extents xs =>
      simp only [encodeDataLocator, List.length_append] at h
      exact extents_fit_of_length (by omega)

theorem InodeRecord.fits_of_length {r : InodeRecord} (h : (encodeInodeRecord r).length < 2 ^ 32) : r.Fits := by
  simp only [encodeInodeRecord, List.length_append] at h
  exact ⟨RedundancyScheme.fits_of_length (by omega), DataLocator.fits_of_length (by omega)⟩

theorem str_fits_of_length {s : String} (h : (Enc.str s).length < 2 ^ 32) :
    s.toUTF8.data.toList.length < 2 ^ 32 := by
  simp only [Enc.str, Enc.bytes, List.length_append] at h
  omega

/-- **Whatever encodes to less than `2^32` bytes is read back.** -/
theorem MetaOp.fits_of_length (ord : IterOrder) {op : MetaOp} (h : (encodeOp ord op).length < 2 ^ 32) :
    op.Fits := by
  cases op with
  | createInode rec =>
      simp only [encodeOp, List.length_append] at h
      exact InodeRecord.fits_of_length (by omega)
  | link parent name child =>
      simp only [encodeOp, List.length_append] at h
      exact str_fits_of_length (by omega)
  | unlink parent name =>
      simp only [encodeOp, List.length_append] at h
      exact str_fits_of_length (by omega)
  | appendChunk inode chunk =>
      simp only [encodeOp, List.length_append] at h
      exact ChunkPointer.fits_of_length (by omega)
  | beginConvert inode => trivial
  | completeConvert inode extents =>
      simp only [encodeOp, List.length_append] at h
      exact extents_fit_of_length (by omega)
  | setRedundancyScheme inode s =>
      simp only [encodeOp, List.length_append] at h
      exact RedundancyScheme.fits_of_length (by omega)
  | poolMapChange pm =>
      simp only [encodeOp, encodePoolMap, List.length_append] at h
      have hlen := length_list_le encodePoolEntry (l := pm.iter ord)
        (fun e _ => by simp [encodePoolEntry, encodeUuid, Enc.u128])
      have hperm : (pm.iter ord).length = pm.disks.toList.length := (ord.perm _).length_eq
      show pm.disks.toList.length < 2 ^ 32
      omega
  | metaGroupChange mg => trivial
  | updateExtents inode extents =>
      simp only [encodeOp, List.length_append] at h
      exact extents_fit_of_length (by omega)

end Codec

end Tartine
