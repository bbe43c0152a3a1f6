import Tartine.Meta.PoolData
import Tartine.Meta.Table

/-!
# `Meta.PoolContent` — what a record says about a file's bytes

`RecordSound a rec content` is the meaning of an inode record on the disks of `a`: its size, its mode and its locator
describe exactly the bytes `content`, and every replica it names holds them. Reading such a record returns `content`,
and the two data phases hand the log a locator that describes what they stored.

* `readFullContent_of_sound` — the reader inverts the description;
* `prepareAppend_stores`, `prepareExtents_stores` — what a successful data phase has done.
-/

namespace Tartine

open Basis

/-- A scheme that places at least one replica, and no more than the kernel core selects. -/
def RedundancyScheme.Placeable : RedundancyScheme → Prop
  | .replicated slots   => 1 ≤ slots.length ∧ slots.length ≤ 16
  | .erasureCoded _ _   => False

theorem RedundancyScheme.Placeable.fits {scheme : RedundancyScheme} (h : scheme.Placeable) : scheme.Fits := by
  cases scheme with
  | replicated slots => exact Nat.lt_of_le_of_lt h.2 (by decide)
  | erasureCoded ds ps => exact h.elim

namespace Pool

/-! ## Descriptions of a file -/

/-- Replicas of `bytes`: at least one, at most 16, each stored. -/
structure Replicas (a : World × Pool) (headerLen : Nat) (bytes : Bytes) (replicas : List (DiskId × UInt64)) : Prop where
  nonempty : replicas ≠ []
  few : replicas.length ≤ 16
  stored : ∀ r ∈ replicas, Stored a headerLen bytes r

theorem Replicas.mono {a b : World × Pool} {headerLen : Nat} {bytes : Bytes} {replicas : List (DiskId × UInt64)}
    (h : Replicas a headerLen bytes replicas) (hab : Retains a b) : Replicas b headerLen bytes replicas :=
  ⟨h.nonempty, h.few, fun r hr => (h.stored r hr).mono hab⟩

/-- A chunk pointer to a record with payload `part`. -/
structure ChunkSound (a : World × Pool) (chunk : ChunkPointer) (part : Bytes) : Prop where
  len_eq : chunk.len.toNat = part.length
  replicas : Replicas a Segment.headerLen part chunk.replicas

/-- The extents of a whole file: none if it is empty, else one that covers it. -/
inductive ExtentsSound (a : World × Pool) : List Extent → Bytes → Prop where
  | empty : ExtentsSound a [] []
  | whole {x content} (hoff : x.fileOffset = 0) (hlen : x.len.toNat = content.length)
      (hrep : Replicas a 0 content x.replicas) : ExtentsSound a [x] content

/-- What a locator says in a given mode: chunks one after another until conversion completes, extents from then on. -/
inductive Lays (a : World × Pool) : InodeMode → DataLocator → Bytes → Prop where
  | chunkLog {mode chunks parts} (hmode : mode ≠ .writable) (hall : List.Forall₂ (ChunkSound a) chunks parts) :
      Lays a mode (.chunkLog chunks) parts.flatten
  | extents {xs content} (hall : ExtentsSound a xs content) : Lays a .writable (.extents xs) content

/-- **The meaning of an inode record.** -/
structure RecordSound (a : World × Pool) (rec : InodeRecord) (content : Bytes) : Prop where
  size_eq : rec.size.toNat = content.length
  scheme : rec.redundancy.Placeable
  lays : Lays a rec.mode rec.data content

variable {a b : World × Pool}

theorem ExtentsSound.mono {xs : List Extent} {content : Bytes} (h : ExtentsSound a xs content) (hab : Retains a b) :
    ExtentsSound b xs content := by
  cases h with
  | empty => exact .empty
  | whole hoff hlen hrep => exact .whole hoff hlen (hrep.mono hab)

theorem Lays.mono {mode : InodeMode} {data : DataLocator} {content : Bytes} (h : Lays a mode data content)
    (hab : Retains a b) : Lays b mode data content := by
  cases h with
  | chunkLog hmode hall => exact .chunkLog hmode (hall.imp (fun _ _ hc => ⟨hc.len_eq, hc.replicas.mono hab⟩))
  | extents hall => exact .extents (hall.mono hab)

theorem RecordSound.mono {rec : InodeRecord} {content : Bytes} (h : RecordSound a rec content) (hab : Retains a b) :
    RecordSound b rec content :=
  ⟨h.size_eq, h.scheme, h.lays.mono hab⟩

/-- One more chunk is one more part of the content. -/
theorem Lays.snoc {mode : InodeMode} {chunks : List ChunkPointer} {chunk : ChunkPointer} {content part : Bytes}
    (h : Lays a mode (.chunkLog chunks) content) (hc : ChunkSound a chunk part) :
    Lays a mode (.chunkLog (chunks ++ [chunk])) (content ++ part) := by
  cases h with
  | @chunkLog _ _ parts hmode hall =>
      have hflat : parts.flatten ++ part = (parts ++ [part]).flatten := by simp
      rw [hflat]
      exact .chunkLog hmode (List.rel_append hall (.cons hc .nil))

/-- The extents of a whole file end where its content does. -/
theorem ExtentsSound.size_eq {xs : List Extent} {content : Bytes} {ends : List UInt64} (h : ExtentsSound a xs content)
    (hends : extentEnds xs = .ok ends) : (ends.foldl max 0).toNat = content.length := by
  have hall := Res.forall₂_of_mapM hends
  cases h with
  | empty =>
      cases hall
      rfl
  | @whole x content hoff hlen hrep =>
      obtain ⟨e, rest, hend, hrest, rfl⟩ := List.forall₂_cons_left_iff.mp hall
      cases hrest
      have he := Res.checkedAdd_eq_ok.mp hend
      rw [hoff, UInt32.toNat_toUInt64, hlen] at he
      show (max 0 e).toNat = content.length
      rw [UInt64.toNat_max, he]
      simp

theorem ExtentsSound.fits {xs : List Extent} {content : Bytes} (h : ExtentsSound a xs content) :
    (DataLocator.extents xs).Fits := by
  cases h with
  | empty => exact ⟨by decide, by simp⟩
  | @whole x content hoff hlen hrep =>
      refine ⟨by simp, ?_⟩
      intro y hy
      obtain rfl := List.mem_singleton.mp hy
      have hfew := hrep.few
      show y.replicas.length < 2 ^ 32
      omega

/-! ## Reading a described file -/

/-- One chunk after another. -/
theorem readChunks_eq {w : World} {p : Pool} {chunks : List ChunkPointer} {parts : List Bytes}
    (h : List.Forall₂ (ChunkSound (w, p)) chunks parts) (out : Bytes) :
    chunks.foldlM (fun out chunk => do
      let bytes ← p.readReplicated w chunk.replicas Segment.headerLen chunk.len.toNat
      pure (out ++ bytes)) out = Res.ok (out ++ parts.flatten) := by
  induction h generalizing out with
  | nil => simp
  | cons hc _ ih =>
      rw [List.foldlM_cons, hc.len_eq, readReplicated_of_stored hc.replicas.nonempty hc.replicas.stored]
      rw [Res.ok_bind, Res.pure_eq, Res.ok_bind, ih, List.flatten_cons, List.append_assoc]

/-- **Reading a described file returns its content.** -/
theorem readFullContent_of_sound {w : World} {p : Pool} {rec : InodeRecord} {content : Bytes}
    (h : RecordSound (w, p) rec content) : p.readFullContent w rec = .ok content := by
  have hlays := h.lays
  unfold readFullContent
  generalize rec.mode = mode at hlays
  cases hdata : rec.data with
  | chunkLog chunks =>
      rw [hdata] at hlays
      cases hlays with
      | chunkLog hmode hall => exact readChunks_eq hall []
  | extents xs =>
      rw [hdata] at hlays
      dsimp only
      rw [h.size_eq]
      cases hlays with
      | extents hall =>
          cases hall with
          | empty => rfl
          | whole hoff hlen hrep =>
              rw [List.foldlM_cons, hlen, readReplicated_of_stored hrep.nonempty hrep.stored, hoff]
              simp [copyInto]

/-! ## Placement -/

/-- `collect::<Option<Vec<_>>>()` succeeds on a list without holes. -/
theorem eq_map_some_of_collect {α : Type} {l : List (Option α)} {r : List α} (h : l.mapM id = some r) :
    l = r.map some :=
  List.forall₂_eq_eq_eq ▸ List.forall₂_map_right_iff.mpr (forall₂_of_mapM_some h)

theorem exists_collect {α : Type} {l : List (Option α)} (h : ∀ o ∈ l, o ≠ none) : ∃ r, l.mapM id = some r := by
  refine Option.ne_none_iff_exists'.mp fun hnone => ?_
  obtain ⟨o, ho, hfail⟩ := mapM_eq_none_iff.mp hnone
  exact h o ho hfail

/-- Every slot of a scheme that was placed has its disk. -/
theorem length_place {ord : IterOrder} {p : Pool} {scheme : RedundancyScheme} {key : UInt64} {ids : List DiskId}
    (h : p.place ord scheme key = .ok ids) :
    ∃ slots, scheme = .replicated slots ∧ ids.length = min slots.length 16 := by
  obtain ⟨placed, hplaced, h⟩ := Res.bind_eq_ok.mp h
  obtain ⟨slots, hscheme, hlen⟩ := Placement.length_placeRedundancy (Res.mapErr_eq_ok.mp hplaced)
  refine ⟨slots, hscheme, ?_⟩
  split at h
  · cases h
  · rename_i hids
    obtain rfl := Res.ok.inj h
    rw [← show placed.length = min slots.length 16 from hlen, eq_map_some_of_collect hids, List.length_map]

/-- Stored replicas on the disks a scheme was placed on. -/
theorem replicas_of_place {ord : IterOrder} {a : World × Pool} {p : Pool} {scheme : RedundancyScheme} {key : UInt64}
    {ids : List DiskId} {headerLen : Nat} {bytes : Bytes} {replicas : List (DiskId × UInt64)} (hs : scheme.Placeable)
    (hplace : p.place ord scheme key = .ok ids) (hids : replicas.map Prod.fst = ids)
    (hstored : ∀ r ∈ replicas, Stored a headerLen bytes r) : Replicas a headerLen bytes replicas := by
  obtain ⟨slots, rfl, hlen⟩ := length_place hplace
  have hcount : replicas.length = min slots.length 16 := by
    rw [← hlen, ← hids, List.length_map]
  obtain ⟨hpos, -⟩ : 1 ≤ slots.length ∧ slots.length ≤ 16 := hs
  refine ⟨?_, by omega, hstored⟩
  rintro rfl
  rw [List.length_nil] at hcount
  omega

/-! ## Successful data phases -/

variable {env : Env} {w w' : World} {p p' : Pool} {inode : InodeId} {op : MetaOp}

theorem copyInto_ne_err {out bytes : Bytes} {start : Nat} {e : PoolError} : copyInto out start bytes ≠ .err e := by
  unfold copyInto
  split
  · exact fun h => by cases h
  · exact fun h => by cases h

/-- A read blames the replicas, the pool or the device. -/
theorem readReplicated_err {replicas : List (DiskId × UInt64)} {headerLen len : Nat} {e : PoolError}
    (h : p.readReplicated w replicas headerLen len = .err e) :
    (replicas = [] ∧ e = .unplaceable) ∨ e = .notFound ∨ ∃ x, e = .io x := by
  unfold readReplicated at h
  split at h
  · exact Or.inl ⟨rfl, (Res.err.inj h).symm⟩
  · split at h
    · exact Or.inr (Or.inl (Res.err.inj h).symm)
    · split at h
      · cases h
      · split at h
        · exact Or.inr (Or.inr ⟨_, (Res.err.inj h).symm⟩)
        · cases h

/-- The content is read with no error that none of its parts is read with. -/
theorem readFullContent_ne_err {rec : InodeRecord} {e : PoolError}
    (h : rec.data.AllReplicas fun headerLen len replicas => p.readReplicated w replicas headerLen len ≠ .err e) :
    p.readFullContent w rec ≠ .err e := by
  unfold readFullContent
  cases hdata : rec.data with
  | chunkLog chunks =>
      rw [hdata] at h
      exact Res.foldlM_ne_err fun out chunk hchunk => Res.bind_ne_err (h chunk hchunk) fun bytes _ he => by cases he
  | extents xs =>
      rw [hdata] at h
      exact Res.foldlM_ne_err fun out x hx => Res.bind_ne_err (h x hx) fun bytes _ => copyInto_ne_err

/-- What `append` found before it wrote anything. -/
theorem planAppend_eq_ok {ord : IterOrder} {chunkSeq : UInt64} {ids : List DiskId}
    (h : p.planAppend ord inode = .ok (chunkSeq, ids)) :
    ∃ rec chunks, p.findInode inode = .ok rec ∧ rec.mode ≠ .writable ∧ rec.data = .chunkLog chunks ∧
      chunkSeq = UInt64.ofNat chunks.length ∧
      p.place ord rec.redundancy (Placement.placementKey inode chunkSeq) = .ok ids := by
  obtain ⟨rec, hrec, h⟩ := Res.bind_eq_ok.mp h
  split at h
  · cases h
  · rename_i hmode
    split at h
    · cases h
    · rename_i chunks hdata
      obtain ⟨ids', hplace, h⟩ := Res.bind_eq_ok.mp h
      obtain ⟨rfl, rfl⟩ := Prod.mk.inj (Res.ok.inj h)
      refine ⟨rec, chunks, hrec, ?_, hdata, rfl, hplace⟩
      intro hw
      rw [hw] at hmode
      simp at hmode

/-- What `complete_convert` found before it wrote anything. -/
theorem planCompleteConvert_eq_ok {redundancy : RedundancyScheme} {content : Bytes}
    (h : p.planCompleteConvert w inode = .ok (redundancy, content)) :
    ∃ rec, p.findInode inode = .ok rec ∧ redundancy = rec.redundancy ∧ rec.mode = .converting ∧
      p.readFullContent w rec = .ok content := by
  obtain ⟨rec, hfind, h⟩ := Res.bind_eq_ok.mp h
  split at h
  · cases h
  · rename_i hmode
    obtain ⟨content', hread, hpure⟩ := Res.bind_eq_ok.mp h
    obtain ⟨rfl, rfl⟩ := Prod.mk.inj (Res.ok.inj hpure)
    exact ⟨rec, hfind, rfl, not_not.mp hmode, hread⟩

/-- Of a file that is converting the whole content is planned. -/
theorem planCompleteConvert_of_mode {rec : InodeRecord} (hfind : p.findInode inode = .ok rec) (hmode : rec.mode = .converting) :
    p.planCompleteConvert w inode = p.readFullContent w rec >>= fun content => pure (rec.redundancy, content) := by
  unfold planCompleteConvert
  rw [hfind, Res.ok_bind, if_neg (not_not.mpr hmode)]

/-- What `write` found before it wrote anything. -/
theorem planWrite_eq_ok {offset : UInt64} {data content : Bytes} {redundancy : RedundancyScheme}
    (h : p.planWrite w inode offset data = .ok (redundancy, content)) :
    ∃ rec, p.findInode inode = .ok rec ∧ redundancy = rec.redundancy ∧ rec.mode = .writable ∧
      ∃ old, p.readFullContent w rec = .ok old := by
  obtain ⟨rec, hfind, h⟩ := Res.bind_eq_ok.mp h
  split at h
  · cases h
  · rename_i hmode
    obtain ⟨old, hread, h⟩ := Res.bind_eq_ok.mp h
    dsimp only at h
    split at h
    · cases h
    · split at h
      · cases h
      · obtain ⟨_, -, hpure⟩ := Res.bind_eq_ok.mp h
        obtain ⟨rfl, -⟩ := Prod.mk.inj (Res.ok.inj hpure)
        exact ⟨rec, hfind, rfl, not_not.mp hmode, old, hread⟩

/-- **What a successful data phase of `append` has done**: stored the payload on every disk the scheme was placed on,
    and made a chunk pointer of the replicas. -/
theorem prepareAppend_stores {payload : Bytes} (hok : HandlesOk p)
    (h : prepareAppend env inode payload (w, p) = (.ok op, w', p')) :
    ∃ rec chunks ids replicas, p.findInode inode = .ok rec ∧ rec.mode ≠ .writable ∧ rec.data = .chunkLog chunks ∧
      p.place env.ord rec.redundancy (Placement.placementKey inode (UInt64.ofNat chunks.length)) = .ok ids ∧
      replicas.map Prod.fst = ids ∧ (∀ r ∈ replicas, Stored (w', p') Segment.headerLen payload r) ∧
      op = .appendChunk inode
        ⟨UInt64.ofNat chunks.length, replicas, UInt32.ofNat payload.length, Crc32c.checksum payload⟩ := by
  obtain ⟨⟨chunkSeq, ids⟩, s₁, hreads, h⟩ := Action.bind_eq_ok.mp h
  obtain ⟨hplan, rfl⟩ := Action.reads_eq_ok.mp hreads
  obtain ⟨replicas, ⟨w₂, p₂⟩, hloop, h⟩ := Action.bind_eq_ok.mp h
  obtain ⟨rfl, hs⟩ := Action.pure_eq_ok.mp h
  obtain ⟨rfl, rfl⟩ := Prod.mk.inj hs
  obtain ⟨rec, chunks, hrec, hmode, hdata, rfl, hplace⟩ := planAppend_eq_ok hplan
  obtain ⟨hids, hstored⟩ := stored_writeReplicas (appendRecord_writes env _) (by simp) hok hloop
  have hpayload : (Segment.encode (Segment.Record.new inode (UInt64.ofNat chunks.length) payload)).drop
      Segment.headerLen = payload := List.drop_left' (Segment.length_encodeHeader _)
  rw [hpayload] at hstored
  exact ⟨rec, chunks, ids, replicas, hrec, hmode, hdata, hplace, hids, hstored, rfl⟩

/-- In the words of the descriptions above. -/
theorem prepareAppend_eq_ok {payload : Bytes} (hok : HandlesOk p)
    (h : prepareAppend env inode payload (w, p) = (.ok op, w', p')) :
    ∃ rec chunk, p.metaStore.view.getInode inode = .ok (some rec) ∧ op = .appendChunk inode chunk ∧
      chunk.len = UInt32.ofNat payload.length ∧
      (∀ r ∈ chunk.replicas, Stored (w', p') Segment.headerLen payload r) ∧
      (rec.redundancy.Placeable → Replicas (w', p') Segment.headerLen payload chunk.replicas) := by
  obtain ⟨rec, chunks, ids, replicas, hrec, -, -, hplace, hids, hstored, rfl⟩ := prepareAppend_stores hok h
  refine ⟨rec, _, findInode_eq_ok hrec, rfl, rfl, hstored, ?_⟩
  intro hscheme
  exact replicas_of_place hscheme hplace hids hstored

/-- **What a successful data phase of a rewrite has done**: nothing, for empty content; else stored the planned content
    on every disk the scheme was placed on, and made an extent of the replicas that covers the whole file. -/
theorem prepareExtents_stores {plan : World → Pool → Res PoolError (RedundancyScheme × Bytes)}
    {mkOp : List Extent → MetaOp} (hok : HandlesOk p)
    (h : prepareExtents env inode plan mkOp (w, p) = (.ok op, w', p')) :
    ∃ redundancy content, plan w p = .ok (redundancy, content) ∧
      ((content = [] ∧ op = mkOp []) ∨
        (content ≠ [] ∧ ∃ ids replicas,
          p.place env.ord redundancy (Placement.placementKey inode (UInt64.ofNat (2 ^ 64 - 1))) = .ok ids ∧
          replicas.map Prod.fst = ids ∧ (∀ r ∈ replicas, Stored (w', p') 0 content r) ∧
          op = mkOp [⟨0, UInt32.ofNat content.length, replicas, Crc32c.checksum content⟩])) := by
  obtain ⟨⟨redundancy, content⟩, s₁, hreads, h⟩ := Action.bind_eq_ok.mp h
  obtain ⟨hplan, rfl⟩ := Action.reads_eq_ok.mp hreads
  obtain ⟨extents, ⟨w₂, p₂⟩, hextents, h⟩ := Action.bind_eq_ok.mp h
  obtain ⟨rfl, hs⟩ := Action.pure_eq_ok.mp h
  obtain ⟨rfl, rfl⟩ := Prod.mk.inj hs
  refine ⟨redundancy, content, hplan, ?_⟩
  unfold writeWholeFileExtent at hextents
  split at hextents
  · rename_i hnil
    obtain ⟨rfl, -⟩ := Action.pure_eq_ok.mp hextents
    exact Or.inl ⟨hnil, rfl⟩
  · rename_i hne
    obtain ⟨ids, s₂, hreads, hextents⟩ := Action.bind_eq_ok.mp hextents
    obtain ⟨hplace, rfl⟩ := Action.reads_eq_ok.mp hreads
    obtain ⟨replicas, ⟨w₃, p₃⟩, hloop, hextents⟩ := Action.bind_eq_ok.mp hextents
    obtain ⟨rfl, hs⟩ := Action.pure_eq_ok.mp hextents
    obtain ⟨rfl, rfl⟩ := Prod.mk.inj hs
    obtain ⟨hids, hstored⟩ := stored_writeReplicas (storeExtent_writes env content) (Nat.zero_le _) hok hloop
    exact Or.inr ⟨hne, ids, replicas, hplace, hids, hstored, rfl⟩

/-- In the words of the descriptions above. -/
theorem prepareExtents_eq_ok {plan : World → Pool → Res PoolError (RedundancyScheme × Bytes)}
    {mkOp : List Extent → MetaOp} (hok : HandlesOk p)
    (h : prepareExtents env inode plan mkOp (w, p) = (.ok op, w', p')) :
    ∃ redundancy content extents, plan w p = .ok (redundancy, content) ∧ op = mkOp extents ∧
      (redundancy.Placeable → content.length < 2 ^ 32 → ExtentsSound (w', p') extents content) := by
  obtain ⟨redundancy, content, hplan, hend⟩ := prepareExtents_stores hok h
  refine ⟨redundancy, content, ?_⟩
  rcases hend with ⟨rfl, rfl⟩ | ⟨hne, ids, replicas, hplace, hids, hstored, rfl⟩
  · exact ⟨[], hplan, rfl, fun _ _ => .empty⟩
  · refine ⟨_, hplan, rfl, fun hscheme hsmall => ?_⟩
    refine .whole rfl ?_ (replicas_of_place hscheme hplace hids hstored)
    show (UInt32.ofNat content.length).toNat = content.length
    rw [UInt32.toNat_ofNat', Nat.mod_eq_of_lt hsmall]

end Pool

end Tartine
