import Tartine.Fuse.Immutability
import Tartine.Fuse.Mirror
import Tartine.Fuse.TableInvariant
import Tartine.Meta.WholeFile

/-!
# `Fuse.Refinement` — the daemon serves the file system

Every reply of a mounted daemon on disks that do not fail is the reply of the file system of `Fuse.FileSystem`, whatever
the clients ask and in whatever order: lookups, attributes, creations, removals, reads, writes, listings and the four
control commands. What the daemon and the file system do not share stays invisible: logs, tables, replicas, cursors.

Two limits of the daemon are assumed of the requests (`Limited`): no policy without slots is set, and no write that is
granted ends at or past `2^32`. A third is assumed of where the session ends: the log is within its region.

* `Tells.followed`, `create_followed`, … — one request, by its handler, and `handle_followed` for any;
* `daemon_simulates` — so the file system simulates the daemon;
* `replies_refine` — and what the clients of a session were told is what the file system tells.
-/

namespace Tartine.Fuse

open Basis Codec Pool

variable {env : Env} {ord : IterOrder} {w w' w₁ : World} {p p' p₁ : Pool} {s : FileSystem} {n : Nat} {ino i : InodeId}
  {rec rec' : InodeRecord} {f : File} {req : Request} {r : Res Errno Reply}

/-- The file system can follow a request: it gives the same reply, and the pool goes on mirroring it. -/
def Followed (n : Nat) (s : FileSystem) (req : Request) (r : Res Errno Reply) (w' : World) (p' : Pool) : Prop :=
  ∃ s', s.Serves n (req, r) s' ∧ Mirrors n w' p' s'

/-! ## Requests that change nothing -/

theorem reads_ok {α : Type} {g : World × Pool → Res Errno α} {a : α} (hg : g (w, p) = .ok a) :
    (Action.reads g : FuseM α) (w, p) = (.ok a, w, p) := Action.reads_eq_ok.mpr ⟨hg, rfl⟩

theorem reads_err {α : Type} {g : World × Pool → Res Errno α} {e : Errno} (hg : g (w, p) = .err e) :
    (Action.reads g : FuseM α) (w, p) = (.err e, w, p) := Action.reads_eq_err.mpr ⟨hg, rfl⟩

/-- The reply of a request that leaves the file system as it was. -/
def Tells (n : Nat) (s : FileSystem) (req : Request) (r : Res Errno Reply) : Prop :=
  (∃ a, r = .ok a ∧ s.request n req = .ok (a, s)) ∨ ∃ e, r = .err e ∧ s.request n req = .err e

theorem Tells.followed (h : Tells n s req r) (hm : Mirrors n w p s) (hs : (w', p') = (w, p)) :
    Followed n s req r w' p' := by
  obtain ⟨rfl, rfl⟩ := Prod.mk.inj hs
  rcases h with ⟨a, rfl, hreq⟩ | ⟨e, rfl, hreq⟩
  · exact ⟨s, .granted hreq, hm⟩
  · exact ⟨s, .refused hreq, hm⟩

theorem inodeOf_file (hget : p.getInode i = .ok (some rec)) : inodeOf i (w, p) = (.ok rec, w, p) := by
  refine reads_ok ?_
  dsimp only
  rw [hget]

theorem inodeOf_absent (hget : p.getInode i = .ok none) : inodeOf i (w, p) = (.err .enoent, w, p) := by
  refine reads_err ?_
  dsimp only
  rw [hget]

theorem find_file (hf : s.file i = some f) : s.find i = .ok f := by
  unfold FileSystem.find
  rw [hf]

theorem find_absent (hf : s.file i = none) : s.find i = .err .enoent := by
  unfold FileSystem.find
  rw [hf]

theorem fileTypeOf_eq (hrec : f.Recorded rec) : fileTypeOf rec = f.kind := by
  unfold fileTypeOf File.kind
  rw [hrec.unixMode]

/-- The attributes of a record are those of its file. -/
theorem attrReply_eq {reply : FileAttr → Reply} (hrec : f.Recorded rec) (hino : rec.inode = i)
    (hsound : RecordSound (w, p) rec f.content) (h : attrReply rec reply (w₁, p₁) = (r, w', p')) (hr : r ≠ .panic) :
    r = .ok (reply (f.attr i)) ∧ (w', p') = (w₁, p₁) := by
  obtain ⟨hres, hs⟩ := Prod.mk.inj h
  refine ⟨?_, hs.symm⟩
  dsimp only at hres
  unfold attrOf at hres
  split at hres
  · exact absurd hres.symm hr
  · rw [← hres]
    simp only [Res.ok_bind, Res.pure_eq, File.attr, fileTypeOf_eq hrec, hino, hsound.size_eq, hrec.time, hrec.unixMode,
      hrec.uid, hrec.gid]
    rw [size_of_sound hsound]

theorem getattr_tells (hm : Mirrors n w p s) (h : getattr ino (w, p) = (r, w', p')) (hr : r ≠ .panic) :
    Tells n s (.getattr ino) r ∧ (w', p') = (w, p) := by
  cases hm.find ino with
  | file hget hfile hrec hhas hsound =>
      rw [getattr, Action.bind_of_ok (inodeOf_file hget)] at h
      obtain ⟨rfl, hs⟩ := attrReply_eq hrec hhas.inode_eq hsound h hr
      refine ⟨Or.inl ⟨_, rfl, ?_⟩, hs⟩
      simp [FileSystem.request, find_file hfile]
  | absent hget hfile =>
      rw [getattr, Action.bind_of_err (inodeOf_absent hget)] at h
      obtain ⟨rfl, hs⟩ := Prod.mk.inj h
      refine ⟨Or.inr ⟨_, rfl, ?_⟩, hs.symm⟩
      simp [FileSystem.request, find_absent hfile]

/-- The size of a record is the size the file system knows. -/
theorem size_iff (hsound : RecordSound (w, p) rec f.content) (size : UInt64) :
    size = rec.size ↔ size.toNat = f.content.length := by
  rw [← hsound.size_eq, UInt64.toNat_inj]

theorem truncateAllowed_eq (hrec : f.Recorded rec) :
    truncateAllowed rec = if f.mode = .writable then .ok () else .err .randomWriteDenied := by
  unfold truncateAllowed
  rw [hrec.mode]
  cases f.mode with
  | appendOnly => rfl
  | converting => rfl
  | writable => rfl

theorem setattr_tells {size : Option UInt64} (hm : Mirrors n w p s) (h : setattr ino size (w, p) = (r, w', p'))
    (hr : r ≠ .panic) : Tells n s (.setattr ino size) r ∧ (w', p') = (w, p) := by
  cases hm.find ino with
  | @file rec f hget hfile hrec hhas hsound =>
      rw [setattr, Action.bind_of_ok (inodeOf_file hget)] at h
      by_cases hsize : f.Resizable size
      · rw [Action.bind_of_ok (reads_ok (a := false) ?_)] at h
        · obtain ⟨rfl, hs⟩ := attrReply_eq hrec hhas.inode_eq hsound h hr
          refine ⟨Or.inl ⟨_, rfl, ?_⟩, hs⟩
          simp [FileSystem.request, find_file hfile, hsize]
        · cases size with
          | none => rfl
          | some size =>
              by_cases heq : size = rec.size
              · simp only [if_pos heq]
              · have hw : f.mode = .writable := hsize.resolve_left (fun h => heq ((size_iff hsound size).mpr h))
                simp only [if_neg heq, truncateAllowed_eq hrec, if_pos hw]
      · rw [Action.bind_of_ok (reads_ok (a := true) ?_)] at h
        · obtain ⟨rfl, hs⟩ := Prod.mk.inj h
          refine ⟨Or.inr ⟨_, rfl, ?_⟩, hs.symm⟩
          simp [FileSystem.request, find_file hfile, hsize]
        · cases size with
          | none => exact absurd trivial hsize
          | some size =>
              obtain ⟨hne, hw⟩ := not_or.mp hsize
              simp only [if_neg (mt (size_iff hsound size).mp hne), truncateAllowed_eq hrec, if_neg hw]
  | absent hget hfile =>
      rw [setattr, Action.bind_of_err (inodeOf_absent hget)] at h
      obtain ⟨rfl, hs⟩ := Prod.mk.inj h
      refine ⟨Or.inr ⟨_, rfl, ?_⟩, hs.symm⟩
      simp [FileSystem.request, find_absent hfile]

theorem read_tells {offset : UInt64} {size : UInt32} (hm : Mirrors n w p s) (h : read ino offset size (w, p) = (r, w', p'))
    (hr : r ≠ .panic) : Tells n s (.read ino offset size) r ∧ (w', p') = (w, p) := by
  have hread : p.read w ino offset size.toUInt64 =
      match s.file ino with
      | some f => .ok (window f.content offset size.toUInt64)
      | none   => .err .notFound := by
    cases hm.find ino with
    | @file rec f hget hfile hrec hhas hsound =>
        have hlen : f.content.length < 2 ^ 64 := hsound.size_eq ▸ rec.size.toNat_lt
        rw [hfile]
        exact read_of_content hhas (readFullContent_of_sound hsound) hlen offset size.toUInt64
    | absent hget hfile =>
        rw [hfile]
        unfold Pool.read findInode
        rw [hget]
        rfl
  rcases Action.returns_cases h hr with ⟨bytes, hx, rfl⟩ | ⟨e, hx, rfl⟩
  · obtain ⟨hx, hs⟩ := Action.reads_eq_ok.mp (Action.mapErr_eq_ok.mp hx)
    refine ⟨Or.inl ⟨_, rfl, ?_⟩, hs⟩
    have hx := hread.symm.trans hx
    cases hfile : s.file ino with
    | some f =>
        rw [hfile] at hx
        obtain rfl := Res.ok.inj hx
        simp [FileSystem.request, find_file hfile]
    | none =>
        rw [hfile] at hx
        cases hx
  · obtain ⟨e', hx', rfl⟩ := Action.mapErr_eq_err.mp hx
    obtain ⟨herr, hs⟩ := Action.reads_eq_err.mp hx'
    refine ⟨Or.inr ⟨_, rfl, ?_⟩, hs⟩
    have herr := hread.symm.trans herr
    cases hfile : s.file ino with
    | some f =>
        rw [hfile] at herr
        cases herr
    | none =>
        rw [hfile] at herr
        obtain rfl := Res.err.inj herr
        simp [FileSystem.request, find_absent hfile, errnoFor]

/-- A name is decoded alike. -/
theorem nameStr_eq (name : Bytes) (a : World × Pool) : nameStr name a = (FileSystem.decodeName name, a) := rfl

theorem decodeName_ne_panic (name : Bytes) : FileSystem.decodeName name ≠ .panic := by
  unfold FileSystem.decodeName
  split
  · simp
  · simp

theorem lookup_tells {parent : InodeId} {name : Bytes} (hm : Mirrors n w p s) (h : lookup parent name (w, p) = (r, w', p'))
    (hr : r ≠ .panic) : Tells n s (.lookup parent name) r ∧ (w', p') = (w, p) := by
  cases hname : FileSystem.decodeName name with
  | ok name' =>
      rw [lookup, Action.bind_of_ok ((nameStr_eq name (w, p)).trans (by rw [hname]))] at h
      cases hchild : (s.names parent)[name']? with
      | none =>
          have hlook : p.metaStore.view.lookup parent name' = none := (hm.names.lookup parent name').trans hchild
          rw [Action.bind_of_err (reads_err (e := .enoent) (by simp only [hlook]))] at h
          obtain ⟨rfl, hs⟩ := Prod.mk.inj h
          refine ⟨Or.inr ⟨_, rfl, ?_⟩, hs.symm⟩
          simp [FileSystem.request, FileSystem.child, hname, hchild]
      | some child =>
          have hlook : p.metaStore.view.lookup parent name' = some child := (hm.names.lookup parent name').trans hchild
          cases hm.find child with
          | @file rec f hget hfile hrec hhas hsound =>
              rw [Action.bind_of_ok (reads_ok (a := rec) (by simp only [hlook, recordOf, hget]))] at h
              obtain ⟨rfl, hs⟩ := attrReply_eq hrec hhas.inode_eq hsound h hr
              refine ⟨Or.inl ⟨_, rfl, ?_⟩, hs⟩
              simp [FileSystem.request, FileSystem.child, hname, hchild, hfile]
          | absent hget hfile =>
              rw [Action.bind_of_err (reads_err (e := .eio) (by simp only [hlook, recordOf, hget]))] at h
              obtain ⟨rfl, hs⟩ := Prod.mk.inj h
              refine ⟨Or.inr ⟨_, rfl, ?_⟩, hs.symm⟩
              simp [FileSystem.request, FileSystem.child, hname, hchild, hfile]
  | err e =>
      rw [lookup, Action.bind_of_err ((nameStr_eq name (w, p)).trans (by rw [hname]))] at h
      obtain ⟨rfl, hs⟩ := Prod.mk.inj h
      refine ⟨Or.inr ⟨_, rfl, ?_⟩, hs.symm⟩
      simp [FileSystem.request, hname]
  | panic => exact absurd hname (decodeName_ne_panic name)

theorem readdir_tells {offset : UInt64} {room : Nat} (hm : Mirrors n w p s)
    (h : readdir ino offset room (w, p) = (r, w', p')) : Tells n s (.readdir ino offset room) r ∧ (w', p') = (w, p) := by
  obtain ⟨hres, hs⟩ := Prod.mk.inj h
  refine ⟨Or.inl ⟨_, ?_, rfl⟩, hs.symm⟩
  rw [← hres]
  simp only [hm.names.readdir ino]
  rw [Basis.Res.mapM_eq_map (g := fun c => (c.2, ((s.file c.2).map File.kind).getD .regularFile, c.1))]
  · rfl
  · rintro ⟨name, child⟩ -
    cases hm.find child with
    | file hget hfile hrec hhas hsound => simp only [hget, hfile, Option.map_some, Option.getD_some, fileTypeOf_eq hrec]
    | absent hget hfile => simp only [hget, hfile, Option.map_none, Option.getD_none]

/-! ## Requests that change something -/

/-- A call without a value, and the reply to it. -/
theorem reply_cases {x : PoolM Unit} {g : PoolError → Errno} {reply : Reply}
    (h : (do Action.mapErr g x; pure reply : FuseM Reply) (w, p) = (r, w', p')) (hr : r ≠ .panic) :
    (r = .ok reply ∧ unitVal x (w, p) = (.ok .unit, w', p')) ∨
      ∃ e, r = .err (g e) ∧ unitVal x (w, p) = (.err e, w', p') := by
  rcases Action.returns_cases h hr with ⟨u, hx, rfl⟩ | ⟨e, hx, rfl⟩
  · exact Or.inl ⟨rfl, Action.bind_of_ok (Action.mapErr_eq_ok.mp hx)⟩
  · obtain ⟨e', hx', rfl⟩ := Action.mapErr_eq_err.mp hx
    exact Or.inr ⟨e', rfl, Action.bind_of_err hx'⟩

/-- What healthy disks make of a metadata operation: it fails only where the tables refuse it. -/
theorem applyMeta_refused {mop : MetaOp} {e : PoolError}
    (h : unitVal (applyMeta (Env.healthy ord) mop) (w, p) = (.err e, w', p')) :
    ∃ e', e = .metaErr e' ∧ p.metaStore.view.applyLocally mop = .err e' := by
  obtain ⟨q, hx, -, ⟨-, he⟩ | ⟨e₁, rfl, he⟩⟩ := unitVal_cases h (by simp)
  · cases he
  · obtain rfl := Res.err.inj he
    obtain ⟨q, s', happly, hq, -⟩ := applyMeta_cases hx
    obtain ⟨e', rfl, rfl⟩ := Res.mapErr_eq_err.mp hq.symm
    exact ⟨e', rfl, MetaStore.applyLocally_of_refused happly⟩

/-- Where a write that was granted ends. -/
def grantedEnd : Request × Res Errno Reply → Nat
  | (.write _ offset data, .ok _) => offset.toNat + data.length
  | _                             => 0

/-- The limits a session keeps: no policy without slots, and no write that is granted past `2^32`. -/
def Limited (e : Request × Res Errno Reply) : Prop := e.1.Slotted ∧ grantedEnd e < 2 ^ 32

instance : DecidablePred Limited := fun _ => inferInstanceAs (Decidable (_ ∧ _))

theorem unlink_followed {parent : InodeId} {name : Bytes} (hm : Mirrors n w p s)
    (h : unlink (Env.healthy ord) parent name (w, p) = (r, w', p')) (hr : r ≠ .panic)
    (hlog : p'.metaStore.walCursor ≤ Wal.walCapacityBytes) : Followed n s (.unlink parent name) r w' p' := by
  cases hname : FileSystem.decodeName name with
  | ok name' =>
      rw [unlink, Action.bind_of_ok ((nameStr_eq name (w, p)).trans (by rw [hname]))] at h
      rcases reply_cases h hr with ⟨rfl, hx⟩ | ⟨e, -, hx⟩
      · have hstep : Pool.step (Env.healthy ord) (.unlink parent name') (w, p) = (.ok .unit, w', p') := hx
        have hfit := fits_of_cursor_le hm.sound.wf hstep (by simp) hlog
        have hsound : Sound w' p' s.contents := hm.sound.step hm.small (show SchemeOk (.unlink _ _) from trivial) hfit hstep
          (by simp) hm.small
        refine ⟨s.remove parent name', .granted ?_, hm.unlink hfit hstep hsound⟩
        simp [FileSystem.request, hname]
      · obtain ⟨e', -, hview⟩ := applyMeta_refused hx
        cases hview
  | err e =>
      rw [unlink, Action.bind_of_err ((nameStr_eq name (w, p)).trans (by rw [hname]))] at h
      obtain ⟨rfl, hs⟩ := Prod.mk.inj h
      refine Tells.followed (Or.inr ⟨_, rfl, ?_⟩) hm hs.symm
      simp [FileSystem.request, hname]
  | panic => exact absurd hname (decodeName_ne_panic name)

theorem placeable_default (n : Nat) : (defaultRedundancy n).Placeable := by
  show 1 ≤ (List.replicate _ _).length ∧ (List.replicate _ _).length ≤ 16
  rw [List.length_replicate]
  omega

theorem create_followed {parent : InodeId} {name : Bytes} {mode uid gid : UInt32} {now : UInt64} (hm : Mirrors n w p s)
    (h : create (Env.healthy ord) parent name mode uid gid now (w, p) = (r, w', p')) (hr : r ≠ .panic)
    (hlog : p'.metaStore.walCursor ≤ Wal.walCapacityBytes) :
    Followed n s (.create parent name mode uid gid now) r w' p' := by
  cases hname : FileSystem.decodeName name with
  | ok name' =>
      rw [create, Action.bind_of_ok ((nameStr_eq name (w, p)).trans (by rw [hname]))] at h
      have hlook : (p.metaStore.view.lookup parent name').isSome ↔ name' ∈ s.names parent := by
        rw [hm.names.lookup, Std.ExtTreeMap.mem_iff_isSome_getElem?]
      by_cases hexists : name' ∈ s.names parent
      · rw [Action.bind_of_err (reads_err (e := .eexist) (by simp only [hlook, hexists, if_true]))] at h
        obtain ⟨rfl, hs⟩ := Prod.mk.inj h
        refine Tells.followed (Or.inr ⟨_, rfl, ?_⟩) hm hs.symm
        simp [FileSystem.request, hname, hexists]
      · rw [Action.bind_of_ok (reads_ok (a := ()) (by simp only [hlook, hexists, if_false]))] at h
        dsimp only at h
        rw [Action.bind_of_ok
          (reads_ok (a := defaultRedundancy n) (by rw [defaultRedundancy_diskCount hm.disks_pos hm.disks]))] at h
        rcases Action.bind_cases h with ⟨id, ⟨w₁, p₁⟩, hcreate, h⟩ | ⟨e, hcreate, rfl⟩ | ⟨-, rfl⟩
        · have hcreate := Action.mapErr_eq_ok.mp hcreate
          -- the reply is read off the file just created
          have hsame : (w', p') = (w₁, p₁) := by
            have hsame := keeps_created id (w₁, p₁)
            rwa [h] at hsame
          obtain ⟨rfl, rfl⟩ := Prod.mk.inj hsame
          have hstep : Pool.step (Env.healthy ord) (.createFile parent name' (defaultRedundancy n) uid gid
              (sIfreg ||| (mode &&& 0o7777)) now) (w, p) = (.ok (.inode id), w', p') := Action.bind_of_ok hcreate
          have hfit := fits_of_cursor_le hm.sound.wf hstep (by simp) hlog
          obtain ⟨rfl, hm'⟩ := hm.createFile (placeable_default n) hfit hcreate
          cases hm'.find s.next with
          | @file rec f hget hfile hrec hhas hsound =>
              rw [Action.bind_of_ok (reads_ok (a := rec) (by simp only [recordOf, hget]))] at h
              obtain ⟨rfl, -⟩ := attrReply_eq hrec hhas.inode_eq hsound h hr
              obtain rfl := Option.some.inj ((s.add_file_next parent name' _).symm.trans hfile)
              refine ⟨_, .granted ?_, hm'⟩
              simp [FileSystem.request, hname, hexists, newFile]
          | absent hget hfile => cases (s.add_file_next parent name' _).symm.trans hfile
        · obtain ⟨e', hcreate', -⟩ := Action.mapErr_eq_err.mp hcreate
          exact absurd (congrArg Prod.fst hcreate') createFile_ne_err
        · exact absurd rfl hr
  | err e =>
      rw [create, Action.bind_of_err ((nameStr_eq name (w, p)).trans (by rw [hname]))] at h
      obtain ⟨rfl, hs⟩ := Prod.mk.inj h
      refine Tells.followed (Or.inr ⟨_, rfl, ?_⟩) hm hs.symm
      simp [FileSystem.request, hname]
  | panic => exact absurd hname (decodeName_ne_panic name)

/-! ## Requests about one file -/

/-- What a data phase hands over for an append. -/
theorem hands_append {data : Bytes} {mop : MetaOp} (h : Hands env w p (.append i data) mop w₁ p₁) :
    ∃ chunk, mop = .appendChunk i chunk := by
  cases h with
  | phase hop hx =>
      rcases dataPhase_eq_ok hop hx with ⟨_, _, chunk, heq, rfl⟩ | ⟨_, _, heq, -⟩ | ⟨_, _, _, _, heq, -⟩
      · cases heq
        exact ⟨chunk, rfl⟩
      · cases heq
      · cases heq

theorem hands_write {offset : UInt64} {data : Bytes} {mop : MetaOp} (h : Hands env w p (.write i offset data) mop w₁ p₁) :
    ∃ xs, mop = .updateExtents i xs := by
  cases h with
  | phase hop hx =>
      rcases dataPhase_eq_ok hop hx with ⟨_, _, _, heq, -⟩ | ⟨_, _, heq, -⟩ | ⟨_, _, _, xs, heq, rfl⟩
      · cases heq
      · cases heq
      · cases heq
        exact ⟨xs, rfl⟩

theorem hands_completeConvert {mop : MetaOp} (h : Hands env w p (.completeConvert i) mop w₁ p₁) :
    ∃ xs, mop = .completeConvert i xs := by
  cases h with
  | phase hop hx =>
      rcases dataPhase_eq_ok hop hx with ⟨_, _, _, heq, -⟩ | ⟨_, xs, heq, rfl⟩ | ⟨_, _, _, _, heq, -⟩
      · cases heq
      · cases heq
        exact ⟨xs, rfl⟩
      · cases heq

/-- The record before an operation that reads it. -/
theorem recorded_of_read {rec₀ : InodeRecord} (hhas : p.metaStore.view.Has i rec)
    (hread : p.metaStore.view.readInode i = .ok rec₀) : rec₀ = rec :=
  Res.ok.inj (hread.symm.trans hhas.readInode_eq)

theorem contents_setContent {content : Bytes} (hfile : s.file i = some f) :
    (s.modify i (.setContent content)).contents = Function.update s.contents i (some content) := by
  rw [FileSystem.contents_modify, hfile]
  rfl

/-- A write that is granted, of either kind: the record gets another locator and another size. -/
theorem write_granted {op : PoolOp} {content : Bytes} {v : PoolVal} (hm : Mirrors n w p s) (hfile : s.file i = some f)
    (ht : op.target = some i) (hscheme : SchemeOk op)
    (hafter : s.contents.after op (.ok v) = Function.update s.contents i (some content)) (hlen : content.length < 2 ^ 32)
    (hstored : ∀ mop w₁ p₁ rec', Hands (Env.healthy ord) w p op mop w₁ p₁ → p.metaStore.view.RecStep mop rec' →
      ∃ rec data size, p.metaStore.view.readInode i = .ok rec ∧ rec' = { rec with data := data, size := size })
    (h : Pool.step (Env.healthy ord) op (w, p) = (.ok v, w', p')) (hlog : p'.metaStore.walCursor ≤ Wal.walCapacityBytes) :
    Mirrors n w' p' (s.modify i (.setContent content)) := by
  have hfit := fits_of_cursor_le hm.sound.wf h (by simp) hlog
  have hsmall := small_update (i := i) hm.small hlen
  have hsound := hm.sound.step hm.small hscheme hfit h (by simp) (hafter ▸ hsmall)
  rw [hafter] at hsound
  rw [← contents_setContent hfile] at hsound hsmall
  refine hm.modify ht hfit h hsound hsmall ?_
  rintro mop rec rec' g hhas hstep ⟨w₁, p₁, hh⟩ hrec
  obtain ⟨rec₀, data, size, hread, rfl⟩ := hstored mop w₁ p₁ rec' hh hstep
  obtain rfl := recorded_of_read hhas hread
  exact ⟨hrec.mode, hrec.redundancy, hrec.uid, hrec.gid, hrec.unixMode, hrec.time⟩

theorem append_granted {data : Bytes} {v : PoolVal} (hm : Mirrors n w p s) (hfile : s.file i = some f)
    (hlen : (f.content ++ data).length < 2 ^ 32)
    (h : Pool.step (Env.healthy ord) (.append i data) (w, p) = (.ok v, w', p'))
    (hlog : p'.metaStore.walCursor ≤ Wal.walCapacityBytes) :
    Mirrors n w' p' (s.modify i (.setContent (f.content ++ data))) := by
  refine write_granted hm hfile rfl (show SchemeOk (.append _ _) from trivial) ?_ hlen ?_ h hlog
  · rw [Files.after, contents_of_file hfile]
    rfl
  · intro mop w₁ p₁ rec' hh hstep
    obtain ⟨chunk, rfl⟩ := hands_append hh
    cases hstep with
    | appendChunk hread hdata hsize => exact ⟨_, _, _, hread, rfl⟩

theorem overwrite_granted {offset : UInt64} {data : Bytes} {v : PoolVal} (hm : Mirrors n w p s) (hfile : s.file i = some f)
    (hlen : (overwrite f.content offset.toNat data).length < 2 ^ 32)
    (h : Pool.step (Env.healthy ord) (.write i offset data) (w, p) = (.ok v, w', p'))
    (hlog : p'.metaStore.walCursor ≤ Wal.walCapacityBytes) :
    Mirrors n w' p' (s.modify i (.setContent (overwrite f.content offset.toNat data))) := by
  refine write_granted hm hfile rfl (show SchemeOk (.write _ _ _) from trivial) ?_ hlen ?_ h hlog
  · rw [Files.after, contents_of_file hfile]
    rfl
  · intro mop w₁ p₁ rec' hh hstep
    obtain ⟨xs, rfl⟩ := hands_write hh
    cases hstep with
    | updateExtents hread hmode hends => exact ⟨_, _, _, hread, rfl⟩

/-! ## Calls that find no room -/

section Errors

variable {E : PoolError → Prop} {plan : World → Pool → Res PoolError (RedundancyScheme × Bytes)}
  {mkOp : List Extent → MetaOp}

/-- The errors of the replica loop: a disk that is not there, or those of one disk's turn. -/
theorem raises_replicaLoop {writeOne : World → DiskHandle → Res PoolError Nat × World} (hnone : E .unplaceable)
    (hone : ∀ w h e w', writeOne w h = (.err e, w') → E e) (ids : List DiskId) :
    Action.Raises E (writeReplicas writeOne ids) := by
  have hturn : ∀ id, Action.Raises E (writeReplica writeOne id) := by
    rintro id ⟨w, p⟩ e s' h
    unfold writeReplica at h
    dsimp only at h
    split at h
    · obtain rfl := Res.err.inj (Prod.mk.inj h).1
      exact hnone
    · split at h
      · rename_i e' w' hw
        obtain rfl := Res.err.inj (Prod.mk.inj h).1
        exact hone _ _ _ _ hw
      · cases (Prod.mk.inj h).1
      · cases (Prod.mk.inj h).1
  induction ids with
  | nil => exact Action.raises_pure _
  | cons id ids ih => exact (hturn id).bind (fun _ => ih.bind (fun _ => Action.raises_pure _))

/-- On disks that do not fail, a rewrite fails for want of disks only. -/
theorem unplaceable_of_rewrite {op : PoolOp} {e : PoolError} (hok : HandlesOk p)
    (hop : dataPhase (Env.healthy ord) op = some (prepareExtents (Env.healthy ord) i plan mkOp))
    (hplan : ∀ e, plan w p ≠ .err e)
    (htakes : ∀ content xs, WholeExtent content xs → ∃ u, p.metaStore.view.applyLocally (mkOp xs) = .ok u)
    (h : Pool.step (Env.healthy ord) op (w, p) = (.err e, w', p')) : e = .unplaceable := by
  rcases step_cases h (by simp) with ⟨⟨_, _, _, rfl⟩, -⟩ | ⟨x, e', hx, hphase, he⟩ | ⟨mop, w₁, p₁, q, s', hh, happly, -, hcl⟩
  · cases hop
  · obtain rfl := Res.err.inj he
    obtain rfl := Option.some.inj (hop.symm.trans hx)
    rcases Action.bind_cases hphase with ⟨⟨scheme, content⟩, s₁, hread, hphase⟩ | ⟨e', hread, -⟩ | ⟨-, he⟩
    · have hraises : Action.Raises (· = .unplaceable)
          (writeWholeFileExtent (Env.healthy ord) i scheme 0 content >>= fun xs => pure (mkOp xs)) := by
        refine Action.Raises.bind ?_ (fun _ => Action.raises_pure _)
        unfold writeWholeFileExtent
        split
        · exact Action.raises_pure _
        · refine Action.Raises.bind (fun s e s' h => place_err (Prod.mk.inj h).1) (fun ids => ?_)
          refine (raises_replicaLoop (E := (· = .unplaceable)) rfl ?_ ids).bind (fun _ => Action.raises_pure _)
          exact fun w handle e w' hone => absurd hone (storeExtent_ne_err rfl)
      exact hraises s₁ e _ hphase
    · exact absurd (Action.reads_eq_err.mp hread).1 (hplan e')
    · cases he
  · cases hcl with
    | refused e' =>
        cases hh with
        | phase hx hphase =>
            obtain rfl := Option.some.inj (hop.symm.trans hx)
            rw [metaStore_of_dataPhase hx hphase] at happly
            obtain ⟨_, content, xs, -, hxs, rfl, -⟩ := prepareExtents_whole hok hphase
            obtain ⟨u, hu⟩ := htakes content xs hxs
            cases hu.symm.trans (MetaStore.applyLocally_of_refused happly)
        | _ => cases hop

/-- An append fails for want of disks, or of room on one. -/
theorem errno_of_append {content data : Bytes} {e : PoolError} (hhas : p.metaStore.view.Has i rec)
    (hmode : rec.mode ≠ .writable) (hsound : RecordSound (w, p) rec content)
    (h : Pool.step env (.append i data) (w, p) = (.err e, w', p')) : errnoFor e = .enospc ∨ errnoFor e = .eio := by
  rcases step_cases h (by simp) with ⟨⟨_, _, _, hop⟩, -⟩ | ⟨x, e', hx, hphase, he⟩ | ⟨mop, w₁, p₁, q, s', hh, happly, -, hcl⟩
  · cases hop
  · obtain rfl := Res.err.inj he
    obtain rfl := Option.some.inj hx
    have hfind : p.findInode i = .ok rec := findInode_of_getInode (getInode_of_view hhas.getInode_eq)
    have hready : ¬(rec.mode ≠ .appendOnly ∧ rec.mode ≠ .converting) := by
      cases hm : rec.mode with
      | writable => exact absurd hm hmode
      | _ => simp
    rcases Action.bind_cases hphase with ⟨⟨seq, ids⟩, s₁, -, hphase⟩ | ⟨e', hread, he⟩ | ⟨-, he⟩
    · have hraises : Action.Raises (fun e => errnoFor e = .enospc ∨ errnoFor e = .eio)
          (writeReplicas (appendRecord env (Segment.Record.new i seq data)) ids) :=
        raises_replicaLoop (Or.inl rfl) (fun _ _ _ _ hone => by obtain ⟨_, rfl⟩ := appendRecord_err hone; exact Or.inr rfl) ids
      exact (hraises.bind fun _ => Action.raises_pure _) s₁ e _ hphase
    · obtain rfl := Res.err.inj he
      obtain ⟨hplan, -⟩ := Action.reads_eq_err.mp hread
      dsimp only [planAppend] at hplan
      rw [hfind, Res.ok_bind, if_neg hready] at hplan
      have hlays := hsound.lays
      cases hdata : rec.data with
      | chunkLog chunks =>
          simp only [hdata] at hplan
          rcases Res.bind_eq_err.mp hplan with hplace | ⟨ids, -, hpure⟩
          · rw [place_err hplace]
            exact Or.inl rfl
          · cases hpure
      | extents xs =>
          rw [hdata] at hlays
          generalize rec.mode = mode at hlays hmode
          cases hlays
          exact absurd rfl hmode
    · cases he
  · cases hcl with
    | refused e' => exact Or.inr rfl

end Errors

/-! ## Writes -/

theorem request_write {offset : UInt64} {data : Bytes} (hfile : s.file ino = some f) :
    s.request n (.write ino offset data) = (f.written offset data >>= fun content =>
      .ok (.written (UInt32.ofNat data.length), s.modify ino (.setContent content))) := by
  simp [FileSystem.request, find_file hfile]

/-- The call a write comes down to, and the content it leaves. -/
inductive Writes (ino : InodeId) (f : File) (offset : UInt64) (data : Bytes) : PoolOp → Bytes → Prop where
  | append (hmode : f.mode ≠ .writable) (hend : offset.toNat = f.content.length) :
      Writes ino f offset data (.append ino data) (f.content ++ data)
  | overwrite (hmode : f.mode = .writable) :
      Writes ino f offset data (.write ino offset data) (Tartine.overwrite f.content offset.toNat data)

theorem Writes.written {offset : UInt64} {data content : Bytes} {op : PoolOp} (h : Writes ino f offset data op content) :
    f.written offset data = .ok content := by
  unfold File.written
  cases h with
  | append hmode hend =>
      cases hm : f.mode with
      | appendOnly => exact if_pos hend
      | converting => exact if_pos hend
      | writable => exact absurd hm hmode
  | overwrite hmode => rw [hmode]

theorem request_of_writes {offset : UInt64} {data content : Bytes} {op : PoolOp} (hfile : s.file ino = some f)
    (h : Writes ino f offset data op content) : s.request n (.write ino offset data) =
      .ok (.written (UInt32.ofNat data.length), s.modify ino (.setContent content)) := by
  rw [request_write hfile, h.written]
  rfl

/-- **A write is refused as the file system refuses it, or it is one call of the pool.** -/
theorem write_cases {offset : UInt64} {data : Bytes} (hm : Mirrors n w p s)
    (h : write env ino offset data (w, p) = (r, w', p')) (hr : r ≠ .panic) :
    (Tells n s (.write ino offset data) r ∧ (w', p') = (w, p)) ∨
    ∃ rec f op content, s.file ino = some f ∧ p.metaStore.view.Has ino rec ∧ f.Recorded rec ∧
      RecordSound (w, p) rec f.content ∧ Writes ino f offset data op content ∧
      ((r = .ok (.written (UInt32.ofNat data.length)) ∧ Pool.step env op (w, p) = (.ok .unit, w', p')) ∨
        ∃ e, r = .err (errnoFor e) ∧ Pool.step env op (w, p) = (.err e, w', p')) := by
  cases hm.find ino with
  | @file rec f hget hfile hrec hhas hsound =>
      rw [write, Action.bind_of_ok (inodeOf_file hget)] at h
      have hrefused : ∀ e : Errno, f.written offset data = .err e →
          (Action.reads fun _ => .err e : FuseM Reply) (w, p) = (r, w', p') →
          Tells n s (.write ino offset data) r ∧ (w', p') = (w, p) := by
        intro e he h
        obtain ⟨rfl, hs⟩ := Prod.mk.inj h
        refine ⟨Or.inr ⟨_, rfl, ?_⟩, hs.symm⟩
        rw [request_write hfile, he]
        rfl
      have hoffset := size_iff hsound offset
      have happend : rec.mode ≠ .writable → offset = rec.size → Writes ino f offset data (.append ino data) (f.content ++ data) :=
        fun hmode hend => .append (hrec.mode ▸ hmode) (hoffset.mp hend)
      -- the classifier decides by the mode, and in the first two modes by the offset
      rw [classifyWrite_eq] at h
      cases hmode : rec.mode with
      | appendOnly =>
          by_cases hend : offset = rec.size
          · simp only [hmode, if_pos hend] at h
            exact Or.inr ⟨rec, f, _, _, hfile, hhas, hrec, hsound, happend (by simp [hmode]) hend, reply_cases h hr⟩
          · simp only [hmode, if_neg hend] at h
            refine Or.inl (hrefused .eperm ?_ h)
            unfold File.written
            rw [← hrec.mode, hmode]
            exact if_neg (mt hoffset.mpr hend)
      | converting =>
          by_cases hend : offset = rec.size
          · simp only [hmode, if_pos hend] at h
            exact Or.inr ⟨rec, f, _, _, hfile, hhas, hrec, hsound, happend (by simp [hmode]) hend, reply_cases h hr⟩
          · simp only [hmode, if_neg hend] at h
            refine Or.inl (hrefused .eagain ?_ h)
            unfold File.written
            rw [← hrec.mode, hmode]
            exact if_neg (mt hoffset.mpr hend)
      | writable =>
          simp only [hmode] at h
          have hwrites : Writes ino f offset data _ _ := .overwrite (hrec.mode ▸ hmode)
          exact Or.inr ⟨rec, f, _, _, hfile, hhas, hrec, hsound, hwrites, reply_cases h hr⟩
  | absent hget hfile =>
      rw [write, Action.bind_of_err (inodeOf_absent hget)] at h
      obtain ⟨rfl, hs⟩ := Prod.mk.inj h
      refine Or.inl ⟨Or.inr ⟨_, rfl, ?_⟩, hs.symm⟩
      simp [FileSystem.request, find_absent hfile]

/-- A write that was granted. -/
theorem Writes.granted {offset : UInt64} {data content : Bytes} {op : PoolOp} {v : PoolVal}
    (hwrites : Writes ino f offset data op content) (hm : Mirrors n w p s) (hfile : s.file ino = some f)
    (hend : offset.toNat + data.length < 2 ^ 32) (h : Pool.step (Env.healthy ord) op (w, p) = (.ok v, w', p'))
    (hlog : p'.metaStore.walCursor ≤ Wal.walCapacityBytes) : Mirrors n w' p' (s.modify ino (.setContent content)) := by
  cases hwrites with
  | append hmode hoffset =>
      refine append_granted hm hfile ?_ h hlog
      rw [List.length_append, ← hoffset]
      exact hend
  | overwrite hmode =>
      refine overwrite_granted hm hfile ?_ h hlog
      have hbefore := hm.small ino f.content (contents_of_file hfile)
      rw [length_overwrite]
      omega

/-- One that was turned away for want of room leaves the file system as it was. -/
theorem Writes.turnedAway {offset : UInt64} {data content : Bytes} {op : PoolOp} {e : PoolError}
    (hwrites : Writes ino f offset data op content) (hm : Mirrors n w p s)
    (h : Pool.step (Env.healthy ord) op (w, p) = (.err e, w', p'))
    (hlog : p'.metaStore.walCursor ≤ Wal.walCapacityBytes) : Mirrors n w' p' s := by
  have hfit := fits_of_cursor_le hm.sound.wf h (by simp) hlog
  have hkept : SchemeOk op ∧ ¬IsCreate op ∧ s.contents.after op (.err e) = s.contents := by
    cases hwrites with
    | append hmode hoffset => exact ⟨trivial, id, rfl⟩
    | overwrite hmode => exact ⟨trivial, id, rfl⟩
  obtain ⟨hscheme, hcreate, hafter⟩ := hkept
  have hsound := hm.sound.step hm.small hscheme hfit h (by simp) (hafter.symm ▸ hm.small)
  rw [hafter] at hsound
  exact hm.keep hcreate hsound hfit h

theorem write_followed {offset : UInt64} {data : Bytes} (hm : Mirrors n w p s)
    (h : write (Env.healthy ord) ino offset data (w, p) = (r, w', p')) (hr : r ≠ .panic)
    (hlog : p'.metaStore.walCursor ≤ Wal.walCapacityBytes) (hlim : Limited (.write ino offset data, r)) :
    Followed n s (.write ino offset data) r w' p' := by
  rcases write_cases hm h hr with ⟨htells, hs⟩ | ⟨rec, f, op, content, hfile, hhas, hrec, hsound, hwrites, hends⟩
  · exact htells.followed hm hs
  · have hreq := request_of_writes (n := n) hfile hwrites
    rcases hends with ⟨rfl, hstep⟩ | ⟨e, rfl, hstep⟩
    · exact ⟨_, .granted hreq, hwrites.granted hm hfile hlim.2 hstep hlog⟩
    · have hm' := hwrites.turnedAway hm hstep hlog
      cases hwrites with
      | append hmode hend =>
          rcases errno_of_append hhas (hrec.mode ▸ hmode) hsound hstep with he | he
          · exact ⟨s, he ▸ .unplaced hreq, hm'⟩
          · exact ⟨s, he ▸ .full hreq hfile hmode, hm'⟩
      | overwrite hmode =>
          have hmode : rec.mode = .writable := hrec.mode.trans hmode
          have hplan : ∀ e, p.planWrite w ino offset data ≠ .err e := by
            intro e
            rw [planWrite_of_content (findInode_of_getInode (getInode_of_view hhas.getInode_eq)) hmode
              (readFullContent_of_sound hsound)]
            split
            · simp
            · simp
          obtain rfl := unplaceable_of_rewrite hm.sound.handles rfl hplan
            (fun content xs hxs => exists_updateExtents hhas hmode hxs) hstep
          exact ⟨s, .unplaced hreq, hm'⟩

/-! ## Control commands -/

theorem contents_of_same {g : File → File} (hg : ∀ f, (g f).content = f.content) : (s.modify i g).contents = s.contents := by
  rw [FileSystem.contents_modify]
  funext j
  by_cases hj : j = i
  · subst hj
    simp [FileSystem.contents, hg]
  · simp [hj]

/-- A number without a record cannot be read. -/
theorem readInode_absent (hget : p.getInode i = .ok none) : ∃ e, p.metaStore.view.readInode i = .err e := by
  have hget : p.metaStore.view.getInode i = .ok none := Res.mapErr_eq_ok.mp hget
  unfold View.getInode at hget
  unfold View.readInode
  split at hget
  · exact ⟨_, rfl⟩
  · split at hget
    · cases hget
    · cases hget

/-- An operation that changes a record and no content. -/
theorem record_granted {op : PoolOp} {g : File → File} {v : PoolVal} (hm : Mirrors n w p s) (ht : op.target = some i)
    (hscheme : SchemeOk op) (hafter : s.contents.after op (.ok v) = s.contents) (hg : ∀ f, (g f).content = f.content)
    (hrec : ∀ mop w₁ p₁ rec rec' f, Hands (Env.healthy ord) w p op mop w₁ p₁ → p.metaStore.view.Has i rec →
      p.metaStore.view.RecStep mop rec' → f.Recorded rec → (g f).Recorded rec')
    (h : Pool.step (Env.healthy ord) op (w, p) = (.ok v, w', p')) (hlog : p'.metaStore.walCursor ≤ Wal.walCapacityBytes) :
    Mirrors n w' p' (s.modify i g) := by
  have hfit := fits_of_cursor_le hm.sound.wf h (by simp) hlog
  have hsame := contents_of_same (s := s) (i := i) hg
  have hsmall : (s.contents.after op (.ok v)).Small := by
    rw [hafter]
    exact hm.small
  have hsound := hm.sound.step hm.small hscheme hfit h (by simp) hsmall
  rw [hafter, ← hsame] at hsound
  refine hm.modify ht hfit h hsound (hsame ▸ hm.small) ?_
  rintro mop rec rec' f hhas hstep ⟨w₁, p₁, hh⟩ hf
  exact hrec mop w₁ p₁ rec rec' f hh hhas hstep hf

/-- A conversion begins with an append-only file. -/
theorem begin_granted {v : PoolVal} (hm : Mirrors n w p s)
    (h : Pool.step (Env.healthy ord) (.beginConvert i) (w, p) = (.ok v, w', p'))
    (hlog : p'.metaStore.walCursor ≤ Wal.walCapacityBytes) :
    ∃ f, s.file i = some f ∧ f.mode = .appendOnly ∧ Mirrors n w' p' (s.modify i (.setMode .converting)) := by
  have hm' : Mirrors n w' p' (s.modify i (.setMode .converting)) := by
    refine record_granted hm rfl (show SchemeOk (.beginConvert _) from trivial) rfl (fun _ => rfl) ?_ h hlog
    intro mop w₁ p₁ rec rec' f hh hhas hstep hrec
    cases hh with
    | phase hop hx => cases hop
    | beginConvert =>
        cases hstep with
        | beginConvert hread hmode =>
            obtain rfl := recorded_of_read hhas hread
            exact ⟨rfl, hrec.redundancy, hrec.uid, hrec.gid, hrec.unixMode, hrec.time⟩
  obtain ⟨r, hx, -, ⟨rfl, -⟩ | ⟨e, -, he⟩⟩ := unitVal_cases h (by simp)
  · obtain ⟨s', happly, -⟩ := applyMeta_eq_ok hx
    obtain ⟨-, hu⟩ := MetaStore.apply_eq_ok hm.sound.wf.2 happly
    obtain ⟨rec₀, hread, hu⟩ := Res.bind_eq_ok.mp hu
    obtain ⟨mode, hmode, -⟩ := Res.bind_eq_ok.mp hu
    cases hm.find i with
    | file hget hfile hrec hhas hsound =>
        obtain rfl := recorded_of_read hhas hread
        exact ⟨_, hfile, hrec.mode ▸ (stepMode_beginConvert.mp hmode).1, hm'⟩
    | absent hget hfile =>
        obtain ⟨e, he⟩ := readInode_absent hget
        cases hread.symm.trans he
  · cases he

theorem begin_refused {e : PoolError} (hm : Mirrors n w p s)
    (h : Pool.step (Env.healthy ord) (.beginConvert i) (w, p) = (.err e, w', p'))
    (hlog : p'.metaStore.walCursor ≤ Wal.walCapacityBytes) :
    (∀ f, s.file i = some f → f.mode ≠ .appendOnly) ∧ Mirrors n w' p' s := by
  have hfit := fits_of_cursor_le hm.sound.wf h (by simp) hlog
  have hsound : Sound w' p' s.contents :=
    hm.sound.step hm.small (show SchemeOk (.beginConvert _) from trivial) hfit h (by simp) hm.small
  refine ⟨fun f hfile hmode => ?_, hm.keep (show ¬IsCreate (.beginConvert _) from id) hsound hfit h⟩
  obtain ⟨e', -, hview⟩ := applyMeta_refused h
  cases hm.find i with
  | file hget hfile' hrec hhas hsound =>
      obtain rfl := Option.some.inj (hfile.symm.trans hfile')
      have hbegin : p.metaStore.view.applyLocally (.beginConvert i) = _ := congrArg (· >>= _) hhas.readInode_eq
      rw [hview, Res.ok_bind, stepMode_beginConvert.mpr ⟨hrec.mode.trans hmode, rfl⟩] at hbegin
      cases hbegin
  | absent hget hfile' => cases hfile.symm.trans hfile'

theorem complete_granted {v : PoolVal} (hm : Mirrors n w p s)
    (h : Pool.step (Env.healthy ord) (.completeConvert i) (w, p) = (.ok v, w', p'))
    (hlog : p'.metaStore.walCursor ≤ Wal.walCapacityBytes) : Mirrors n w' p' (s.modify i (.setMode .writable)) := by
  refine record_granted hm rfl (show SchemeOk (.completeConvert _) from trivial) rfl (fun _ => rfl) ?_ h hlog
  intro mop w₁ p₁ rec rec' f hh hhas hstep hrec
  obtain ⟨xs, rfl⟩ := hands_completeConvert hh
  cases hstep with
  | completeConvert hread hmode =>
      obtain rfl := recorded_of_read hhas hread
      exact ⟨rfl, hrec.redundancy, hrec.uid, hrec.gid, hrec.unixMode, hrec.time⟩

theorem complete_refused {e : PoolError} (hm : Mirrors n w p s) (hfile : s.file i = some f) (hmode : f.mode = .converting)
    (h : Pool.step (Env.healthy ord) (.completeConvert i) (w, p) = (.err e, w', p'))
    (hlog : p'.metaStore.walCursor ≤ Wal.walCapacityBytes) : e = .unplaceable ∧ Mirrors n w' p' s := by
  have hfit := fits_of_cursor_le hm.sound.wf h (by simp) hlog
  have hsound' : Sound w' p' s.contents :=
    hm.sound.step hm.small (show SchemeOk (.completeConvert _) from trivial) hfit h (by simp) hm.small
  refine ⟨?_, hm.keep (show ¬IsCreate (.completeConvert _) from id) hsound' hfit h⟩
  cases hm.find i with
  | @file rec f' hget hfile' hrec hhas hsound =>
      obtain rfl := Option.some.inj (hfile.symm.trans hfile')
      have hconv : rec.mode = .converting := hrec.mode.trans hmode
      have hplan : ∀ e, p.planCompleteConvert w i ≠ .err e := by
        intro e
        unfold planCompleteConvert
        rw [findInode_of_getInode hget, Res.ok_bind, if_neg (not_not.mpr hconv), readFullContent_of_sound hsound]
        simp
      exact unplaceable_of_rewrite hm.sound.handles rfl hplan (fun content xs _ => exists_completeConvert hhas hconv xs) h
  | absent hget hfile' => cases hfile.symm.trans hfile'

/-- A policy is set on any file there is. -/
theorem policy_granted {scheme : RedundancyScheme} {v : PoolVal} (hm : Mirrors n w p s) (hscheme : scheme.Placeable)
    (h : Pool.step (Env.healthy ord) (.setRedundancy i scheme) (w, p) = (.ok v, w', p'))
    (hlog : p'.metaStore.walCursor ≤ Wal.walCapacityBytes) :
    (s.file i).isSome ∧ Mirrors n w' p' (s.modify i (.setPolicy scheme)) := by
  have hm' : Mirrors n w' p' (s.modify i (.setPolicy scheme)) := by
    refine record_granted hm rfl (show SchemeOk (.setRedundancy _ _) from hscheme) rfl (fun _ => rfl) ?_ h hlog
    intro mop w₁ p₁ rec rec' f hh hhas hstep hrec
    cases hh with
    | phase hop hx => cases hop
    | setRedundancy =>
        cases hstep with
        | setRedundancyScheme hread =>
            obtain rfl := recorded_of_read hhas hread
            exact ⟨hrec.mode, rfl, hrec.uid, hrec.gid, hrec.unixMode, hrec.time⟩
  refine ⟨?_, hm'⟩
  obtain ⟨r, hx, -, ⟨rfl, -⟩ | ⟨e, -, he⟩⟩ := unitVal_cases h (by simp)
  · obtain ⟨s', happly, -⟩ := applyMeta_eq_ok hx
    obtain ⟨-, hu⟩ := MetaStore.apply_eq_ok hm.sound.wf.2 happly
    obtain ⟨rec₀, hread, -⟩ := Res.bind_eq_ok.mp hu
    cases hm.find i with
    | file hget hfile hrec hhas hsound => simp [hfile]
    | absent hget hfile =>
        obtain ⟨e, he⟩ := readInode_absent hget
        cases hread.symm.trans he
  · cases he

theorem policy_refused {scheme : RedundancyScheme} {e : PoolError} (hm : Mirrors n w p s) (hscheme : scheme.Placeable)
    (h : Pool.step (Env.healthy ord) (.setRedundancy i scheme) (w, p) = (.err e, w', p'))
    (hlog : p'.metaStore.walCursor ≤ Wal.walCapacityBytes) :
    errnoFor e = .eio ∧ s.file i = none ∧ Mirrors n w' p' s := by
  have hfit := fits_of_cursor_le hm.sound.wf h (by simp) hlog
  have hsound : Sound w' p' s.contents :=
    hm.sound.step hm.small (show SchemeOk (.setRedundancy _ _) from hscheme) hfit h (by simp) hm.small
  have hm' := hm.keep (show ¬IsCreate (.setRedundancy _ _) from id) hsound hfit h
  obtain ⟨e', rfl, hview⟩ := applyMeta_refused h
  refine ⟨rfl, ?_, hm'⟩
  cases hm.find i with
  | file hget hfile hrec hhas hsound =>
      have hset : p.metaStore.view.applyLocally (.setRedundancyScheme i scheme) = _ := congrArg (· >>= _) hhas.readInode_eq
      cases hview.symm.trans hset
  | absent hget hfile => exact hfile

/-- **A conversion**: it does not begin; it begins; or it begins and is completed, or stops there. -/
theorem makeWritable_cases {flags : UInt32} (h : makeWritable env ino flags (w, p) = (r, w', p')) (hr : r ≠ .panic) :
    (r = .err .ealready ∧ ∃ e, Pool.step env (.beginConvert ino) (w, p) = (.err e, w', p')) ∨
    (¬flags &&& tartineConvertFlagWait ≠ 0 ∧ r = .ok (.ioctl []) ∧
      Pool.step env (.beginConvert ino) (w, p) = (.ok .unit, w', p')) ∨
    ∃ w₁ p₁, flags &&& tartineConvertFlagWait ≠ 0 ∧ Pool.step env (.beginConvert ino) (w, p) = (.ok .unit, w₁, p₁) ∧
      ((r = .ok (.ioctl []) ∧ Pool.step env (.completeConvert ino) (w₁, p₁) = (.ok .unit, w', p')) ∨
        ∃ e, r = .err (errnoFor e) ∧ Pool.step env (.completeConvert ino) (w₁, p₁) = (.err e, w', p')) := by
  rcases Action.bind_cases h with ⟨u, ⟨w₁, p₁⟩, hbegin, hrest⟩ | ⟨e, hbegin, rfl⟩ | ⟨-, rfl⟩
  · have hbegin : Pool.step env (.beginConvert ino) (w, p) = (.ok .unit, w₁, p₁) :=
      Action.bind_of_ok (Action.mapErr_eq_ok.mp hbegin)
    by_cases hwait : flags &&& tartineConvertFlagWait ≠ 0
    · rw [if_pos hwait] at hrest
      exact Or.inr (Or.inr ⟨w₁, p₁, hwait, hbegin, reply_cases hrest hr⟩)
    · rw [if_neg hwait] at hrest
      obtain ⟨rfl, hs⟩ := Prod.mk.inj hrest
      obtain ⟨rfl, rfl⟩ := Prod.mk.inj hs
      exact Or.inr (Or.inl ⟨hwait, rfl, hbegin⟩)
  · obtain ⟨e', hrefused, rfl⟩ := Action.mapErr_eq_err.mp hbegin
    exact Or.inl ⟨rfl, e', Action.bind_of_err hrefused⟩
  · exact absurd rfl hr

theorem makeWritable_followed {inData : Bytes} (hm : Mirrors n w p s) (hlen : ¬inData.length < 4)
    (h : makeWritable (Env.healthy ord) ino (UInt32.ofNat (leNat (field inData 0 4))) (w, p) = (r, w', p')) (hr : r ≠ .panic)
    (hlog : p'.metaStore.walCursor ≤ Wal.walCapacityBytes) :
    Followed n s (.ioctl ino tartineIocMakeWritable inData) r w' p' := by
  have hreq : s.request n (.ioctl ino tartineIocMakeWritable inData) = s.convert ino (FileSystem.waits inData) := if_neg hlen
  rcases makeWritable_cases h hr with ⟨rfl, e, hbegin⟩ | ⟨hwait, rfl, hbegin⟩ | ⟨w₁, p₁, hwait, hbegin, hends⟩
  · obtain ⟨hmode, hm'⟩ := begin_refused hm hbegin hlog
    refine ⟨s, .refused ?_, hm'⟩
    rw [hreq]
    unfold FileSystem.convert
    split
    · rfl
    · rename_i f hfile
      exact if_neg (hmode f hfile)
  · obtain ⟨f, hfile, hmode, hm'⟩ := begin_granted hm hbegin hlog
    have hwait : FileSystem.waits inData = false := decide_eq_false hwait
    refine ⟨_, .granted ?_, hm'⟩
    simp only [hreq, FileSystem.convert, hfile, hmode, hwait, if_true]
    rfl
  · have hwait : FileSystem.waits inData = true := decide_eq_true hwait
    have hle : p₁.metaStore.walCursor ≤ p'.metaStore.walCursor := by
      rcases hends with ⟨-, hcomplete⟩ | ⟨e, -, hcomplete⟩
      · exact cursor_le_step (hm.sound.wf.call hbegin (by simp)) hcomplete (by simp)
      · exact cursor_le_step (hm.sound.wf.call hbegin (by simp)) hcomplete (by simp)
    obtain ⟨f, hfile, hmode, hm₁⟩ := begin_granted hm hbegin (Nat.le_trans hle hlog)
    have hgrant : s.request n (.ioctl ino tartineIocMakeWritable inData) =
        .ok (.ioctl [], s.modify ino (.setMode .writable)) := by
      simp only [hreq, FileSystem.convert, hfile, hmode, hwait, if_true]
    rcases hends with ⟨rfl, hcomplete⟩ | ⟨e, rfl, hcomplete⟩
    · have hm' := complete_granted hm₁ hcomplete hlog
      rw [FileSystem.modify_modify] at hm'
      exact ⟨_, .granted hgrant, hm'⟩
    · have hfile₁ : (s.modify ino (.setMode .converting)).file ino = some (f.setMode .converting) := by
        rw [FileSystem.modify_file_self, hfile]
        rfl
      obtain ⟨rfl, hm'⟩ := complete_refused hm₁ hfile₁ rfl hcomplete hlog
      exact ⟨_, .stuck hgrant hwait, hm'⟩

theorem setRedundancy_followed {inData : Bytes} (hm : Mirrors n w p s)
    (hslot : (Request.ioctl ino tartineIocSetRedundancy inData).Slotted)
    (h : setRedundancy (Env.healthy ord) ino inData (w, p) = (r, w', p')) (hr : r ≠ .panic)
    (hlog : p'.metaStore.walCursor ≤ Wal.walCapacityBytes) :
    Followed n s (.ioctl ino tartineIocSetRedundancy inData) r w' p' := by
  have hreq : s.request n (.ioctl ino tartineIocSetRedundancy inData) = s.setPolicy ino inData := rfl
  cases hdecode : decodeSetRedundancy inData with
  | none =>
      rw [setRedundancy, Action.bind_of_err (reads_err (e := .einval) (by simp only [hdecode]))] at h
      obtain ⟨rfl, hs⟩ := Prod.mk.inj h
      refine Tells.followed (Or.inr ⟨_, rfl, ?_⟩) hm hs.symm
      simp only [hreq, FileSystem.setPolicy, hdecode]
  | some scheme =>
      cases scheme with
      | erasureCoded ds ps =>
          rw [setRedundancy, Action.bind_of_err (reads_err (e := .eopnotsupp) (by simp only [hdecode]))] at h
          obtain ⟨rfl, hs⟩ := Prod.mk.inj h
          refine Tells.followed (Or.inr ⟨_, rfl, ?_⟩) hm hs.symm
          simp only [hreq, FileSystem.setPolicy, hdecode]
      | replicated slots =>
          have hscheme : (RedundancyScheme.replicated slots).Placeable := by
            refine ⟨?_, decodeSetRedundancy_slots hdecode⟩
            cases slots with
            | nil => exact absurd hdecode (hslot rfl)
            | cons slot slots => exact Nat.le_add_left _ _
          rw [setRedundancy, Action.bind_of_ok (reads_ok (a := .replicated slots) (by simp only [hdecode]))] at h
          rcases reply_cases h hr with ⟨rfl, hx⟩ | ⟨e, rfl, hx⟩
          · obtain ⟨hsome, hm'⟩ := policy_granted hm hscheme hx hlog
            refine ⟨_, .granted ?_, hm'⟩
            simp only [hreq, FileSystem.setPolicy, hdecode, hsome, if_true]
          · obtain ⟨he, hnone, hm'⟩ := policy_refused hm hscheme hx hlog
            refine ⟨s, he ▸ .refused ?_, hm'⟩
            simp [hreq, FileSystem.setPolicy, hdecode, hnone]

/-- What `GET_STATE` and `GET_REDUNDANCY` read off a record. -/
theorem control_reads {cmd : UInt32} {inData : Bytes} {g : InodeRecord → Bytes} {g' : File → Bytes} (hm : Mirrors n w p s)
    (hg : ∀ rec f, f.Recorded rec → RecordSound (w, p) rec f.content → g rec = g' f)
    (hreq : s.request n (.ioctl ino cmd inData) = (s.find ino >>= fun f => .ok (.ioctl (g' f), s)))
    (h : (do let rec ← inodeOf ino; pure (.ioctl (g rec)) : FuseM Reply) (w, p) = (r, w', p')) :
    Followed n s (.ioctl ino cmd inData) r w' p' := by
  cases hm.find ino with
  | @file rec f hget hfile hrec hhas hsound =>
      rw [Action.bind_of_ok (inodeOf_file hget)] at h
      obtain ⟨rfl, hs⟩ := Prod.mk.inj h
      refine Tells.followed (Or.inl ⟨_, rfl, ?_⟩) hm hs.symm
      rw [hreq, find_file hfile, Res.ok_bind, hg rec f hrec hsound]
  | absent hget hfile =>
      rw [Action.bind_of_err (inodeOf_absent hget)] at h
      obtain ⟨rfl, hs⟩ := Prod.mk.inj h
      refine Tells.followed (Or.inr ⟨_, rfl, ?_⟩) hm hs.symm
      rw [hreq, find_absent hfile, Res.err_bind]

theorem getState_eq (hrec : f.Recorded rec) (hsound : RecordSound (w, p) rec f.content) : getState rec = f.state := by
  have hmode := hrec.mode
  unfold getState File.state
  cases hm : f.mode with
  | appendOnly => simp only [hmode, hm, size_of_sound hsound]
  | converting => simp only [hmode, hm, size_of_sound hsound]
  | writable => simp only [hmode, hm, size_of_sound hsound]

theorem ioctl_followed {cmd : UInt32} {inData : Bytes} (hm : Mirrors n w p s) (hslot : (Request.ioctl ino cmd inData).Slotted)
    (h : ioctl (Env.healthy ord) ino cmd inData (w, p) = (r, w', p')) (hr : r ≠ .panic)
    (hlog : p'.metaStore.walCursor ≤ Wal.walCapacityBytes) : Followed n s (.ioctl ino cmd inData) r w' p' := by
  unfold ioctl at h
  by_cases hconvert : cmd = tartineIocMakeWritable
  · subst hconvert
    rw [if_pos rfl] at h
    by_cases hlen : inData.length < 4
    · rw [if_pos hlen] at h
      obtain ⟨rfl, hs⟩ := Prod.mk.inj h
      exact Tells.followed (Or.inr ⟨_, rfl, if_pos hlen⟩) hm hs.symm
    · rw [if_neg hlen] at h
      exact makeWritable_followed hm hlen h hr hlog
  · rw [if_neg hconvert] at h
    by_cases hstate : cmd = tartineIocGetState
    · subst hstate
      rw [if_pos rfl] at h
      refine control_reads (g := fun rec => (getState rec).toBytes) hm
        (fun rec f hrec hsound => congrArg TartineState.toBytes (getState_eq hrec hsound)) ?_ h
      simp [FileSystem.request, FileSystem.control, hconvert]
    · rw [if_neg hstate] at h
      by_cases hset : cmd = tartineIocSetRedundancy
      · subst hset
        rw [if_pos rfl] at h
        exact setRedundancy_followed hm hslot h hr hlog
      · rw [if_neg hset] at h
        by_cases hpolicy : cmd = tartineIocGetRedundancy
        · subst hpolicy
          rw [if_pos rfl] at h
          refine control_reads (g := fun rec => encodeSetRedundancy rec.redundancy) hm
            (fun rec f hrec hsound => congrArg encodeSetRedundancy hrec.redundancy) ?_ h
          simp [FileSystem.request, FileSystem.control, hconvert, hstate, hset]
        · rw [if_neg hpolicy] at h
          obtain ⟨rfl, hs⟩ := Prod.mk.inj h
          refine Tells.followed (Or.inr ⟨_, rfl, ?_⟩) hm hs.symm
          simp [FileSystem.request, FileSystem.control, hconvert, hstate, hset, hpolicy]

/-! ## Sessions -/

/-- **Step lemma.** -/
theorem handle_followed (hm : Mirrors n w p s) (hlim : Limited (req, r))
    (h : handle (Env.healthy ord) req (w, p) = (r, w', p')) (hr : r ≠ .panic)
    (hlog : p'.metaStore.walCursor ≤ Wal.walCapacityBytes) : Followed n s req r w' p' := by
  cases req with
  | lookup parent name =>
      obtain ⟨htells, hs⟩ := lookup_tells hm h hr
      exact htells.followed hm hs
  | getattr ino =>
      obtain ⟨htells, hs⟩ := getattr_tells hm h hr
      exact htells.followed hm hs
  | setattr ino size =>
      obtain ⟨htells, hs⟩ := setattr_tells hm h hr
      exact htells.followed hm hs
  | create parent name mode uid gid now => exact create_followed hm h hr hlog
  | unlink parent name => exact unlink_followed hm h hr hlog
  | read ino offset size =>
      obtain ⟨htells, hs⟩ := read_tells hm h hr
      exact htells.followed hm hs
  | write ino offset data => exact write_followed hm h hr hlog hlim
  | readdir ino offset room =>
      obtain ⟨htells, hs⟩ := readdir_tells hm h
      exact htells.followed hm hs
  | ioctl ino cmd inData => exact ioctl_followed hm hlim.1 h hr hlog

/-- The daemon over `n` disks, as a machine: mounted on a new pool, it serves one request after another. -/
def daemon (n : Nat) : Machine (World × Pool) (Request × Res Errno Reply) where
  start a := ∃ ord w₀ classes now, formatWithClasses (Env.healthy ord) w₀ n classes now = (.ok (), a.1, some a.2)
  step a e a' := ∃ ord, handle (Env.healthy ord) e.1 a = (e.2, a') ∧ e.2 ≠ .panic

theorem Session.daemon_run {trace : List (Request × Res Errno Reply)} (hs : Session n w p trace) :
    (daemon n).Run trace (w, p) := by
  induction hs with
  | mount ord h => exact .start ⟨ord, _, _, _, h⟩
  | serve ord req hs h hr ih => exact ih.snoc ⟨ord, h, hr⟩

theorem daemon_wf {trace : List (Request × Res Errno Reply)} {a : World × Pool} (hrun : (daemon n).Run trace a) :
    MetaWf a.2.metaStore := by
  refine hrun.rule (I := fun a => MetaWf a.2.metaStore) ?_ ?_
  · rintro ⟨w, p⟩ ⟨ord, w₀, classes, now, h⟩
    exact Pool.metaWf_format h
  · rintro ⟨w, p⟩ ⟨req, r⟩ ⟨w', p'⟩ hwf ⟨ord, h, hr⟩
    exact ((handle_performs h hr).log hwf).1

theorem FileSystem.mounted_file_root (n : Nat) (now : UInt64) : (mounted n now).file rootInode =
    some ⟨[], .writable, .replicated (List.replicate (min 2 n) (.anyOfClass none)), 0, 0, sIfdir ||| 0o755, now⟩ := by
  simp [mounted]

/-- A new pool mirrors a new file system. -/
theorem mirrors_mounted {w₀ : World} {classes : List DiskClass} {now : UInt64}
    (h : formatWithClasses (Env.healthy ord) w₀ n classes now = (.ok (), w, some p))
    (hlog : p.metaStore.walCursor ≤ Wal.walCapacityBytes) : Mirrors n w p (.mounted n now) := by
  obtain ⟨events, hrun, hsession, hfits⟩ := (Session.mount ord h).run hlog
  obtain ⟨hn, -, s, happly, rfl, -⟩ := format_eq_ok h
  obtain ⟨hlogged, hu⟩ := MetaStore.apply_eq_ok (metaWf_open (openStore_createDisks w₀ hn)).2 happly
  have hintact := hrun.intact (fun e he => (hsession e he).running) hfits
  have hfit : ∀ c ∈ formatCalls (Env.healthy ord) w₀ n now, c.Fits := by
    intro c hc
    rw [formatCalls, openStore_createDisks w₀ hn] at hc
    obtain rfl := List.mem_singleton.mp hc
    exact Nat.le_trans (Nat.le_of_eq hlogged.cursor_eq.symm) hlog
  have hcontents : (FileSystem.mounted n now).contents = fun i => if i = rootInode then some [] else none := by
    funext i
    unfold FileSystem.contents FileSystem.mounted
    dsimp only
    split
    · rfl
    · rfl
  have hend : (freshStore n).walCursor + (MetaStore.opFrame ord (.createInode (rootRecord n now))).length ≤
      Wal.walCapacityBytes := Nat.le_trans (Nat.le_of_eq hlogged.cursor_eq.symm) hlog
  have hroot : s.view.Has rootInode (rootRecord n now) := by
    obtain ⟨rec, hrec, hhas⟩ := View.has_applyLocally (P := fun _ => True) View.each_empty hu (i := rootInode) rfl
      (fun rec hrec => by cases hrec; exact MetaStore.fits_of_frame hend)
    cases hrec
    exact hhas
  refine ⟨hcontents ▸ sound_format hfit h, ?_, hintact, disksOf_handlesOf n _ _ s, hn, ?_, ?_, ?_⟩
  · intro i content hi
    rw [hcontents] at hi
    dsimp only at hi
    split at hi
    · obtain rfl := Option.some.inj hi
      simp
    · cases hi
  · intro i rec hhas
    by_cases hi : i = rootInode
    · subst hi
      obtain rfl := Option.some.inj (Res.ok.inj (hroot.getInode_eq.symm.trans hhas.getInode_eq))
      exact ⟨_, FileSystem.mounted_file_root n now, ⟨rfl, rfl, rfl, rfl, rfl, rfl⟩⟩
    · have hentry := View.getElem?_applyLocally (P := fun _ => True) View.each_empty hu (i := i)
        (fun ht => hi (Option.some.inj ht).symm)
      have hnone := hhas.entry_eq.symm.trans hentry
      simp [View.empty] at hnone
  · intro key child
    have hdirs : s.view.dirs = View.empty.dirs := View.dirs_createInode hu
    simp [hdirs, View.empty, FileSystem.mounted]
  · exact View.applyLocally_nextInode hu

/-- **The file system simulates the daemon.** -/
theorem daemon_simulates (n : Nat) : (daemon n).Simulates (fileSystem n)
    (fun a => a.2.metaStore.walCursor ≤ Wal.walCapacityBytes) Limited (fun a s => Mirrors n a.1 a.2 s) where
  start a hstart hlog := by
    obtain ⟨ord, w₀, classes, now, h⟩ := hstart
    exact ⟨.mounted n now, ⟨now, rfl⟩, mirrors_mounted h hlog⟩
  step a s e a' hm hstep hlog hlim := by
    obtain ⟨ord, h, hr⟩ := hstep
    exact handle_followed hm hlim h hr hlog

/-- **What clients are told is what the file system tells.** Every session on disks that do not fail, whatever its
    requests and their order, is a run of the file system with the same replies, as long as it keeps the limits and the log
    ends within its region; and the pool reached mirrors the file system reached. -/
theorem replies_refine {trace : List (Request × Res Errno Reply)} (hs : Session n w p trace)
    (hlimits : ∀ e ∈ trace, Limited e) (hlog : p.metaStore.walCursor ≤ Wal.walCapacityBytes) :
    ∃ s, (fileSystem n).Run trace s ∧ Mirrors n w p s := by
  refine (daemon_simulates n).run ?_ hs.daemon_run hlog hlimits
  -- the log never gets shorter
  rintro ls ⟨w, p⟩ ⟨req, r⟩ ⟨w', p'⟩ hrun ⟨ord, h, hr⟩ hlog
  exact Nat.le_trans ((handle_performs h hr).log (daemon_wf hrun)).2 hlog

/-! ## A session -/

/-- A file is created, written, refused another start, converted, overwritten, read, listed, and loses its name. -/
def talkRequests : List Request :=
  [.create rootInode [97] 0o644 0 0 7, .write 2 0 [1, 2, 3], .write 2 0 [5], convertRequest, .write 2 1 [9],
    .read 2 0 5, .readdir rootInode 2 5, .unlink rootInode [97], .lookup rootInode [97]]

def talk : List (Request × Res Errno Reply) × World × Pool :=
  serveAll (Env.healthy MetaStore.listOrder) talkRequests onDisk

/-- The attributes of the file. -/
def talkAttr : FileAttr := ⟨2, 0, 0, 7, .regularFile, 0o644, 0, 0⟩

/-- The theorem at this session, and what the clients are told in it. -/
theorem replies_refine_talk : (∃ s, (fileSystem 1).Run talk.1 s ∧ Mirrors 1 talk.2.1 talk.2.2 s) ∧
    talk.1.map Prod.snd = [.ok (.created talkAttr), .ok (.written 3), .err .eperm, .ok (.ioctl []), .ok (.written 1),
      .ok (.data [1, 9, 3]), .ok (.dir [(2, 3, .regularFile, "a")]), .ok .ok, .err .enoent] := by
  have hmount : Session 1 onDisk.1 onDisk.2 [] := .mount MetaStore.listOrder (show formatWithClasses
    (Env.healthy MetaStore.listOrder) (World.blank 0) 1 [.hdd] 0 = (.ok (), onDisk.1, some onDisk.2) from rfl)
  have hplay : serveAll (Env.healthy MetaStore.listOrder) talkRequests onDisk = talk := rfl
  have hs : Session 1 talk.2.1 talk.2.2 ([] ++ talk.1) := hmount.serveAll hplay (by decide +kernel)
  rw [List.nil_append] at hs
  exact ⟨replies_refine hs (by decide +kernel) (by decide +kernel), by decide +kernel⟩

end Tartine.Fuse
