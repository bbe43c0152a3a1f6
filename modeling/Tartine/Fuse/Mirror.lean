import Tartine.Fuse.FileSystem
import Tartine.Fuse.Requests
import Tartine.Meta.PoolPolicy

/-!
# `Fuse.Mirror` — a pool that mirrors a file system

`Mirrors n w p s` connects a pool to the file system it stands for. The bytes are the business of the pool's own
refinement (`Pool.Sound`); what is added is the rest of each record, the directory table, read as one map for each
parent, and the counter of inode numbers.

* `Mirrors.find`, `HoldsNames.lookup`, `HoldsNames.readdir` — what the pool's readers find is what the file system has;
* `Mirrors.modify`, `Mirrors.createFile`, `Mirrors.unlink` — a call of the pool that succeeds changes the file system as
  its purpose says;
* `Mirrors.keep` — one that fails leaves it.
-/

namespace Tartine.Fuse

open Basis Codec Pool

/-! ## The relation -/

/-- The record of a file, its size and its locator apart. -/
structure File.Recorded (f : File) (rec : InodeRecord) : Prop where
  mode : rec.mode = f.mode
  redundancy : rec.redundancy = f.redundancy
  uid : rec.uid = f.uid
  gid : rec.gid = f.gid
  unixMode : rec.unixMode = f.unixMode
  time : rec.mtimeUnix = f.time

/-- The directory table is the names of every directory. -/
def HoldsNames (v : View) (names : InodeId → Names) : Prop :=
  ∀ key child, v.dirs[key]? = some child ↔
    ∃ parent name, key = View.dirKey parent name ∧ (names parent)[name]? = some child

/-- **The refinement relation** between a pool of `n` disks and a file system, of files below `2^32` bytes. -/
structure Mirrors (n : Nat) (w : World) (p : Pool) (s : FileSystem) : Prop where
  sound : Sound w p s.contents
  small : s.contents.Small
  intact : Intact w p
  disks : DisksOf n p
  disks_pos : n ≠ 0
  records : ∀ i rec, p.metaStore.view.Has i rec → ∃ f, s.file i = some f ∧ f.Recorded rec
  names : HoldsNames p.metaStore.view s.names
  next : p.metaStore.view.nextInode = s.next

@[simp] theorem FileSystem.add_file_next (s : FileSystem) (parent : InodeId) (name : String) (f : File) :
    (s.add parent name f).file s.next = some f := Function.update_self _ _ _

@[simp] theorem FileSystem.modify_file_self (s : FileSystem) (i : InodeId) (g : File → File) :
    (s.modify i g).file i = (s.file i).map g := Function.update_self _ _ _

theorem FileSystem.modify_modify (s : FileSystem) (i : InodeId) (g g' : File → File) :
    (s.modify i g).modify i g' = s.modify i (g' ∘ g) := by
  simp [modify, Function.update_idem]

theorem FileSystem.contents_modify (s : FileSystem) (i : InodeId) (g : File → File) :
    (s.modify i g).contents = Function.update s.contents i ((s.file i).map fun f => (g f).content) := by
  funext j
  by_cases hj : j = i
  · subst hj
    simp only [contents, modify, Function.update_self, Option.map_map]
    rfl
  · simp [contents, modify, hj]

theorem FileSystem.contents_addNameless (s : FileSystem) (f : File) :
    (s.addNameless f).contents = Function.update s.contents s.next (some f.content) := by
  funext j
  by_cases hj : j = s.next
  · subst hj
    simp [contents, addNameless]
  · simp [contents, addNameless, hj]

theorem small_update {m : Files} {i : InodeId} {content : Bytes} (h : m.Small) (hlen : content.length < 2 ^ 32) :
    Files.Small (Function.update m i (some content)) := by
  intro j content' hj
  by_cases hji : j = i
  · subst hji
    obtain rfl := Option.some.inj ((Function.update_self j (some content) m).symm.trans hj)
    exact hlen
  · exact h j content' ((Function.update_of_ne hji _ _).symm.trans hj)

/-- What a pool finds under a number, next to what the file system has there. -/
inductive Finds (w : World) (p : Pool) (s : FileSystem) (i : InodeId) : Prop where
  | file {rec f} (hget : p.getInode i = .ok (some rec)) (hfile : s.file i = some f) (hrec : f.Recorded rec)
      (hhas : p.metaStore.view.Has i rec) (hsound : RecordSound (w, p) rec f.content) : Finds w p s i
  | absent (hget : p.getInode i = .ok none) (hfile : s.file i = none) : Finds w p s i

variable {env : Env} {ord : IterOrder} {w w' w₁ : World} {p p' p₁ : Pool} {s : FileSystem} {n : Nat} {i : InodeId}
  {rec rec' : InodeRecord} {f : File} {op : PoolOp} {mop : MetaOp}

/-! ## Directories -/

section Names

variable {v u : View} {names : InodeId → Names} {parent : InodeId} {name : String} {child : InodeId}

theorem HoldsNames.lookup (h : HoldsNames v names) (parent : InodeId) (name : String) :
    v.lookup parent name = (names parent)[name]? := by
  ext child
  constructor
  · intro hfound
    obtain ⟨parent', name', hkey, hchild⟩ := (h _ _).mp hfound
    obtain ⟨rfl, rfl⟩ := Prod.mk.inj (View.dirKey_inj.mp hkey)
    exact hchild
  · exact fun hchild => (h _ _).mpr ⟨parent, name, rfl, hchild⟩

theorem HoldsNames.of_dirs (h : HoldsNames v names) (hdirs : u.dirs = v.dirs) : HoldsNames u names := by
  unfold HoldsNames
  rw [hdirs]
  exact h

/-- One name changed, in the table and in its directory. -/
theorem HoldsNames.update {dir : Names} (h : HoldsNames v names) (name : String) (found : Option InodeId)
    (hdirs : ∀ key, u.dirs[key]? = if View.dirKey parent name = key then found else v.dirs[key]?)
    (hdir : ∀ name', dir[name']? = if name = name' then found else (names parent)[name']?) :
    HoldsNames u (Function.update names parent dir) := by
  intro key child
  rw [hdirs]
  by_cases hkey : View.dirKey parent name = key
  · subst hkey
    rw [if_pos rfl]
    constructor
    · intro hfound
      refine ⟨parent, name, rfl, ?_⟩
      rw [Function.update_self, hdir, if_pos rfl]
      exact hfound
    · rintro ⟨parent', name', heq, hchild⟩
      obtain ⟨rfl, rfl⟩ := Prod.mk.inj (View.dirKey_inj.mp heq)
      rwa [Function.update_self, hdir, if_pos rfl] at hchild
  · rw [if_neg hkey, h key child]
    refine exists_congr fun parent' => exists_congr fun name' => and_congr_right ?_
    rintro rfl
    by_cases hparent : parent' = parent
    · subst hparent
      have hname : name ≠ name' := fun heq => hkey (by rw [heq])
      rw [Function.update_self, hdir, if_neg hname]
    · rw [Function.update_of_ne hparent]

theorem HoldsNames.link (h : HoldsNames v names) (hu : v.applyLocally (.link parent name child) = .ok u) :
    HoldsNames u (Function.update names parent ((names parent).insert name child)) := by
  obtain rfl := Res.ok.inj hu
  refine h.update name (some child) (fun key => ?_) (fun name' => ?_)
  · show (v.dirs.insert (View.dirKey parent name) child)[key]? = _
    rw [Std.ExtTreeMap.getElem?_insert]
    simp only [Std.LawfulEqCmp.compare_eq_iff_eq]
  · rw [Std.ExtTreeMap.getElem?_insert]
    simp only [Std.LawfulEqCmp.compare_eq_iff_eq]

theorem HoldsNames.unlink (h : HoldsNames v names) (hu : v.applyLocally (.unlink parent name) = .ok u) :
    HoldsNames u (Function.update names parent ((names parent).erase name)) := by
  obtain rfl := Res.ok.inj hu
  refine h.update name none (fun key => ?_) (fun name' => ?_)
  · show (v.dirs.erase (View.dirKey parent name))[key]? = _
    rw [Std.ExtTreeMap.getElem?_erase]
    simp only [Std.LawfulEqCmp.compare_eq_iff_eq]
  · rw [Std.ExtTreeMap.getElem?_erase]
    simp only [Std.LawfulEqCmp.compare_eq_iff_eq]

/-- **What `readdir` finds**, in the same order. -/
theorem HoldsNames.readdir (h : HoldsNames v names) (parent : InodeId) :
    v.readdir parent = .ok (names parent).toList := by
  obtain ⟨cs, hcs⟩ : ∃ cs, v.readdir parent = .ok cs := by
    refine Res.exists_mapM fun e he => ?_
    have hmem := (List.dropWhile_sublist _).mem ((List.takeWhile_sublist _).mem he)
    obtain ⟨parent', name, hkey, -⟩ := (h _ _).mp (Std.ExtTreeMap.mem_toList_iff_getElem?_eq_some.mp hmem)
    refine ⟨(name, e.2), ?_⟩
    have hname : e.1.drop 8 = nameBytes name := by
      rw [hkey]
      exact List.drop_left' (View.length_dirPrefix parent')
    unfold View.dirName
    rw [hname, fromUTF8?_nameBytes]
  rw [hcs]
  -- both lists ascend by the bytes of the names, and they have the same elements
  have hasc : Ascending (compareOn fun c : String × InodeId => nameBytes c.1) cs := by
    have hnames := v.ascending_children parent
    rw [← View.readdir_names hcs] at hnames
    exact List.pairwise_map.mp hnames
  have hasc' : Ascending (compareOn fun c : String × InodeId => nameBytes c.1) (names parent).toList :=
    (Std.ExtTreeMap.ordered_keys_toList (t := names parent)).imp id
  refine congrArg _ (hasc.eq_of_mem_iff hasc' ?_)
  rintro ⟨name, child⟩
  rw [View.mem_readdir hcs, h.lookup, Std.ExtTreeMap.mem_toList_iff_getElem?_eq_some]

end Names

/-! ## What the readers find -/

theorem contents_of_file (hf : s.file i = some f) : s.contents i = some f.content := congrArg _ hf

theorem Mirrors.find (hm : Mirrors n w p s) (i : InodeId) : Finds w p s i := by
  cases hfile : s.file i with
  | some f =>
      obtain ⟨rec, hhas, hsound⟩ := hm.sound.find (contents_of_file hfile)
      obtain ⟨f', hfile', hrec⟩ := hm.records i rec hhas
      obtain rfl := Option.some.inj (hfile.symm.trans hfile')
      exact .file (getInode_of_view hhas.getInode_eq) hfile hrec hhas hsound
  | none =>
      have hentry : p.metaStore.view.inodes[i]? = none := by
        cases hentry : p.metaStore.view.inodes[i]? with
        | none => rfl
        | some bytes =>
            obtain ⟨rec, hhas, -⟩ := hm.sound.records i bytes hentry
            obtain ⟨f, hfile', -⟩ := hm.records i rec hhas
            cases hfile.symm.trans hfile'
      refine .absent (getInode_of_view ?_) hfile
      unfold View.getInode
      rw [hentry]

/-- A record's size is the length of its file. -/
theorem size_of_sound {content : Bytes} (h : RecordSound (w, p) rec content) : rec.size = UInt64.ofNat content.length := by
  rw [← h.size_eq, UInt64.ofNat_toNat]

theorem isSome_disks (hd : DisksOf n p) (id : DiskId) :
    (p.disks[id]?).isSome = ((handlesOf n (fun _ => 0))[id]?).isSome := by
  have := congrArg Option.isSome (hd id)
  rwa [Option.isSome_map, Option.isSome_map] at this

theorem mem_disks_of_lt (hd : DisksOf n p) {k : Nat} (hk : k < n) : diskId k ∈ p.disks.keys := by
  rw [Std.ExtTreeMap.mem_keys, Std.ExtTreeMap.mem_iff_isSome_getElem?, isSome_disks hd]
  exact isSome_handlesOf hk

theorem eq_of_mem_disks {id : DiskId} (hd : DisksOf 1 p) (hid : id ∈ p.disks.keys) : id = diskId 0 := by
  rw [Std.ExtTreeMap.mem_keys, Std.ExtTreeMap.mem_iff_isSome_getElem?, isSome_disks hd] at hid
  obtain ⟨handle, hhandle⟩ := Option.isSome_iff_exists.mp hid
  obtain ⟨hid, hlt, -⟩ := handlesOf_eq_some hhandle
  rw [hid, Nat.lt_one_iff.mp hlt]

/-- The default policy depends on whether there is a second disk. -/
theorem defaultRedundancy_diskCount (hn : n ≠ 0) (hd : DisksOf n p) :
    defaultRedundancy p.diskCount = defaultRedundancy n := by
  have hlen : p.diskCount = p.disks.keys.length := by
    rw [diskCount, Std.ExtTreeMap.length_toList, Std.ExtTreeMap.length_keys]
  have hnodup : p.disks.keys.Nodup := Std.ExtTreeMap.nodup_keys
  have hmin : min 2 (max p.diskCount 1) = min 2 (max n 1) := by
    by_cases hone : n = 1
    · subst hone
      have hsub : p.disks.keys ⊆ [diskId 0] := fun id hid => by simp [eq_of_mem_disks hd hid]
      have hle := (List.subperm_of_subset hnodup hsub).length_le
      rw [List.length_singleton] at hle
      omega
    · have hne : diskId 0 ≠ diskId 1 := by decide
      have hge : 2 ≤ p.disks.keys.length := by
        have hsub : [diskId 0, diskId 1] ⊆ p.disks.keys := by
          simp [mem_disks_of_lt hd (show 0 < n by omega), mem_disks_of_lt hd (show 1 < n by omega)]
        exact (List.subperm_of_subset (by simp [hne]) hsub).length_le
      omega
  unfold defaultRedundancy
  rw [hmin]

/-! ## Calls of the pool -/

/-- The call creates a file. -/
def IsCreate : PoolOp → Prop
  | .createFile .. => True
  | _              => False

theorem metaStore_of_hands (h : Hands env w p op mop w₁ p₁) (hop : ¬IsCreate op) : p₁.metaStore = p.metaStore := by
  cases h with
  | phase hphase hx => exact metaStore_of_dataPhase hphase hx
  | beginConvert => rfl
  | setRedundancy => rfl
  | unlink => rfl
  | create halloc => exact absurd trivial hop
  | link halloc hcreate => exact absurd trivial hop

theorem disksOf_step {res : Res PoolError PoolVal} (hd : DisksOf n p) (h : Pool.step env op (w, p) = (res, w', p'))
    (hres : res ≠ .panic) : DisksOf n p' := by
  refine step_rule (I := fun _ p => DisksOf n p) hd (fun x hop => disksOf_dataPhase hd hop) (fun id s halloc => hd) ?_ h hres
  exact fun mop w₁ p₁ q w₂ s₂ _ hd₁ _ _ => hd₁

/-- A call that fails leaves the tables, unless it had created a file. -/
theorem view_of_err {e : PoolError} (hwf : MetaWf p.metaStore) (h : Pool.step env op (w, p) = (.err e, w', p'))
    (hop : ¬IsCreate op) : p'.metaStore.view = p.metaStore.view := by
  rcases step_cases h (by simp) with ⟨-, rfl, rfl⟩ | ⟨x, e', hx, hphase, -⟩ | ⟨mop, w₁, p₁, q, s', hh, happly, rfl, hcl⟩
  · rfl
  · rw [metaStore_of_dataPhase hx hphase]
  · have hsame := metaStore_of_hands hh hop
    cases hcl with
    | refused e' =>
        rw [hsame] at happly
        exact MetaStore.view_of_refused hwf.2 happly

/-- **A call that fails leaves the file system.** -/
theorem Mirrors.keep {e : PoolError} (hm : Mirrors n w p s) (hop : ¬IsCreate op) (hsound : Sound w' p' s.contents)
    (hfit : ∀ c ∈ p.metaCalls env w op, c.Fits) (h : Pool.step env op (w, p) = (.err e, w', p')) :
    Mirrors n w' p' s := by
  have hview := view_of_err hm.sound.wf h hop
  refine ⟨hsound, hm.small, hm.intact.step hfit h (by simp), disksOf_step hm.disks h (by simp), hm.disks_pos, ?_, ?_, ?_⟩
  · rw [hview]
    exact hm.records
  · rw [hview]
    exact hm.names
  · rw [hview]
    exact hm.next

/-- A call that is about a file hands over one operation, about that file. -/
theorem target_of_hands (h : Hands env w p op mop w₁ p₁) (ht : op.target = some i) :
    mop.target = some i ∧ ∀ rec, mop ≠ .createInode rec := by
  cases h with
  | phase hphase hx =>
      rcases dataPhase_eq_ok hphase hx with ⟨_, _, _, rfl, rfl⟩ | ⟨_, _, rfl, rfl⟩ | ⟨_, _, _, _, rfl, rfl⟩
      · exact ⟨ht, by simp⟩
      · exact ⟨ht, by simp⟩
      · exact ⟨ht, by simp⟩
  | beginConvert => exact ⟨ht, by simp⟩
  | setRedundancy => exact ⟨ht, by simp⟩
  | unlink => cases ht
  | create halloc => cases ht
  | link halloc hcreate => cases ht

/-- An operation about a file leaves the directories. -/
theorem dirs_of_target {v u : View} (ht : mop.target = some i) (hu : v.applyLocally mop = .ok u) : u.dirs = v.dirs := by
  rcases View.applyLocally_cases hu with ⟨-, hnone⟩ | ⟨rec, -, -⟩
  · cases ht.symm.trans hnone
  · cases mop with
    | createInode rec => exact View.dirs_createInode hu
    | appendChunk inode chunk =>
        obtain ⟨rec, -, hu⟩ := Res.bind_eq_ok.mp hu
        split at hu
        · obtain ⟨size, -, hu⟩ := Res.bind_eq_ok.mp hu
          obtain rfl := Res.ok.inj hu
          rfl
        · cases hu
    | beginConvert inode =>
        obtain ⟨rec, -, hu⟩ := Res.bind_eq_ok.mp hu
        obtain ⟨mode, -, hu⟩ := Res.bind_eq_ok.mp hu
        obtain rfl := Res.ok.inj hu
        rfl
    | completeConvert inode extents =>
        obtain ⟨rec, -, hu⟩ := Res.bind_eq_ok.mp hu
        obtain ⟨mode, -, hu⟩ := Res.bind_eq_ok.mp hu
        obtain rfl := Res.ok.inj hu
        rfl
    | setRedundancyScheme inode scheme =>
        obtain ⟨rec, -, hu⟩ := Res.bind_eq_ok.mp hu
        obtain rfl := Res.ok.inj hu
        rfl
    | updateExtents inode extents =>
        obtain ⟨rec, -, hu⟩ := Res.bind_eq_ok.mp hu
        split at hu
        · cases hu
        · obtain ⟨ends, -, hu⟩ := Res.bind_eq_ok.mp hu
          obtain rfl := Res.ok.inj hu
          rfl
    | _ => cases ht

/-- **A call about one file** that succeeds changes it as its record is changed. -/
theorem Mirrors.modify {g : File → File} {v : PoolVal} (hm : Mirrors n w p s) (ht : op.target = some i)
    (hfit : ∀ c ∈ p.metaCalls env w op, c.Fits) (h : Pool.step env op (w, p) = (.ok v, w', p'))
    (hsound : Sound w' p' (s.modify i g).contents) (hsmall : (s.modify i g).contents.Small)
    (hg : ∀ mop rec rec' f, p.metaStore.view.Has i rec → p.metaStore.view.RecStep mop rec' →
      (∃ w₁ p₁, Hands env w p op mop w₁ p₁) → f.Recorded rec → (g f).Recorded rec') :
    Mirrors n w' p' (s.modify i g) := by
  have hnot : ¬IsCreate op := by
    intro hc
    cases op with
    | createFile => cases ht
    | _ => exact hc
  rcases step_cases h (by simp) with ⟨⟨_, _, _, rfl⟩, -, -⟩ | ⟨x, e', -, -, he⟩ | ⟨mop, w₁, p₁, q, s', hh, happly, rfl, hcl⟩
  · cases ht
  · cases he
  · have hintact₁ := hh.intact hm.intact hfit
    have hfit₁ := hfit _ hh.mem_metaCalls
    obtain ⟨hmt, hempty⟩ := target_of_hands hh ht
    have hsame := metaStore_of_hands hh hnot
    cases hcl with
    | accepted hmop =>
        obtain ⟨-, hu⟩ := MetaStore.apply_eq_ok hintact₁.wf.2 happly
        have hfits : ∀ rec, p₁.metaStore.view.RecStep mop rec → rec.Fits := fun rec hstep =>
          hintact₁.fits_of_recStep hfit₁ (fun rec hrec => absurd hrec (hempty rec)) hstep
        obtain ⟨rec₁, hstep₁, hhas₁⟩ := View.has_applyLocally hintact₁.records hu hmt hfits
        rw [hsame] at hu hstep₁
        refine ⟨hsound, hsmall, hm.intact.step hfit h (by simp), disksOf_step hm.disks h (by simp), hm.disks_pos, ?_, ?_, ?_⟩
        · intro j rec' hhas'
          by_cases hj : j = i
          · subst hj
            obtain rfl := Option.some.inj (Res.ok.inj (hhas₁.getInode_eq.symm.trans hhas'.getInode_eq))
            cases hm.find j with
            | @file rec f hget hfile hrec hhas _ =>
                refine ⟨g f, ?_, hg mop rec rec₁ f hhas hstep₁ ⟨w₁, p₁, hh⟩ hrec⟩
                show Function.update _ _ _ _ = _
                rw [Function.update_self, hfile]
                rfl
            | absent hget hfile =>
                obtain ⟨hti, hcreate | hsome⟩ := hstep₁.target_eq hm.intact.records
                · exact absurd hcreate (hempty _)
                · obtain rfl := Option.some.inj (hmt.symm.trans hti)
                  obtain ⟨bytes, hentry⟩ := Option.isSome_iff_exists.mp hsome
                  obtain ⟨rec, hhas, -⟩ := hm.intact.records _ bytes hentry
                  cases (getInode_of_view hhas.getInode_eq).symm.trans hget
          · have hentry := View.getElem?_applyLocally hm.intact.records hu (i := j) (by rw [hmt]; simpa using Ne.symm hj)
            obtain ⟨f, hfile, hrec⟩ := hm.records j rec' ⟨hentry ▸ hhas'.entry_eq, hhas'.fits, hhas'.inode_eq⟩
            exact ⟨f, (Function.update_of_ne hj _ _).trans hfile, hrec⟩
        · exact hm.names.of_dirs (dirs_of_target hmt hu)
        · rw [View.applyLocally_nextInode hu]
          refine Eq.trans ?_ hm.next
          cases mop with
          | createInode rec => exact absurd rfl (hempty rec)
          | _ => rfl

section Directory

variable {parent : InodeId} {name : String}

theorem Mirrors.unlink {v : PoolVal} (hm : Mirrors n w p s)
    (hfit : ∀ c ∈ p.metaCalls env w (.unlink parent name), c.Fits)
    (h : Pool.step env (.unlink parent name) (w, p) = (.ok v, w', p')) (hsound : Sound w' p' s.contents) :
    Mirrors n w' p' (s.remove parent name) := by
  obtain ⟨r, hx, -, ⟨rfl, -⟩ | ⟨e, -, he⟩⟩ := unitVal_cases h (by simp)
  · obtain ⟨s', happly, rfl⟩ := applyMeta_eq_ok hx
    obtain ⟨-, hu⟩ := MetaStore.apply_eq_ok hm.sound.wf.2 happly
    refine ⟨hsound, hm.small, hm.intact.step hfit h (by simp), disksOf_step hm.disks h (by simp), hm.disks_pos, ?_, ?_, ?_⟩
    · obtain hview := Res.ok.inj hu
      intro i rec hhas
      refine hm.records i rec ⟨?_, hhas.fits, hhas.inode_eq⟩
      rw [← hhas.entry_eq]
      show _ = s'.view.inodes[i]?
      rw [← hview]
    · exact hm.names.unlink hu
    · rw [View.applyLocally_nextInode hu]
      exact hm.next
  · cases he

variable {redundancy : RedundancyScheme} {uid gid unixMode : UInt32} {now : UInt64}

/-- A file that was just created. -/
def newFile (redundancy : RedundancyScheme) (uid gid unixMode : UInt32) (now : UInt64) : File :=
  ⟨[], .appendOnly, redundancy, uid, gid, unixMode, now⟩

/-- Disks that do not fail turn no new file away. -/
theorem createFile_ne_err {e : PoolError} :
    (Pool.createFile (Env.healthy ord) parent name redundancy uid gid unixMode now (w, p)).1 ≠ .err e := by
  intro he
  generalize hout : Pool.createFile (Env.healthy ord) parent name redundancy uid gid unixMode now (w, p) = out at he
  obtain ⟨r, w', p'⟩ := out
  obtain rfl : r = .err e := he
  obtain ⟨id, s₁, halloc, ⟨e', -, hcreate⟩ | ⟨w₂, s₂, -, q, hlink, ⟨-, hr⟩ | ⟨e', rfl, -⟩⟩⟩ := createFile_cases hout (by simp)
  · -- both operations are taken by every table
    obtain ⟨q, s', happly, hq, -⟩ := applyMeta_cases hcreate
    obtain ⟨e₁, rfl, -⟩ := Res.mapErr_eq_err.mp hq.symm
    rcases Res.bind_eq_err.mp (MetaStore.applyLocally_of_refused happly) with hadd | ⟨next, -, hpure⟩
    · unfold Res.checkedAdd at hadd
      split at hadd
      · cases hadd
      · cases hadd
    · cases hpure
  · cases hr
  · obtain ⟨q, s', happly, hq, -⟩ := applyMeta_cases hlink
    obtain ⟨e₁, rfl, -⟩ := Res.mapErr_eq_err.mp hq.symm
    cases MetaStore.applyLocally_of_refused happly

/-- **A new file** gets the next number. -/
theorem Mirrors.createInode {id : InodeId} {s₁ s₂ : MetaStore} (hm : Mirrors n w p s) (hscheme : redundancy.Placeable)
    (halloc : p.metaStore.allocInode = .ok (id, s₁))
    (hfit : s₁.walCursor + (MetaStore.opFrame env.ord (.createInode (Pool.newFile id redundancy uid gid unixMode
      now))).length ≤ Wal.walCapacityBytes)
    (hcreate : s₁.apply env w (.createInode (Pool.newFile id redundancy uid gid unixMode now)) = (.ok (), w', s₂)) :
    id = s.next ∧ Mirrors n w' { p with metaStore := s₂ } (s.addNameless (newFile redundancy uid gid unixMode now)) := by
  have hi₁ := hm.intact.alloc halloc
  have hsound₁ := hm.sound.allocInode halloc
  obtain ⟨next, hnext, hs₁⟩ := Res.bind_eq_ok.mp halloc
  obtain ⟨rfl, rfl⟩ := Prod.mk.inj (Res.ok.inj hs₁)
  have hid : p.metaStore.view.nextInode = s.next := hm.next
  have hempty : DataLocator.Fits (.chunkLog []) := ⟨by decide, by simp⟩
  have hsound := hsound₁.create hscheme rfl (fun a => .chunkLog (by simp [Pool.newFile]) .nil) rfl hempty hfit hcreate
  have hintact := hi₁.apply hcreate (by simp) hfit (fun c hc => by cases hc) (fun rec hrec => by cases hrec; rfl)
  obtain ⟨-, hu⟩ := MetaStore.apply_eq_ok hi₁.wf.2 hcreate
  -- the record is the one that was handed over
  have hfits : ∀ rec, View.RecStep _ (.createInode (Pool.newFile p.metaStore.view.nextInode redundancy uid gid unixMode
      now)) rec → rec.Fits := fun rec hrec => hi₁.fits_of_recStep hfit (fun rec' hrec' => by cases hrec'; rfl) hrec
  obtain ⟨rec, hrec, hhas⟩ := View.has_applyLocally hi₁.records hu (i := p.metaStore.view.nextInode) rfl hfits
  cases hrec
  have hcontents : (s.addNameless (newFile redundancy uid gid unixMode now)).contents =
      Function.update s.contents p.metaStore.view.nextInode (some []) := by
    rw [FileSystem.contents_addNameless, hid]
    rfl
  refine ⟨hid, ?_, ?_, hintact, hm.disks, hm.disks_pos, ?_, ?_, ?_⟩
  · rw [hcontents]
    exact hsound
  · rw [hcontents]
    exact small_update hm.small (by simp)
  · intro j rec' hhas'
    by_cases hj : j = p.metaStore.view.nextInode
    · subst hj
      obtain rfl := Option.some.inj (Res.ok.inj (hhas.getInode_eq.symm.trans hhas'.getInode_eq))
      refine ⟨newFile redundancy uid gid unixMode now, ?_, ⟨rfl, rfl, rfl, rfl, rfl, rfl⟩⟩
      show Function.update _ _ _ _ = _
      rw [hid, Function.update_self]
    · have hold := View.getElem?_applyLocally hi₁.records hu (i := j) (fun ht => hj (Option.some.inj ht).symm)
      obtain ⟨f, hfile, hf⟩ := hm.records j rec' ⟨hold ▸ hhas'.entry_eq, hhas'.fits, hhas'.inode_eq⟩
      refine ⟨f, ?_, hf⟩
      show Function.update _ _ _ _ = _
      rwa [Function.update_of_ne (hid ▸ hj)]
  · have hdirs := View.dirs_createInode hu
    exact hm.names.of_dirs hdirs
  · refine (View.applyLocally_nextInode hu).trans ?_
    show max next (p.metaStore.view.nextInode + 1) = s.next + 1
    have hadd := Res.checkedAdd_eq_ok.mp hnext
    have hnext : next = p.metaStore.view.nextInode + 1 := by
      apply UInt64.toNat_inj.mp
      have hlt := next.toNat_lt
      rw [hadd] at hlt
      rw [hadd, UInt64.toNat_add, Nat.mod_eq_of_lt hlt]
    rw [hnext, hid]
    exact ite_self _

/-- **A new name.** -/
theorem Mirrors.link {child : InodeId} {s' : MetaStore} (hm : Mirrors n w p s)
    (hfit : p.metaStore.walCursor + (MetaStore.opFrame env.ord (.link parent name child)).length ≤ Wal.walCapacityBytes)
    (happly : p.metaStore.apply env w (.link parent name child) = (.ok (), w', s')) :
    Mirrors n w' { p with metaStore := s' } (s.link parent name child) := by
  obtain ⟨-, hu⟩ := MetaStore.apply_eq_ok hm.sound.wf.2 happly
  have hsound := hm.sound.accept hfit happly (fun _ _ => rfl) (fun _ hi => Or.inl hi) (fun rec hstep => by cases hstep)
  have hintact := hm.intact.apply happly (by simp) hfit trivial (fun rec hrec => by cases hrec)
  have hinodes : s'.view.inodes = p.metaStore.view.inodes := by rw [← Res.ok.inj hu]
  refine ⟨hsound, hm.small, hintact, hm.disks, hm.disks_pos, fun i rec hhas => ?_, hm.names.link hu, ?_⟩
  · exact hm.records i rec ⟨hinodes ▸ hhas.entry_eq, hhas.fits, hhas.inode_eq⟩
  · exact (View.applyLocally_nextInode hu).trans hm.next

/-- **A new file under a name.** -/
theorem Mirrors.createFile {id : InodeId} (hm : Mirrors n w p s) (hscheme : redundancy.Placeable)
    (hfit : ∀ c ∈ p.metaCalls env w (.createFile parent name redundancy uid gid unixMode now), c.Fits)
    (h : Pool.createFile env parent name redundancy uid gid unixMode now (w, p) = (.ok id, w', p')) :
    id = s.next ∧ Mirrors n w' p' (s.add parent name (newFile redundancy uid gid unixMode now)) := by
  obtain ⟨id', s₁, halloc, ⟨e, hr, -⟩ | ⟨w₂, s₂, hcreate, q, hlink, ⟨rfl, hr⟩ | ⟨e, -, hr⟩⟩⟩ := createFile_cases h (by simp)
  · cases hr
  · obtain rfl := Res.ok.inj hr
    obtain ⟨hcall₁, hcall₂⟩ := createFile_calls env w parent name redundancy uid gid unixMode now halloc
    obtain ⟨hid, hm₂⟩ := hm.createInode hscheme halloc (hfit _ hcall₁) hcreate
    obtain ⟨s₃, happly, rfl⟩ := applyMeta_eq_ok hlink
    have hm₃ := hm₂.link (hfit _ (hcall₂ w₂ s₂ hcreate)) happly
    subst hid
    exact ⟨rfl, hm₃⟩
  · cases hr

end Directory

end Tartine.Fuse
