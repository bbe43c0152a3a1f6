import Tartine.Meta.Directory
import Tartine.Meta.Layout
import Tartine.Meta.PoolAppend

/-!
# `Meta.PoolRoot` — the root directory in the log

The root directory is an ordinary record: `format` logs it first, and every `open` takes it from there. A log that starts
with it, and creates no other inode under its number, replays to tables that have it (`replay_root`).

A process can be stopped between any two writes: then every write was made whole or not at all (`Env.Whole`). Whatever a
call was doing when it was stopped, the log still starts with the root.

* `Seated` — the log of the pool at hand starts with the root, and the counter is past its number;
* `Seated.step` — kept by every call on healthy disks;
* `Seated.stopped` — and however a call is stopped, the root is in the log it leaves.
-/

namespace Tartine

open Basis Codec

/-! ## Writes that are made whole or not at all -/

/-- Every I/O call succeeds or leaves nothing behind. -/
def Env.Whole (env : Env) : Prop := ∀ k, env.io k = .ok ∨ env.io k = .fail []

/-- The process is stopped before its `k`-th I/O call. -/
def stopAt (k : Nat) : Schedule := fun i => if i < k then .ok else .fail []

theorem whole_healthy (ord : IterOrder) : (Env.healthy ord).Whole := fun _ => Or.inl rfl

theorem whole_stopAt (k : Nat) (ord : IterOrder) : (⟨stopAt k, ord⟩ : Env).Whole := by
  intro i
  by_cases hi : i < k
  · exact Or.inl (if_pos hi)
  · exact Or.inr (if_neg hi)

theorem World.writeSync_whole {env : Env} (henv : env.Whole) (w : World) (r : DiskRef) (off : Nat) (buf : Bytes) :
    ((w.writeSync env r off buf).2.disk r = (w.disk r).writeAt off buf ∨
      (w.writeSync env r off buf).2.disk r = w.disk r) ∧
    ∀ x, x ≠ r → (w.writeSync env r off buf).2.disk x = w.disk x := by
  unfold World.writeSync World.writeAt World.sync
  rcases henv w.clock with hwrite | hwrite
  · rw [hwrite]
    dsimp only
    rcases henv (w.clock + 1) with hsync | hsync
    · rw [hsync]
      exact ⟨Or.inl World.setDisk_self, fun x hx => World.setDisk_of_ne hx⟩
    · rw [hsync]
      exact ⟨Or.inl World.setDisk_self, fun x hx => World.setDisk_of_ne hx⟩
  · rw [hwrite]
    refine ⟨Or.inr ?_, fun x hx => World.setDisk_of_ne hx⟩
    show World.disk (World.setDisk _ _ _) r = _
    rw [World.setDisk_self, List.take_nil, FileDisk.writeAt_nil]

/-- The frame is on the primary, or nothing of it is. -/
theorem MetaStore.apply_whole {env : Env} {s : MetaStore} (henv : env.Whole)
    (hne : s.replicator.backupDisk ≠ some s.replicator.primaryDisk) (w : World) (op : MetaOp) :
    (s.apply env w op).2.1.disk s.replicator.primaryDisk =
        (w.disk s.replicator.primaryDisk).writeAt (s.walBaseOffset + s.walCursor) (opFrame env.ord op) ∨
      (s.apply env w op).2.1.disk s.replicator.primaryDisk = w.disk s.replicator.primaryDisk := by
  rw [Pool.apply_world]
  unfold MetaReplicator.commit
  have hprimary := (World.writeSync_whole henv w s.replicator.primaryDisk (s.walBaseOffset + s.walCursor)
    (opFrame env.ord op)).1
  generalize w.writeSync env s.replicator.primaryDisk (s.walBaseOffset + s.walCursor) (opFrame env.ord op) = out
    at hprimary ⊢
  obtain ⟨res, w₁⟩ := out
  cases res with
  | error e => exact hprimary
  | ok u =>
      dsimp only
      cases hback : s.replicator.backupDisk with
      | none => exact hprimary
      | some b =>
          -- the backup's write leaves the primary alone
          have hother := (World.writeSync_whole henv w₁ b (s.walBaseOffset + s.walCursor) (opFrame env.ord op)).2
            s.replicator.primaryDisk (fun heq => hne (by rw [hback, heq]))
          dsimp only
          generalize w₁.writeSync env b (s.walBaseOffset + s.walCursor) (opFrame env.ord op) = out₂ at hother ⊢
          obtain ⟨res₂, w₂⟩ := out₂
          dsimp only at hprimary hother
          rw [← hother] at hprimary
          cases res₂ with
          | error e => exact hprimary
          | ok u => exact hprimary

namespace Pool

/-! ## Logs that start with the root -/

/-- The record is one of a directory. -/
def IsDirectory (rec : InodeRecord) : Prop := rec.unixMode &&& sIfdir = sIfdir

instance (rec : InodeRecord) : Decidable (IsDirectory rec) := inferInstanceAs (Decidable (_ = _))

/-- What the operation creates under the root's number, if it does, is a directory; and it is created empty. -/
def SparesRoot (op : MetaOp) : Prop :=
  ∀ rec, op = .createInode rec → rec.chunkCount = 0 ∧ (rec.inode = rootInode → IsDirectory rec)

/-- A log entry that decodes to such an operation. -/
def RootEntry (x : Bytes) : Prop := ∃ ord op, x = encodeOp ord op ∧ op.Fits ∧ SparesRoot op

/-- The log starts with the root directory's record, and nothing in it replaces that by something else. -/
structure RootLog (ps : List Bytes) : Prop where
  entries : ∀ x ∈ ps, RootEntry x
  first : ∃ ord n now rest, ps = encodeOp ord (.createInode (rootRecord n now)) :: rest

theorem sparesRoot_rootRecord (n : Nat) (now : UInt64) : SparesRoot (.createInode (rootRecord n now)) := by
  intro rec hrec
  obtain rfl := MetaOp.createInode.inj hrec
  exact ⟨rfl, fun _ => show (sIfdir ||| 0o755) &&& sIfdir = sIfdir by decide⟩

theorem fits_rootRecord (n : Nat) (now : UInt64) : (MetaOp.createInode (rootRecord n now)).Fits :=
  ⟨show (List.replicate (min 2 n) _).length < 2 ^ 32 by rw [List.length_replicate]; omega,
    show ([] : List Extent).length < 2 ^ 32 ∧ ∀ x ∈ ([] : List Extent), _ by simp⟩

theorem RootLog.snoc {ps : List Bytes} {x : Bytes} (h : RootLog ps) (hx : RootEntry x) : RootLog (ps ++ [x]) := by
  obtain ⟨ord, n, now, rest, hps⟩ := h.first
  refine ⟨List.forall_mem_append.mpr ⟨h.entries, List.forall_mem_singleton.mpr hx⟩, ord, n, now, rest ++ [x], ?_⟩
  rw [hps, List.cons_append]

theorem rootLog_singleton (ord : IterOrder) (n : Nat) (now : UInt64) :
    RootLog [encodeOp ord (.createInode (rootRecord n now))] :=
  ⟨List.forall_mem_singleton.mpr ⟨ord, _, rfl, fits_rootRecord n now, sparesRoot_rootRecord n now⟩,
    ord, n, now, [], rfl⟩

/-! ## What they replay to -/

/-- A record that can be read back, and is a directory's if it is the root's. -/
def RootedRecord (k : Nat) (rec : InodeRecord) : Prop :=
  rec.Lists (fun _ _ _ => True) k ∧ (rec.inode = rootInode → IsDirectory rec)

/-- Tables with a root, after at most `k` operations. -/
structure RootedView (k : Nat) (v : View) : Prop where
  each : v.Each (RootedRecord k)
  present : (v.inodes[rootInode]?).isSome
  next : 2 ≤ v.nextInode.toNat

/-- An operation on an inode that exists keeps its number and its kind. -/
theorem recStep_kind {v : View} {op : MetaOp} {rec : InodeRecord} (hstep : v.RecStep op rec) :
    op = .createInode rec ∨ ∃ i old, v.readInode i = .ok old ∧ rec.inode = old.inode ∧ rec.unixMode = old.unixMode := by
  cases hstep with
  | createInode => exact Or.inl rfl
  | appendChunk hrec hdata hsize => exact Or.inr ⟨_, _, hrec, rfl, rfl⟩
  | beginConvert hrec hmode => exact Or.inr ⟨_, _, hrec, rfl, rfl⟩
  | completeConvert hrec hmode => exact Or.inr ⟨_, _, hrec, rfl, rfl⟩
  | setRedundancyScheme hrec => exact Or.inr ⟨_, _, hrec, rfl, rfl⟩
  | updateExtents hrec hmode hends => exact Or.inr ⟨_, _, hrec, rfl, rfl⟩

/-- **Step lemma** of the replay: the records. -/
theorem each_rooted {v u : View} {op : MetaOp} {k : Nat} (hk : k + 1 < 2 ^ 32) (hv : v.Each (RootedRecord k))
    (hfits : op.Fits) (hop : SparesRoot op) (h : v.applyLocally op = .ok u) : u.Each (RootedRecord (k + 1)) := by
  refine hv.applyLocally h ?_ ?_
  · intro rec hrec _
    exact ⟨⟨hrec.1.1, Nat.le_succ_of_le hrec.1.2⟩, hrec.2⟩
  · intro rec hstep
    have hlists := hstep.allReplicas hk (hv.mono fun _ hrec => hrec.1) hfits (allReplicas_true op)
      (fun rec hrec => (hop rec hrec).1)
    refine ⟨hlists.1, hlists.2, ?_⟩
    rcases recStep_kind hstep with rfl | ⟨i, old, hread, hinode, hmode⟩
    · exact (hop rec rfl).2
    · intro hroot
      obtain ⟨-, -, hdir⟩ := hv.of_readInode hread
      unfold IsDirectory
      rw [hmode]
      exact hdir (hinode.symm.trans hroot)

theorem RootedView.applyLocally {v u : View} {op : MetaOp} {k : Nat} (hk : k + 1 < 2 ^ 32) (hv : RootedView k v)
    (hfits : op.Fits) (hop : SparesRoot op) (h : v.applyLocally op = .ok u) : RootedView (k + 1) u :=
  ⟨each_rooted hk hv.each hfits hop h, View.isSome_applyLocally h hv.present,
    Nat.le_trans hv.next (View.nextInode_le_applyLocally h)⟩

/-- **Run lemma** of the replay. -/
theorem RootedView.replay {rest : List Bytes} {v u : View} {k : Nat} (hk : k + rest.length < 2 ^ 32)
    (hv : RootedView k v) (hrest : ∀ x ∈ rest, RootEntry x) (h : v.replay rest = .ok u) :
    RootedView (k + rest.length) u := by
  induction rest generalizing v k with
  | nil =>
      obtain rfl := Res.ok.inj h
      exact hv
  | cons x rest ih =>
      rw [List.length_cons] at hk ⊢
      obtain ⟨v₁, hx, hreplay⟩ := Res.bind_eq_ok.mp h
      obtain ⟨ord, op, rfl, hfits, hop⟩ := hrest x List.mem_cons_self
      rw [View.replayEntry_encodeOp _ _ hfits] at hx
      have hrooted := ih (by omega) (hv.applyLocally (by omega) hfits hop hx)
        (fun y hy => hrest y (List.mem_cons_of_mem _ hy)) hreplay
      rwa [show k + 1 + rest.length = k + (rest.length + 1) by omega] at hrooted

/-- **A log that starts with the root replays to tables that have it.** -/
theorem replay_root {ps : List Bytes} {v : View} (hlen : ps.length < 2 ^ 32) (hps : RootLog ps)
    (h : View.empty.replay ps = .ok v) : RootedView ps.length v := by
  obtain ⟨ord, n, now, rest, rfl⟩ := hps.first
  obtain ⟨v₁, hx, hreplay⟩ := Res.bind_eq_ok.mp h
  have hfits := fits_rootRecord n now
  rw [View.replayEntry_encodeOp _ _ hfits] at hx
  rw [List.length_cons] at hlen ⊢
  have hfirst : RootedView 1 v₁ := by
    refine ⟨?_, View.isSome_createInode hx, View.created_lt_applyLocally hx⟩
    exact each_rooted (by omega) View.each_empty hfits (sparesRoot_rootRecord n now) hx
  have hrooted := hfirst.replay (by omega) (fun y hy => hps.entries y (List.mem_cons_of_mem _ hy)) hreplay
  rwa [Nat.add_comm] at hrooted

theorem RootedView.getInode {v : View} {k : Nat} (h : RootedView k v) :
    ∃ rec, v.getInode rootInode = .ok (some rec) ∧ IsDirectory rec := by
  obtain ⟨bytes, hbytes⟩ := Option.isSome_iff_exists.mp h.present
  obtain ⟨rec, hhas, -, hdir⟩ := h.each rootInode bytes hbytes
  exact ⟨rec, hhas.getInode_eq, hdir hhas.inode_eq⟩

/-! ## Sessions -/

/-- A disk whose log starts with the root. -/
def HoldsRoot (d : FileDisk) : Prop := ∃ ps e, Wal.Carries d ps e ∧ RootLog ps

/-- The pool at hand writes to a log that starts with the root, and will not hand out the root's number. -/
structure Seated (w : World) (p : Pool) : Prop where
  wf : MetaWf p.metaStore
  primaryDisk_eq : p.metaStore.replicator.primaryDisk = 0
  next : 2 ≤ p.metaStore.view.nextInode.toNat
  log : ∃ ps, Wal.Carries (w.disk 0) ps p.metaStore.walCursor ∧ RootLog ps

variable {env : Env} {ord : IterOrder} {w w' w₁ : World} {p p' p₁ : Pool} {s' : MetaStore} {op : PoolOp} {mop : MetaOp}

theorem Seated.holdsRoot (h : Seated w p) : HoldsRoot (w.disk 0) := by
  obtain ⟨ps, hcarries, hroot⟩ := h.log
  exact ⟨ps, _, hcarries, hroot⟩

/-- A log that file data leaves alone. -/
theorem LogKept.carries (h : LogKept (w, p) (w', p')) {ps : List Bytes} {e : Nat} (hc : Wal.Carries (w.disk 0) ps e) :
    Wal.Carries (w'.disk 0) ps e := by
  have hcap := walCapacity_le_segmentBase
  refine ⟨h.chain hc.chain, ?_⟩
  intro i hi hlt
  exact ((h 0).2 i (by omega)).trans (hc.blank i hi hlt)

/-- A data phase leaves the log as it was. -/
theorem Seated.phase {x : PoolM MetaOp} (h : Seated w p) (hop : dataPhase env op = some x) :
    Seated (x (w, p)).2.1 (x (w, p)).2.2 := by
  have hsame : (x (w, p)).2.2.metaStore = p.metaStore := sameStore_dataPhase hop (w, p)
  have hkept : LogKept (w, p) ((x (w, p)).2.1, (x (w, p)).2.2) := logKept_dataPhase hop (w, p)
  obtain ⟨ps, hcarries, hroot⟩ := h.log
  refine ⟨?_, ?_, ?_, ps, ?_, hroot⟩
  · rw [hsame]; exact h.wf
  · rw [hsame]; exact h.primaryDisk_eq
  · rw [hsame]; exact h.next
  · rw [hsame]; exact hkept.carries hcarries

theorem Seated.alloc {id : InodeId} (h : Seated w p) (halloc : p.metaStore.allocInode = .ok (id, s')) :
    Seated w { p with metaStore := s' } ∧ id ≠ rootInode := by
  obtain ⟨next, hadd, hs⟩ := Res.bind_eq_ok.mp halloc
  obtain ⟨rfl, rfl⟩ := Prod.mk.inj (Res.ok.inj hs)
  have hnext := Res.checkedAdd_eq_ok.mp hadd
  refine ⟨⟨h.wf, h.primaryDisk_eq, show 2 ≤ next.toNat by have := h.next; omega, h.log⟩, ?_⟩
  intro hroot
  have := h.next
  rw [hroot] at this
  exact absurd this (by decide)

/-- **Step lemma.** A metadata operation that reached the log. -/
theorem Seated.apply {res : Res MetaStoreError Unit} (h : Seated w p)
    (happly : p.metaStore.apply env w mop = (res, w', s')) (hres : res ≠ .panic)
    (hup : ∀ e, p.metaStore.commitReport env w mop ≠ .error (.primaryUnavailable e))
    (hfit : p.metaStore.walCursor + (MetaStore.opFrame env.ord mop).length ≤ Wal.walCapacityBytes)
    (hmop : SparesRoot mop) : Seated w' { p with metaStore := s' } := by
  have hlog := MetaStore.logged_of_report h.wf.2 happly hres hup
  obtain ⟨ps, hcarries, hroot⟩ := h.log
  refine ⟨h.wf.apply happly, hlog.primaryDisk_eq.trans h.primaryDisk_eq, ?_, ps ++ [encodeOp env.ord mop], ?_, ?_⟩
  · rcases MetaStore.view_apply happly with hview | hview
    · show 2 ≤ s'.view.nextInode.toNat
      rw [hview]
      exact h.next
    · exact Nat.le_trans h.next (View.nextInode_le_applyLocally hview)
  · have hdisk := hlog.disk_eq
    rw [h.primaryDisk_eq, h.wf.1, Nat.zero_add] at hdisk
    show Wal.Carries (w'.disk 0) _ s'.walCursor
    rw [hdisk, hlog.cursor_eq]
    exact hcarries.snoc hfit
  · exact hroot.snoc ⟨env.ord, mop, rfl, MetaStore.fits_of_frame hfit, hmop⟩

/-- **And one that is stopped**: its frame is in the log, or nothing of it is. -/
theorem Seated.applyStopped (h : Seated w p) (henv : env.Whole)
    (hfit : p.metaStore.walCursor + (MetaStore.opFrame env.ord mop).length ≤ Wal.walCapacityBytes)
    (hmop : SparesRoot mop) : HoldsRoot ((p.metaStore.apply env w mop).2.1.disk 0) := by
  obtain ⟨ps, hcarries, hroot⟩ := h.log
  have hdisk := MetaStore.apply_whole henv h.wf.2 w mop
  rw [h.primaryDisk_eq, h.wf.1, Nat.zero_add] at hdisk
  rcases hdisk with hwritten | hsame
  · rw [hwritten]
    exact ⟨_, _, hcarries.snoc hfit, hroot.snoc ⟨env.ord, mop, rfl, MetaStore.fits_of_frame hfit, hmop⟩⟩
  · rw [hsame]
    exact h.holdsRoot

/-- What a call hands to the log creates no second root. -/
theorem Seated.sparesRoot (h : Seated w p) (hhands : Hands env w p op mop w₁ p₁) : SparesRoot mop := by
  cases hhands with
  | phase hop hx =>
      rintro rec rfl
      exact False.elim (dataPhase_storesData hop hx)
  | beginConvert => exact fun rec hrec => by cases hrec
  | setRedundancy => exact fun rec hrec => by cases hrec
  | unlink => exact fun rec hrec => by cases hrec
  | create halloc =>
      intro rec hrec
      obtain rfl := MetaOp.createInode.inj hrec
      exact ⟨rfl, fun hroot => absurd hroot (h.alloc halloc).2⟩
  | link halloc hcreate => exact fun rec hrec => by cases hrec

theorem Hands.seated (hhands : Hands env w p op mop w₁ p₁) (h : Seated w p)
    (hfit : ∀ c ∈ p.metaCalls env w op, c.Fits) : Seated w₁ p₁ := by
  refine hhands.rule h (fun _ hop => h.phase hop) (fun _ _ halloc => (h.alloc halloc).1) ?_
  intro mop w₁ p₁ w₂ s₂ hh h₁ happly
  refine h₁.apply happly (by simp) ?_ (hfit _ hh.mem_metaCalls) (h.sparesRoot hh)
  -- an operation that was accepted has reached the primary
  intro e hlost
  have hout := MetaStore.apply_outcome h₁.wf.2 happly
  rw [hlost] at hout
  cases hout

/-- **Every call on healthy disks** keeps the root in its place. -/
theorem Seated.step {res : Res PoolError PoolVal} (h : Seated w p)
    (hfit : ∀ c ∈ p.metaCalls (Env.healthy ord) w op, c.Fits)
    (hstep : Pool.step (Env.healthy ord) op (w, p) = (res, w', p')) (hres : res ≠ .panic) : Seated w' p' := by
  refine step_rule h (fun _ hop => h.phase hop) (fun _ _ halloc => (h.alloc halloc).1) ?_ hstep hres
  intro mop w₁ p₁ q w₂ s₂ hh h₁ happly hq
  refine h₁.apply happly hq ?_ (hfit _ hh.mem_metaCalls) (h.sparesRoot hh)
  rw [MetaStore.commitReport_healthy]
  simp

/-- **However a call ends**, stopped or by a panic, the log it leaves starts with the root. -/
theorem Seated.stopped (h : Seated w p) (henv : env.Whole) (hfit : ∀ c ∈ p.metaCalls env w op, c.Fits) :
    HoldsRoot ((Pool.step env op (w, p)).2.1.disk 0) := by
  rcases step_world env w p op with hsame | ⟨x, hop, hdata⟩ | ⟨mop, w₁, p₁, hh, hworld⟩
  · rw [hsame]
    exact h.holdsRoot
  · rw [hdata]
    exact (h.phase hop).holdsRoot
  · rw [hworld]
    exact (hh.seated h hfit).applyStopped henv (hfit _ hh.mem_metaCalls) (h.sparesRoot hh)

/-- No call hands out the root's number. -/
theorem Seated.created_ne {id : InodeId} (h : Seated w p) (hstep : Pool.step env op (w, p) = (.ok (.inode id), w', p')) :
    id ≠ rootInode := by
  rcases step_cases hstep (by simp) with ⟨⟨_, _, _, rfl⟩, -⟩ | ⟨_, _, -, -, hres⟩ | ⟨mop, w₁, p₁, q, s', hh, -, -, hc⟩
  · obtain ⟨b, s, -, hval⟩ := Action.bind_eq_ok.mp hstep
    obtain ⟨hval, -⟩ := Action.pure_eq_ok.mp hval
    cases hval
  · cases hres
  · generalize hval : (Res.ok (PoolVal.inode id) : Res PoolError PoolVal) = res at hc
    cases hc with
    | refused e => cases hval
    | accepted hmop =>
        cases hh with
        | link halloc hcreate =>
            obtain rfl := PoolVal.inode.inj (Res.ok.inj hval)
            exact (h.alloc halloc).2
        | create halloc => exact absurd rfl (hmop _)
        | phase hop hx =>
            rcases dataPhase_eq_ok hop hx with ⟨_, _, _, -, rfl⟩ | ⟨_, _, -, rfl⟩ | ⟨_, _, _, _, -, rfl⟩
            · cases hval
            · cases hval
            · cases hval
        | beginConvert => cases hval
        | setRedundancy => cases hval
        | unlink => cases hval

/-! ## Starts -/

/-- The root's frame is short. -/
theorem length_rootFrame (ord : IterOrder) (n : Nat) (now : UInt64) :
    (MetaStore.opFrame ord (.createInode (rootRecord n now))).length ≤ Wal.walCapacityBytes := by
  have hslots : (encodeRedundancyScheme (.replicated (List.replicate (min 2 n) (.anyOfClass none)))).length ≤ 100 := by
    have hmin : min 2 n = 0 ∨ min 2 n = 1 ∨ min 2 n = 2 := by omega
    rcases hmin with hmin | hmin | hmin
    · rw [hmin]; decide
    · rw [hmin]; decide
    · rw [hmin]; decide
  have hlen : (encodeOp ord (.createInode (rootRecord n now))).length =
      43 + (encodeRedundancyScheme (.replicated (List.replicate (min 2 n) (.anyOfClass none)))).length := by
    have hmode : (encodeInodeMode .writable).length = 1 := rfl
    have hdata : (encodeDataLocator (.extents [])).length = 5 := rfl
    simp only [encodeOp, encodeInodeRecord, rootRecord, Enc.u8, Enc.u32, Enc.u64, List.length_append, length_leBytes,
      List.length_singleton, hmode, hdata]
    omega
  rw [MetaStore.opFrame, Wal.length_buildFrame, hlen]
  unfold Wal.headerLen Wal.walCapacityBytes
  omega

/-- A successful format seats the root. -/
theorem seated_format {w₀ : World} {n : Nat} {classes : List DiskClass} {now : UInt64}
    (h : formatWithClasses env w₀ n classes now = (.ok (), w, some p)) : Seated w p := by
  obtain ⟨hn, -, s, happly, rfl, -⟩ := format_eq_ok h
  have hopen := openStore_createDisks w₀ hn
  obtain ⟨hlog, hview⟩ := MetaStore.apply_eq_ok (metaWf_open hopen).2 happly
  have hblank : Wal.Carries ((createDisks w₀ n).disk 0) [] 0 := by
    refine Wal.carries_nil fun i => ?_
    rw [show (createDisks w₀ n).disk 0 = .create diskFileCapacityBytes from if_pos (Nat.pos_of_ne_zero hn)]
    rfl
  refine ⟨(metaWf_open hopen).apply happly, hlog.primaryDisk_eq, View.created_lt_applyLocally hview,
    [encodeOp env.ord (.createInode (rootRecord n now))], ?_, rootLog_singleton _ _ _⟩
  have hcarries := hblank.snoc (show 0 + (Wal.buildFrame (encodeOp env.ord (.createInode (rootRecord n now)))).length ≤ _ by
    rw [Nat.zero_add]
    exact length_rootFrame env.ord n now)
  have hdisk := hlog.disk_eq
  show Wal.Carries (w.disk 0) _ s.walCursor
  rw [hlog.cursor_eq]
  exact (show w.disk 0 = _ from hdisk) ▸ hcarries

/-- **A pool opened from such a log has its root**, and goes on from there. -/
theorem seated_open {n : Nat} {classes : List DiskClass} (hdisk : HoldsRoot (w.disk 0))
    (h : openWithClasses w n classes = .ok p) :
    Seated w p ∧ ∃ rec, p.getInode rootInode = .ok (some rec) ∧ IsDirectory rec := by
  obtain ⟨-, -, s, hopen, rfl⟩ := openWithClasses_eq_ok h
  obtain ⟨ps, e, hcarries, hroot⟩ := hdisk
  obtain ⟨hreplay, hs⟩ := MetaStore.openStore_eq_ok hopen
  rw [hcarries.scan_eq] at hreplay hs
  have hcap := Wal.walCapacityBytes_lt
  have hlen := hcarries.chain.length_le Wal.probe_bounded
  have hend := hcarries.chain.end_le Wal.probe_bounded (Nat.zero_le _)
  have hrooted := replay_root (by omega) hroot hreplay
  refine ⟨⟨metaWf_open hopen, ?_, hrooted.next, ps, ?_, hroot⟩, ?_⟩
  · show s.replicator.primaryDisk = 0
    rw [hs]
  · show Wal.Carries (w.disk 0) ps s.walCursor
    rw [hs]
    exact hcarries
  · obtain ⟨rec, hget, hdir⟩ := hrooted.getInode
    exact ⟨rec, Res.mapErr_eq_ok.mpr hget, hdir⟩

end Pool

end Tartine
