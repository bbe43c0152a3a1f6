import Tartine.Meta.Replay

/-!
# `Meta.Recovery` — replaying the log rebuilds the live metadata

A run of accepted operations, with any number of drops and reopens between them, keeps the relation `Tracks`: the
primary carries exactly the operations' encodings, and replaying those gives the tables the live store has. The
relation is all recovery needs: `Tracks.openStore_eq`.

Disks may fail during the run, as long as `apply` still returned Ok (a lost backup is fenced and the run goes on).
-/

namespace Tartine.MetaStore

open Basis Codec

/-- The store's readers, on its tables. -/
def getInode (s : MetaStore) (id : InodeId) : Res MetaStoreError (Option InodeRecord) := s.view.getInode id

def lookup (s : MetaStore) (parent : InodeId) (name : String) : Option InodeId := s.view.lookup parent name

def readdir (s : MetaStore) (parent : InodeId) : Res MetaStoreError (List (String × InodeId)) :=
  s.view.readdir parent

/-- Runs in which every `apply` returned Ok, from a zero-filled primary, with inode numbers handed out and the
    store dropped and reopened in between; with the operations applied and the bytes of their frames. Each step
    has its own environment, so failures and iteration orders may differ from step to step. -/
inductive OkRun (primary : DiskRef) : World → MetaStore → List MetaOp → Nat → Prop where
  | fresh {w s group backup} (hzero : ∀ i, (w.disk primary).bytes i = 0) (hne : backup ≠ some primary)
      (h : openStore w group primary backup = .ok s) : OkRun primary w s [] 0
  | apply {w s ops total w' s'} (env : Env) (op : MetaOp) (hrun : OkRun primary w s ops total)
      (h : s.apply env w op = (.ok (), w', s')) :
      OkRun primary w' s' (ops ++ [op]) (total + (opFrame env.ord op).length)
  | alloc {w s ops total id s'} (hrun : OkRun primary w s ops total) (h : s.allocInode = .ok (id, s')) :
      OkRun primary w s' ops total
  | reopen {w s ops total group backup s'} (hrun : OkRun primary w s ops total) (hne : backup ≠ some primary)
      (h : openStore w group primary backup = .ok s') : OkRun primary w s' ops total

/-- What a run keeps true: the log on the primary is the operations' log, and it replays to the live tables. -/
structure Tracks (primary : DiskRef) (w : World) (s : MetaStore) (ops : List MetaOp) (total : Nat)
    (ps : List Bytes) (v : View) : Prop where
  primaryDisk_eq : s.replicator.primaryDisk = primary
  backupDisk_ne : s.replicator.backupDisk ≠ some primary
  base_eq : s.walBaseOffset = 0
  cursor_eq : s.walCursor = total
  carries : Wal.Carries (w.disk primary) ps total
  replay_eq : View.empty.replay ps = .ok v
  ops_eq : ops.foldlM View.applyLocally View.empty = .ok v
  sameTables : v.SameTables s.view
  created_lt : ∀ rec, .createInode rec ∈ ops → rec.inode.toNat < v.nextInode.toNat

variable {primary : DiskRef} {w w' : World} {s s' : MetaStore} {ops : List MetaOp} {total : Nat}
  {ps : List Bytes} {v : View}

/-- Opening a disk whose scan finds a log that replays. -/
theorem openStore_of_scan (group : MetaGroup) (backup : Option DiskRef) {e : Nat} {corrupt : Option Nat}
    (hscan : Wal.scan (w.disk primary) 0 = ⟨ps, e, corrupt⟩) (hv : View.empty.replay ps = .ok v) :
    openStore w group primary backup =
      .ok { replicator := ⟨group, primary, backup⟩, walBaseOffset := 0, walCursor := e, view := v } := by
  unfold openStore
  dsimp only
  rw [hscan]
  simp only [hv, Res.ok_bind, Res.pure_eq]

/-- Opening a disk that carries a log whose replay succeeds. -/
theorem openStore_of_carries (group : MetaGroup) (backup : Option DiskRef) {e : Nat}
    (hc : Wal.Carries (w.disk primary) ps e) (hv : View.empty.replay ps = .ok v) :
    openStore w group primary backup =
      .ok { replicator := ⟨group, primary, backup⟩, walBaseOffset := 0, walCursor := e, view := v } :=
  openStore_of_scan group backup hc.scan_eq hv

theorem Tracks.openStore_eq (h : Tracks primary w s ops total ps v) (group : MetaGroup)
    (backup : Option DiskRef) : openStore w group primary backup =
      .ok { replicator := ⟨group, primary, backup⟩, walBaseOffset := 0, walCursor := total, view := v } :=
  openStore_of_carries group backup h.carries h.replay_eq

/-! ## The relation holds initially and is kept by every step -/

theorem tracks_fresh {group : MetaGroup} {backup : Option DiskRef}
    (hzero : ∀ i, (w.disk primary).bytes i = 0) (hne : backup ≠ some primary)
    (h : openStore w group primary backup = .ok s) : Tracks primary w s [] 0 [] View.empty := by
  have hc := Wal.carries_nil hzero
  rw [openStore_of_carries group backup hc (v := View.empty) rfl] at h
  obtain rfl := Res.ok.inj h
  exact ⟨rfl, hne, rfl, rfl, hc, rfl, rfl, ⟨rfl, rfl⟩, fun rec hrec => absurd hrec (by simp)⟩

/-- **Step lemma.** An accepted operation extends the log by its encoding and both tables by its effect. -/
theorem Tracks.apply (env : Env) (op : MetaOp) (ht : Tracks primary w s ops total ps v) (hfits : op.Fits)
    (hcap : total + (opFrame env.ord op).length ≤ Wal.walCapacityBytes)
    (h : s.apply env w op = (.ok (), w', s')) : ∃ v',
      Tracks primary w' s' (ops ++ [op]) (total + (opFrame env.ord op).length) (ps ++ [encodeOp env.ord op]) v' := by
  have hprim := ht.primaryDisk_eq
  obtain ⟨⟨hbase, hcursor, hprim', hne', hdisk⟩, hu⟩ := apply_eq_ok (by rw [hprim]; exact ht.backupDisk_ne) h
  rw [hprim] at hprim' hne' hdisk
  rw [ht.base_eq, ht.cursor_eq, Nat.zero_add] at hdisk
  -- the tables the log stood for accept the operation too
  obtain ⟨v', u', hv', hu', hsame⟩ : ∃ v' u', v.applyLocally op = .ok v' ∧ s.view.applyLocally op = .ok u' ∧
      v'.SameTables u' := by
    rcases ht.sameTables.applyLocally op with hok | ⟨e, -, he⟩ | ⟨-, hp⟩
    · exact hok
    · rw [hu] at he; cases he
    · rw [hu] at hp; cases hp
  obtain rfl : s'.view = u' := Res.ok.inj (hu.symm.trans hu')
  refine ⟨v', ?_⟩
  -- log, replay, operations, tables, inode counter
  refine ⟨hprim', hne', hbase.trans ht.base_eq, by rw [hcursor, ht.cursor_eq], ?_, ?_, ?_, ?_, ?_⟩
  · rw [hdisk]
    exact ht.carries.snoc hcap
  · rw [View.replay_snoc, ht.replay_eq, Res.ok_bind, View.replayEntry_encodeOp _ _ hfits, hv']
  · rw [List.foldlM_append, ht.ops_eq]
    show (v.applyLocally op >>= pure) = _
    rw [bind_pure, hv']
  · exact hsame
  · intro rec hrec
    rcases List.mem_append.mp hrec with hold | hnew
    · exact Nat.lt_of_lt_of_le (ht.created_lt rec hold) (View.nextInode_le_applyLocally hv')
    · obtain rfl : MetaOp.createInode rec = op := by simpa using hnew
      exact View.created_lt_applyLocally hv'

/-- **Run lemma.** Along every run within the log's capacity, the log tracks the live store. -/
theorem OkRun.tracks (hrun : OkRun primary w s ops total) (hcap : total ≤ Wal.walCapacityBytes) :
    ∃ ps v, Tracks primary w s ops total ps v := by
  induction hrun with
  | fresh hzero hne h => exact ⟨[], View.empty, tracks_fresh hzero hne h⟩
  | apply env op hrun h ih =>
      obtain ⟨ps, v, ht⟩ := ih (by omega)
      obtain ⟨v', ht'⟩ := ht.apply env op (fits_of_frame hcap) hcap h
      exact ⟨_, v', ht'⟩
  | alloc hrun h ih =>
      obtain ⟨ps, v, ht⟩ := ih hcap
      obtain ⟨next, -, hs⟩ := Res.bind_eq_ok.mp h
      obtain ⟨-, rfl⟩ := Prod.mk.inj (Res.ok.inj hs)
      -- an allocation moves the live counter only, and `SameTables` does not look at counters
      exact ⟨ps, v, ht.primaryDisk_eq, ht.backupDisk_ne, ht.base_eq, ht.cursor_eq, ht.carries, ht.replay_eq,
        ht.ops_eq, ht.sameTables, ht.created_lt⟩
  | reopen hrun hne h ih =>
      obtain ⟨ps, v, ht⟩ := ih hcap
      -- the new store's tables are the replayed ones themselves
      rw [ht.openStore_eq] at h
      obtain rfl := Res.ok.inj h
      exact ⟨ps, v, rfl, hne, rfl, rfl, ht.carries, ht.replay_eq, ht.ops_eq, ⟨rfl, rfl⟩, ht.created_lt⟩

/-- **Replay rebuilds exactly the live metadata.** After any run of accepted operations whose frames fit the log,
    a reopen succeeds at the writer's cursor, every read of the tables returns what it returned before, and the
    inode counter is past every inode ever created. -/
theorem reopen_rebuilds_live (hrun : OkRun primary w s ops total) (hcap : total ≤ Wal.walCapacityBytes)
    (group : MetaGroup) (backup : Option DiskRef) :
    ∃ s', openStore w group primary backup = .ok s' ∧ s'.walCursor = s.walCursor ∧
      (∀ id, s'.getInode id = s.getInode id) ∧ (∀ parent name, s'.lookup parent name = s.lookup parent name) ∧
      (∀ parent, s'.readdir parent = s.readdir parent) ∧
      ∀ rec, .createInode rec ∈ ops → rec.inode < s'.view.nextInode := by
  obtain ⟨ps, v, ht⟩ := hrun.tracks hcap
  obtain ⟨hi, hd⟩ := ht.sameTables
  refine ⟨_, ht.openStore_eq group backup, ht.cursor_eq.symm, ?_, ?_, ?_, ?_⟩
  · intro id
    show v.getInode id = s.view.getInode id
    unfold View.getInode
    rw [hi]
  · intro parent name
    show v.lookup parent name = s.view.lookup parent name
    unfold View.lookup
    rw [hd]
  · intro parent
    show v.readdir parent = s.view.readdir parent
    unfold View.readdir
    rw [hd]
  · intro rec hrec
    exact UInt64.lt_iff_toNat_lt.mpr (ht.created_lt rec hrec)

/-- A one-disk group, its iteration order, and an empty file, for concrete runs. -/
def soloGroup : MetaGroup := ⟨⟨1⟩, none, 0⟩

def listOrder : IterOrder := ⟨id, fun _ => .refl _⟩

def emptyFile (inode : InodeId) : InodeRecord :=
  { inode := inode, mode := .appendOnly, size := 0, redundancy := .replicated [.anyOfClass none],
    data := .chunkLog [], uid := 0, gid := 0, unixMode := 0o100644, mtimeUnix := 0 }

/-- Operations applied one after another on healthy disks, up to the first that is not accepted. -/
def applyAll (ord : IterOrder) : List MetaOp → World × MetaStore → Res MetaStoreError (World × MetaStore)
  | [],        a => .ok a
  | op :: ops, a =>
      match a.2.apply (Env.healthy ord) a.1 op with
      | (.ok (), a) => applyAll ord ops a
      | (.err e, _) => .err e
      | (.panic, _) => .panic

theorem OkRun.applyAll {ord : IterOrder} {more : List MetaOp} {a a' : World × MetaStore}
    (hrun : OkRun primary a.1 a.2 ops total) (h : MetaStore.applyAll ord more a = .ok a') :
    OkRun primary a'.1 a'.2 (ops ++ more) (total + (more.flatMap (opFrame ord)).length) := by
  induction more generalizing a ops total with
  | nil =>
      obtain rfl := Res.ok.inj h
      simpa using hrun
  | cons op more ih =>
      unfold MetaStore.applyAll at h
      split at h
      · rename_i a₁ happly
        have hrest := ih (hrun.apply (Env.healthy ord) op happly) h
        rw [List.append_assoc, List.singleton_append] at hrest
        rw [List.flatMap_cons, List.length_append, ← Nat.add_assoc]
        exact hrest
      · cases h
      · cases h

/-- A store on a zero-filled disk of one log's length. -/
def freshDisk : World × MetaStore := (World.blank Wal.walCapacityBytes, ⟨⟨soloGroup, 0, none⟩, 0, 0, View.empty⟩)

theorem okRun_freshDisk : OkRun 0 freshDisk.1 freshDisk.2 [] 0 :=
  .fresh (fun _ => rfl) (by decide) (openStore_of_carries soloGroup none (Wal.carries_nil (fun _ => rfl)) rfl)

/-- Two files are made and named. -/
def twoFiles : List MetaOp :=
  [.createInode (emptyFile 2), .link 1 "a" 2, .createInode (emptyFile 3), .link 1 "b" 3]

/-- One loses its name, the other is converted. -/
def afterwards : List MetaOp := [.unlink 1 "a", .beginConvert 3]

def twoFilesDisk : World × MetaStore := (applyAll listOrder twoFiles freshDisk).getD freshDisk

theorem okRun_twoFiles : OkRun 0 twoFilesDisk.1 twoFilesDisk.2 twoFiles (0 + (twoFiles.flatMap (opFrame listOrder)).length) := by
  have hmade : applyAll listOrder twoFiles freshDisk = .ok twoFilesDisk := by
    unfold twoFilesDisk
    exact Res.eq_ok_getD freshDisk (by decide +kernel)
  have hrun := okRun_freshDisk.applyAll hmade
  rwa [List.nil_append] at hrun

/-- The store that opens what these operations left. -/
def reopenedDisk : World × MetaStore :=
  (twoFilesDisk.1, (openStore twoFilesDisk.1 soloGroup 0 none).getD freshDisk.2)

def usedDisk : World × MetaStore := (applyAll listOrder afterwards reopenedDisk).getD freshDisk

/-- The theorem where two files are made, the store is reopened, and is used further. -/
theorem reopen_rebuilds_live_twoFiles : ∃ w s total s',
    OkRun 0 w s (twoFiles ++ afterwards) total ∧ openStore w soloGroup 0 none = .ok s' ∧
      s'.walCursor = s.walCursor ∧ s'.getInode 3 = s.getInode 3 ∧ s'.lookup 1 "a" = s.lookup 1 "a" ∧
      s'.readdir 1 = s.readdir 1 ∧ (emptyFile 3).inode < s'.view.nextInode := by
  have hreopened : openStore twoFilesDisk.1 soloGroup 0 none = .ok reopenedDisk.2 := by
    unfold reopenedDisk
    dsimp only
    exact Res.eq_ok_getD freshDisk.2 (by decide +kernel)
  have hused : applyAll listOrder afterwards reopenedDisk = .ok usedDisk := by
    unfold usedDisk
    exact Res.eq_ok_getD freshDisk (by decide +kernel)
  have hopened : OkRun 0 reopenedDisk.1 reopenedDisk.2 twoFiles (0 + (twoFiles.flatMap (opFrame listOrder)).length) :=
    okRun_twoFiles.reopen (by decide) hreopened
  have hrun := hopened.applyAll hused
  have hcap : 0 + (twoFiles.flatMap (opFrame listOrder)).length + (afterwards.flatMap (opFrame listOrder)).length ≤
      Wal.walCapacityBytes := by
    decide +kernel
  obtain ⟨s', hopen, hcursor, hget, hlookup, hdir, hnext⟩ := reopen_rebuilds_live hrun hcap soloGroup none
  exact ⟨_, _, _, s', hrun, hopen, hcursor, hget 3, hlookup 1 "a", hdir 1, hnext _ (by simp [twoFiles])⟩

end Tartine.MetaStore
