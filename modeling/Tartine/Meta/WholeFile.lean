import Tartine.Meta.PoolFaults
import Tartine.Meta.PoolPolicy
import Tartine.Meta.PoolRefinement

/-!
# `Meta.WholeFile` — rewrites of files of any size

A rewrite reads the whole file, changes it in memory and stores it as one extent, whose length field has 32 bits. A random
write then recomputes the file's size from that field; the completion of a conversion keeps the size it found.

What is shown is for every reachable pool, so also for one that earlier rewrites left with a size its extents do not
cover: whatever the devices do, a write keeps the whole file if it stays in range of the machine integers and of the length
field, and on healthy devices only then.

* `writeReplicas_ne_panic`, `addressedInTurn_of_ok`, `writeReplicas_ne_err` — the replica loop of a rewrite;
* `write_eq_ok`, `completeConvert_eq_ok` — the record a rewrite leaves;
* `rewrite_keeps_iff` — when a write, or a conversion, keeps the whole file.
-/

namespace Tartine

open Basis Codec

namespace Pool

variable {env : Env} {w w' : World} {p p' : Pool} {mop : MetaOp} {n : Nat} {rec : InodeRecord} {inode : InodeId}
  {content : Bytes}

/-! ## The replica loop -/

/-- The content can be addressed at the cursor, and so can what follows it. -/
def Addressed (len : Nat) (handle : DiskHandle) : Prop :=
  segmentBaseOffset + handle.cursor < 2 ^ 64 ∧ handle.cursor + len < 2 ^ 64

/-- The content is addressed on one disk after another, with the cursors the loop leaves. -/
def AddressedInTurn (len : Nat) : List DiskId → Pool → Prop
  | [],        _ => True
  | id :: ids, p => ∀ handle, p.disks[id]? = some handle →
      Addressed len handle ∧ AddressedInTurn len ids (p.moveCursor id handle (handle.cursor + len))

/-- Every chosen disk is a member of the pool. -/
def Members (ids : List DiskId) (p : Pool) : Prop := ∀ id ∈ ids, (p.disks[id]?).isSome

/-- The disks a policy is placed on are members of the pool. -/
theorem members_of_place {ord : IterOrder} {scheme : RedundancyScheme} {key : UInt64} {ids : List DiskId}
    (hmem : Membered p) (h : p.place ord scheme key = .ok ids) : Members ids p :=
  fun id hid => hmem id (mem_poolMap_of_place h id hid)

theorem Members.moveCursor {ids : List DiskId} {id : DiskId} {handle : DiskHandle} {cursor : Nat} (h : Members ids p) :
    Members ids (p.moveCursor id handle cursor) := by
  intro id' hid'
  rw [moveCursor_disks]
  split
  · rfl
  · exact h id' hid'

/-- What one disk's turn can do with the content. -/
inductive ExtentTurn (env : Env) (content : Bytes) (id : DiskId) (s : World × Pool) :
    Res PoolError (DiskId × UInt64) → World × Pool → Prop where
  | unknown {t} (hid : s.2.disks[id]? = none) : ExtentTurn env content id s (.err .unplaceable) t
  | stored {handle v} (hid : s.2.disks[id]? = some handle) (haddr : Addressed content.length handle) :
      ExtentTurn env content id s (.ok (id, UInt64.ofNat handle.cursor))
        (v, s.2.moveCursor id handle (handle.cursor + content.length))
  | unaddressed {handle t} (hid : s.2.disks[id]? = some handle) (hno : ¬Addressed content.length handle) :
      ExtentTurn env content id s .panic t
  | failed {e t} (hio : env.io ≠ healthy) : ExtentTurn env content id s (.err e) t

theorem extentTurn_storeExtent (env : Env) (content : Bytes) (id : DiskId) (s : World × Pool) :
    ExtentTurn env content id s (writeReplica (storeExtent env content) id s).1
      (writeReplica (storeExtent env content) id s).2 := by
  obtain ⟨w, p⟩ := s
  unfold writeReplica
  dsimp only
  cases hid : p.disks[id]? with
  | none => exact .unknown hid
  | some handle =>
      unfold storeExtent
      dsimp only
      rcases Nat.lt_or_ge (segmentBaseOffset + handle.cursor) (2 ^ 64) with hbase | hbase
      · rw [if_neg (Nat.not_le.mpr hbase)]
        rcases hwrite : w.writeSync env handle.disk (segmentBaseOffset + handle.cursor) content with ⟨e | u, w'⟩
        · refine .failed fun hio => ?_
          obtain ⟨ord, rfl⟩ := Env.eq_healthy hio
          rw [World.writeSync_healthy] at hwrite
          cases (Prod.mk.inj hwrite).1
        · dsimp only
          rcases Nat.lt_or_ge (handle.cursor + content.length) (2 ^ 64) with hstop | hstop
          · rw [if_neg (Nat.not_le.mpr hstop)]
            exact .stored hid ⟨hbase, hstop⟩
          · rw [if_pos hstop]
            exact .unaddressed hid fun h => absurd h.2 (Nat.not_lt.mpr hstop)
      · rw [if_pos hbase]
        exact .unaddressed hid fun h => absurd h.1 (Nat.not_lt.mpr hbase)

/-- Addressed on every disk, the loop does not panic, whatever the devices do. -/
theorem writeReplicas_ne_panic {ids : List DiskId} (h : AddressedInTurn content.length ids p) :
    (writeReplicas (storeExtent env content) ids (w, p)).1 ≠ .panic := by
  induction ids generalizing w p with
  | nil => exact fun he => by cases he
  | cons id ids ih =>
      have hturn := extentTurn_storeExtent env content id (w, p)
      generalize hout : writeReplica (storeExtent env content) id (w, p) = out at hturn
      obtain ⟨res, s⟩ := out
      refine Action.bind_ne_panic ?_ fun written s' hok => ?_
      · rw [hout]
        cases hturn with
        | unknown hid => exact fun he => by cases he
        | stored hid haddr => exact fun he => by cases he
        | unaddressed hid hno => exact absurd (h _ hid).1 hno
        | failed hio => exact fun he => by cases he
      · refine Action.bind_ne_panic ?_ fun rest s' _ he => by cases he
        rw [hout] at hok
        obtain ⟨rfl, rfl⟩ := Prod.mk.inj hok
        cases hturn with
        | stored hid haddr => exact ih (h _ hid).2

/-- What the loop stored, it could address. -/
theorem addressedInTurn_of_ok {ids : List DiskId} {replicas : List (DiskId × UInt64)} {s : World × Pool}
    (h : writeReplicas (storeExtent env content) ids (w, p) = (.ok replicas, s)) : AddressedInTurn content.length ids p := by
  induction ids generalizing w p replicas s with
  | nil => trivial
  | cons id ids ih =>
      intro handle hid
      obtain ⟨written, s₁, hout, h⟩ := Action.bind_eq_ok.mp h
      obtain ⟨rest, s₂, hrest, -⟩ := Action.bind_eq_ok.mp h
      have hturn := extentTurn_storeExtent env content id (w, p)
      rw [hout] at hturn
      cases hturn with
      | stored hid' haddr =>
          obtain rfl := Option.some.inj (hid.symm.trans hid')
          exact ⟨haddr, ih hrest⟩

/-- Over members of the pool, the loop fails only where one of its writes does. -/
theorem writeReplicas_err {writeOne : World → DiskHandle → Res PoolError Nat × World} {ids : List DiskId} {e : PoolError}
    {s : World × Pool} (hmem : Members ids p) (h : writeReplicas writeOne ids (w, p) = (.err e, s)) :
    ∃ w₁ handle w₂, writeOne w₁ handle = (.err e, w₂) := by
  induction ids generalizing w p s with
  | nil => cases (Prod.mk.inj h).1
  | cons id ids ih =>
      obtain ⟨hfirst, hrest⟩ := List.forall_mem_cons.mp hmem
      obtain ⟨handle, hid⟩ := Option.isSome_iff_exists.mp hfirst
      rcases Action.bind_cases h with ⟨written, s₁, hturn, h⟩ | ⟨e', hturn, he⟩ | ⟨-, he⟩
      · unfold writeReplica at hturn
        simp only [hid] at hturn
        split at hturn
        · cases (Prod.mk.inj hturn).1
        · cases (Prod.mk.inj hturn).1
        · obtain ⟨-, rfl⟩ := Prod.mk.inj hturn
          rcases Action.returns_cases h (by simp) with ⟨_, -, hok⟩ | ⟨e', hloop, he⟩
          · cases hok
          · obtain rfl := Res.err.inj he
            exact ih (Members.moveCursor hrest) hloop
      · obtain rfl := Res.err.inj he
        unfold writeReplica at hturn
        simp only [hid] at hturn
        split at hturn
        · rename_i hwrite
          obtain rfl := Res.err.inj (Prod.mk.inj hturn).1
          exact ⟨w, handle, _, hwrite⟩
        · cases (Prod.mk.inj hturn).1
        · cases (Prod.mk.inj hturn).1
      · cases he

theorem storeExtent_ne_err {handle : DiskHandle} {e : PoolError} (hio : env.io = healthy) :
    storeExtent env content w handle ≠ (.err e, w') := by
  obtain ⟨ord, rfl⟩ := Env.eq_healthy hio
  unfold storeExtent
  split
  · exact fun h => by cases (Prod.mk.inj h).1
  · rw [World.writeSync_healthy]
    dsimp only
    split
    · exact fun h => by cases (Prod.mk.inj h).1
    · exact fun h => by cases (Prod.mk.inj h).1

/-- On healthy disks that are members of the pool, nothing but a missing address stops the loop. -/
theorem writeReplicas_ne_err {ids : List DiskId} {e : PoolError} (hio : env.io = healthy) (hmem : Members ids p) :
    (writeReplicas (storeExtent env content) ids (w, p)).1 ≠ .err e := by
  intro he
  obtain ⟨w₁, handle, w₂, hwrite⟩ := writeReplicas_err hmem (Prod.ext he rfl)
  exact storeExtent_ne_err hio hwrite

/-! ## The data phase of a rewrite -/

/-- The placement key of a whole file. -/
abbrev wholeFileKey (inode : InodeId) : UInt64 := Placement.placementKey inode (UInt64.ofNat (2 ^ 64 - 1))

/-- The one extent of a rewrite: none for empty content, else the whole of it, with its length cut to 32 bits. -/
def WholeExtent (content : Bytes) (xs : List Extent) : Prop :=
  (content = [] ∧ xs = []) ∨ (content ≠ [] ∧ ∃ replicas : List (DiskId × UInt64), replicas.length ≤ 16 ∧
    xs = [⟨0, UInt32.ofNat content.length, replicas, Crc32c.checksum content⟩])

/-- Where a rewrite has stored its content: on each disk its policy was placed on. -/
structure StoredWhole (ord : IterOrder) (p : Pool) (inode : InodeId) (redundancy : RedundancyScheme) (content : Bytes)
    (xs : List Extent) (a : World × Pool) (ids : List DiskId) (replicas : List (DiskId × UInt64)) : Prop where
  place_eq : p.place ord redundancy (wholeFileKey inode) = .ok ids
  addressed : AddressedInTurn content.length ids p
  extents_eq : xs = [⟨0, UInt32.ofNat content.length, replicas, Crc32c.checksum content⟩]
  ids_eq : replicas.map Prod.fst = ids
  stored : ∀ r ∈ replicas, Stored a 0 content r

/-- What a rewrite hands to the log, and what it has stored by then. -/
theorem prepareExtents_whole {plan : World → Pool → Res PoolError (RedundancyScheme × Bytes)}
    {mkOp : List Extent → MetaOp} {s : World × Pool} (hok : HandlesOk p)
    (h : prepareExtents env inode plan mkOp (w, p) = (.ok mop, s)) :
    ∃ redundancy content xs, plan w p = .ok (redundancy, content) ∧ WholeExtent content xs ∧ mop = mkOp xs ∧
      (content ≠ [] → ∃ ids replicas, StoredWhole env.ord p inode redundancy content xs s ids replicas) := by
  obtain ⟨⟨redundancy, content⟩, s₁, hreads, h⟩ := Action.bind_eq_ok.mp h
  obtain ⟨hplan, rfl⟩ := Action.reads_eq_ok.mp hreads
  obtain ⟨extents, s₂, hextents, h⟩ := Action.bind_eq_ok.mp h
  obtain ⟨rfl, rfl⟩ := Action.pure_eq_ok.mp h
  refine ⟨redundancy, content, extents, hplan, ?_⟩
  unfold writeWholeFileExtent at hextents
  split at hextents
  · rename_i hnil
    obtain ⟨rfl, -⟩ := Action.pure_eq_ok.mp hextents
    exact ⟨Or.inl ⟨hnil, rfl⟩, rfl, fun hne => absurd hnil hne⟩
  · rename_i hne
    obtain ⟨ids, s₃, hreads, hextents⟩ := Action.bind_eq_ok.mp hextents
    obtain ⟨hplace, rfl⟩ := Action.reads_eq_ok.mp hreads
    obtain ⟨replicas, ⟨w₃, p₃⟩, hloop, hextents⟩ := Action.bind_eq_ok.mp hextents
    obtain ⟨rfl, rfl⟩ := Action.pure_eq_ok.mp hextents
    obtain ⟨hids, hstored⟩ := stored_writeReplicas (storeExtent_writes env content) (Nat.zero_le _) hok hloop
    obtain ⟨slots, -, hlen⟩ := length_place hplace
    have hfew : replicas.length ≤ 16 := by
      rw [← List.length_map (f := Prod.fst), hids, hlen]
      exact Nat.min_le_right _ _
    exact ⟨Or.inr ⟨hne, replicas, hfew, rfl⟩, rfl,
      fun _ => ⟨ids, replicas, hplace, addressedInTurn_of_ok hloop, rfl, hids, hstored⟩⟩

theorem place_ne_panic {ord : IterOrder} {scheme : RedundancyScheme} {key : UInt64} : p.place ord scheme key ≠ .panic := by
  refine Res.bind_ne_panic (Res.mapErr_ne_panic (Placement.placeRedundancy_ne_panic _ _ _ _ _)) fun placed _ => ?_
  split
  · exact fun h => by cases h
  · exact fun h => by cases h

/-- A rewrite panics at its plan, or where it cannot address the content it planned. -/
theorem prepareExtents_ne_panic {plan : World → Pool → Res PoolError (RedundancyScheme × Bytes)}
    {mkOp : List Extent → MetaOp} (hplan : plan w p ≠ .panic)
    (haddr : ∀ redundancy content, plan w p = .ok (redundancy, content) → content ≠ [] →
      ∀ ids, p.place env.ord redundancy (wholeFileKey inode) = .ok ids → AddressedInTurn content.length ids p) :
    (prepareExtents env inode plan mkOp (w, p)).1 ≠ .panic := by
  refine Action.bind_ne_panic hplan fun planned s hreads => ?_
  obtain ⟨hplanned, rfl⟩ := Action.reads_eq_ok.mp hreads
  obtain ⟨redundancy, content⟩ := planned
  refine Action.bind_ne_panic ?_ fun extents s _ h => by cases h
  unfold writeWholeFileExtent
  split
  · exact fun h => by cases h
  · rename_i hne
    refine Action.bind_ne_panic place_ne_panic fun ids s hreads => ?_
    obtain ⟨hplace, rfl⟩ := Action.reads_eq_ok.mp hreads
    exact Action.bind_ne_panic (writeReplicas_ne_panic (haddr _ _ hplanned hne ids hplace)) fun replicas s _ h => by cases h

/-- On healthy disks, a data phase that returns Err has changed nothing: it could not plan or place the content. -/
theorem prepareExtents_eq_err {plan : World → Pool → Res PoolError (RedundancyScheme × Bytes)}
    {mkOp : List Extent → MetaOp} {e : PoolError} {s : World × Pool} (hio : env.io = healthy) (hmem : Membered p)
    (h : prepareExtents env inode plan mkOp (w, p) = (.err e, s)) :
    s = (w, p) ∧ ∀ redundancy content, plan w p = .ok (redundancy, content) →
      ∀ ids, p.place env.ord redundancy (wholeFileKey inode) ≠ .ok ids := by
  rcases Action.bind_cases h with ⟨⟨redundancy, content⟩, s₁, hreads, h⟩ | ⟨e', hreads, -⟩ | ⟨-, he⟩
  · obtain ⟨hplan, rfl⟩ := Action.reads_eq_ok.mp hreads
    rcases Action.returns_cases h (by simp) with ⟨_, -, hok⟩ | ⟨e', hwhole, -⟩
    · cases hok
    unfold writeWholeFileExtent at hwhole
    split at hwhole
    · cases (Prod.mk.inj hwhole).1
    rcases Action.bind_cases hwhole with ⟨ids, s₂, hreads, hwhole⟩ | ⟨e'', hreads, -⟩ | ⟨-, he⟩
    · obtain ⟨hplace, rfl⟩ := Action.reads_eq_ok.mp hreads
      rcases Action.returns_cases hwhole (by simp) with ⟨_, -, hok⟩ | ⟨e'', hloop, -⟩
      · cases hok
      · exact absurd (congrArg Prod.fst hloop) (writeReplicas_ne_err hio (members_of_place hmem hplace))
    · obtain ⟨hplace, rfl⟩ := Action.reads_eq_err.mp hreads
      refine ⟨rfl, fun redundancy' content' hplan' ids hids => ?_⟩
      obtain ⟨rfl, rfl⟩ := Prod.mk.inj (Res.ok.inj (hplan.symm.trans hplan'))
      rw [show p.place env.ord redundancy (wholeFileKey inode) = .err e'' from hplace] at hids
      cases hids
    · cases he
  · obtain ⟨hplan, rfl⟩ := Action.reads_eq_err.mp hreads
    refine ⟨rfl, fun redundancy content hplan' => ?_⟩
    rw [show plan w p = .err e' from hplan] at hplan'
    cases hplan'
  · cases he

/-! ## Its metadata operation -/

/-- A backup that can still be fenced: none was before. -/
def FenceReady (s : MetaStore) : Prop := s.replicator.backupDisk ≠ none → s.group.epoch.toNat = 0

theorem FenceReady.apply {s s' : MetaStore} {res : Res MetaStoreError Unit} (h : FenceReady s)
    (hne : s.replicator.backupDisk ≠ some s.replicator.primaryDisk) (happly : s.apply env w mop = (res, w', s')) :
    FenceReady s' := by
  have hout := MetaStore.apply_outcome hne happly
  generalize s.commitReport env w mop = report at hout
  unfold FenceReady MetaStore.group at h ⊢
  cases hout with
  | logged hc => simpa using h
  | degraded hc hepoch => simp
  | epochOverflow hc => exact h
  | refused hc => exact h

/-- **Run lemma.** A pool fences its backup at most once. -/
theorem RunWith.fenceReady {opens : Nat → Prop} {events : List Event} (hrun : RunWith opens n w p events) :
    FenceReady p.metaStore := by
  induction hrun with
  | @format w₀ w p classes now env h =>
      obtain ⟨hn, -, s, happly, rfl, -⟩ := format_eq_ok h
      have hfresh : FenceReady (freshStore n) := fun _ => rfl
      exact hfresh.apply (metaWf_open (openStore_createDisks w₀ hn)).2 happly
  | @call w p events res w' p' env op hrun h hres ih =>
      have hkept : MetaWf p'.metaStore ∧ FenceReady p'.metaStore := by
        refine step_rule (I := fun _ q => MetaWf q.metaStore ∧ FenceReady q.metaStore) ⟨hrun.wf.1, ih⟩ ?_ ?_ ?_ h hres
        · intro x hop
          rw [show (x (w, p)).2.2.metaStore = p.metaStore from sameStore_dataPhase hop (w, p)]
          exact ⟨hrun.wf.1, ih⟩
        · intro id s halloc
          obtain ⟨next, -, hs⟩ := Res.bind_eq_ok.mp halloc
          obtain ⟨-, rfl⟩ := Prod.mk.inj (Res.ok.inj hs)
          exact ⟨hrun.wf.1.alloc halloc, ih⟩
        · rintro mop w₁ p₁ q w₂ s₂ - ⟨hwf, hready⟩ happly -
          exact ⟨hwf.apply happly, hready.apply hwf.2 happly⟩
      exact hkept.2
  | reopen hrun h hm ih =>
      obtain ⟨-, -, s, hopen, rfl⟩ := openWithClasses_eq_ok h
      obtain ⟨-, hs⟩ := MetaStore.openStore_eq_ok hopen
      show FenceReady s
      rw [hs]
      exact fun _ => rfl

/-- Where the tables do not panic, `apply` does not. -/
theorem apply_ne_panic {s : MetaStore} (hne : s.replicator.backupDisk ≠ some s.replicator.primaryDisk) (hready : FenceReady s)
    (hview : s.view.applyLocally mop ≠ .panic) : (s.apply env w mop).1 ≠ .panic := by
  have happlyView : ∀ s₁ : MetaStore, s₁.view = s.view → (s₁.applyView mop).1 ≠ .panic := by
    intro s₁ hsame
    unfold MetaStore.applyView
    rw [hsame]
    cases hv : s.view.applyLocally mop with
    | ok u => exact fun h => by cases h
    | err e => exact fun h => by cases h
    | panic => exact absurd hv hview
  have hc := commit_outcome env w s.replicator (MetaStore.opFrame env.ord mop) (s.walBaseOffset + s.walCursor) hne
  unfold MetaStore.apply
  dsimp only
  generalize s.replicator.commit env w (MetaStore.opFrame env.ord mop) (s.walBaseOffset + s.walCursor) = out at hc ⊢
  obtain ⟨report, w'⟩ := out
  dsimp only at hc ⊢
  cases hc with
  | durable hp hb ho => exact happlyView _ rfl
  | backupLost hp hback hleft hb ho =>
      have hepoch : s.replicator.group.epoch.toNat = 0 := hready (by rw [hback]; simp)
      unfold MetaReplicator.fenceBackup Res.checkedAdd
      rw [if_pos (by rw [hepoch]; decide)]
      exact happlyView _ rfl
  | primaryLost hleft hp ho => exact fun h => by cases h

theorem WholeExtent.fits {xs : List Extent} (h : WholeExtent content xs) : (DataLocator.extents xs).Fits := by
  rcases h with ⟨-, rfl⟩ | ⟨-, replicas, hfew, rfl⟩
  · exact ⟨by simp, by simp⟩
  · refine ⟨by simp, List.forall_mem_singleton.mpr ?_⟩
    show replicas.length < 2 ^ 32
    omega

theorem WholeExtent.stop_eq {xs : List Extent} (h : WholeExtent content xs) :
    ∀ x ∈ xs, x.fileOffset = 0 ∧ x.stop = content.length % 2 ^ 32 := by
  rcases h with ⟨-, rfl⟩ | ⟨-, replicas, -, rfl⟩
  · simp
  · refine List.forall_mem_singleton.mpr ⟨rfl, ?_⟩
    show 0 + (UInt32.ofNat content.length).toNat = _
    rw [UInt32.toNat_ofNat', Nat.zero_add]

/-- The size recomputed from a whole file's extent. -/
theorem WholeExtent.size_eq {xs : List Extent} (h : WholeExtent content xs) :
    (xs.map Extent.stop).foldr max 0 = content.length % 2 ^ 32 := by
  rcases h with ⟨rfl, rfl⟩ | ⟨hne, replicas, hfew, rfl⟩
  · rfl
  · obtain ⟨-, hstop⟩ := WholeExtent.stop_eq (Or.inr ⟨hne, replicas, hfew, rfl⟩) _ (List.mem_singleton.mpr rfl)
    rw [List.map_singleton, hstop]
    exact Nat.max_zero _

/-- What its extent holds of a file. -/
theorem WholeExtent.sum_eq {xs : List Extent} (h : WholeExtent content xs) :
    (xs.map fun x => x.len.toNat).sum = content.length % 2 ^ 32 := by
  rcases h with ⟨rfl, rfl⟩ | ⟨hne, replicas, hfew, rfl⟩
  · rfl
  · show (UInt32.ofNat content.length).toNat + 0 = _
    rw [UInt32.toNat_ofNat', Nat.add_zero]

/-- The tables take a whole file's extent for a file that is writable. -/
theorem exists_updateExtents {v : View} {xs : List Extent} (hhas : v.Has inode rec) (hmode : rec.mode = .writable)
    (h : WholeExtent content xs) : ∃ u, v.applyLocally (.updateExtents inode xs) = .ok u := by
  have hends : ∃ ends, extentEnds xs = .ok ends := by
    refine Res.exists_mapM fun x hx => ?_
    obtain ⟨hzero, -⟩ := h.stop_eq x hx
    have hsmall := x.len.toNat_lt
    unfold Res.checkedAdd
    rw [hzero, if_pos (by rw [UInt32.toNat_toUInt64]; simp; omega)]
    exact ⟨_, rfl⟩
  obtain ⟨ends, hends⟩ := hends
  show ∃ u, (v.readInode inode >>= _) = _
  rw [hhas.readInode_eq, Res.ok_bind, if_neg (not_not.mpr hmode), hends]
  exact ⟨_, rfl⟩

/-- The tables take the completion of a file that is converting. -/
theorem exists_completeConvert {v : View} (hhas : v.Has inode rec) (hmode : rec.mode = .converting) (xs : List Extent) :
    ∃ u, v.applyLocally (.completeConvert inode xs) = .ok u := by
  show ∃ u, (v.readInode inode >>= _) = _
  rw [hhas.readInode_eq, Res.ok_bind, stepMode_completeConvert.mpr ⟨hmode, rfl⟩]
  exact ⟨_, rfl⟩

/-! ## A whole rewrite -/

section Rewrite

variable {op : PoolOp} {plan : World → Pool → Res PoolError (RedundancyScheme × Bytes)} {mkOp : List Extent → MetaOp}

/-- A rewrite that returned Ok. -/
theorem rewrite_eq_ok {v : PoolVal} (hwf : MetaWf p.metaStore) (hok : HandlesOk p)
    (hop : dataPhase env op = some (prepareExtents env inode plan mkOp)) (h : step env op (w, p) = (.ok v, w', p')) :
    ∃ redundancy content xs, plan w p = .ok (redundancy, content) ∧ WholeExtent content xs ∧
      (content ≠ [] → ∃ a ids replicas, StoredWhole env.ord p inode redundancy content xs a ids replicas ∧
        ((∀ c ∈ p.metaCalls env w op, c.Fits) → Retains a (w', p'))) ∧
      p.metaStore.view.applyLocally (mkOp xs) = .ok p'.metaStore.view := by
  rcases step_cases h (by simp) with ⟨⟨_, _, _, rfl⟩, -⟩ | ⟨x, e, -, -, he⟩ | ⟨mop, w₁, p₁, q, s', hh, happly, rfl, hcloses⟩
  · cases hop
  · cases he
  · cases hcloses
    cases hh with
    | phase hop' hx =>
        obtain rfl := Option.some.inj (hop.symm.trans hop')
        have hsame := metaStore_of_dataPhase hop hx
        obtain ⟨redundancy, content, xs, hplan, hwhole, rfl, hstored⟩ := prepareExtents_whole hok hx
        have hret : (∀ c ∈ p.metaCalls env w op, c.Fits) → Retains (w₁, p₁) (w', { p₁ with metaStore := s' }) :=
          fun hfit => retains_applyMeta (hsame ▸ hwf) (hfit _ (Hands.phase hop hx).mem_metaCalls) happly
        rw [hsame] at happly
        refine ⟨redundancy, content, xs, hplan, hwhole, fun hne => ?_, (MetaStore.apply_eq_ok hwf.2 happly).2⟩
        obtain ⟨ids, replicas, hstored⟩ := hstored hne
        exact ⟨_, ids, replicas, hstored, hret⟩
    | beginConvert => cases hop
    | setRedundancy => cases hop
    | unlink => cases hop
    | create halloc => cases hop
    | link halloc hcreate => cases hop

/-- A rewrite whose data phase does not panic and whose operation the tables take. -/
theorem rewrite_ne_panic (hwf : MetaWf p.metaStore) (hready : FenceReady p.metaStore) (hok : HandlesOk p)
    (hop : dataPhase env op = some (prepareExtents env inode plan mkOp))
    (hphase : (prepareExtents env inode plan mkOp (w, p)).1 ≠ .panic)
    (htakes : ∀ content xs, WholeExtent content xs → ∃ u, p.metaStore.view.applyLocally (mkOp xs) = .ok u) :
    (step env op (w, p)).1 ≠ .panic := by
  rw [step_of_dataPhase hop]
  refine Action.bind_ne_panic (Action.bind_ne_panic hphase fun mop s hx => ?_) fun _ _ _ h => by cases h
  obtain ⟨w₁, p₁⟩ := s
  have hsame := metaStore_of_dataPhase hop hx
  obtain ⟨-, content, xs, -, hwhole, rfl, -⟩ := prepareExtents_whole hok hx
  obtain ⟨u, hu⟩ := htakes content xs hwhole
  refine Res.mapErr_ne_panic ?_
  rw [hsame]
  refine apply_ne_panic hwf.2 hready ?_
  rw [hu]
  exact fun h => by cases h

/-- What panics in the data phase panics. -/
theorem phase_ne_panic {x : PoolM MetaOp} (hop : dataPhase env op = some x) (h : (step env op (w, p)).1 ≠ .panic) :
    (x (w, p)).1 ≠ .panic := by
  intro hx
  refine h ?_
  rw [step_of_dataPhase hop]
  exact Action.bind_of_panic (Action.bind_of_panic hx)

/-- On healthy disks a rewrite that returns Err has changed nothing, and could not be planned or placed. -/
theorem rewrite_eq_err {e : PoolError} (hok : HandlesOk p) (hmem : Membered p) (hio : env.io = healthy)
    (hop : dataPhase env op = some (prepareExtents env inode plan mkOp))
    (htakes : ∀ content xs, WholeExtent content xs → ∃ u, p.metaStore.view.applyLocally (mkOp xs) = .ok u)
    (h : step env op (w, p) = (.err e, w', p')) :
    (w', p') = (w, p) ∧ ∀ redundancy content, plan w p = .ok (redundancy, content) →
      ∀ ids, p.place env.ord redundancy (wholeFileKey inode) ≠ .ok ids := by
  rw [step_of_dataPhase hop] at h
  rcases Action.returns_cases h (by simp) with ⟨_, -, hok⟩ | ⟨e', h, -⟩
  · cases hok
  rcases Action.bind_cases h with ⟨mop, ⟨w₁, p₁⟩, hx, happly⟩ | ⟨e'', hx, -⟩ | ⟨-, he⟩
  · -- the log and the tables take what the data phase has stored
    have hsame := metaStore_of_dataPhase hop hx
    obtain ⟨-, content, xs, -, hwhole, rfl, -⟩ := prepareExtents_whole hok hx
    obtain ⟨u, hu⟩ := htakes content xs hwhole
    rw [← hsame] at hu
    obtain ⟨ord, rfl⟩ := Env.eq_healthy hio
    obtain ⟨w₂, s₂, htook⟩ := MetaStore.apply_healthy_of_applyLocally ord w₁ hu
    rw [applyMeta_of_apply htook] at happly
    cases (Prod.mk.inj happly).1
  · exact prepareExtents_eq_err hio hmem hx
  · cases he

/-- On healthy disks, a rewrite that can be planned and placed returns Ok, if it does not panic. -/
theorem rewrite_healthy {redundancy : RedundancyScheme} {ids : List DiskId} (hok : HandlesOk p) (hmem : Membered p)
    (hio : env.io = healthy) (hop : dataPhase env op = some (prepareExtents env inode plan mkOp))
    (hplan : plan w p = .ok (redundancy, content)) (hplace : p.place env.ord redundancy (wholeFileKey inode) = .ok ids)
    (htakes : ∀ content xs, WholeExtent content xs → ∃ u, p.metaStore.view.applyLocally (mkOp xs) = .ok u)
    (hres : (step env op (w, p)).1 ≠ .panic) : ∃ v w' p', step env op (w, p) = (.ok v, w', p') := by
  generalize hstep : step env op (w, p) = out at hres
  obtain ⟨res, w', p'⟩ := out
  cases res with
  | ok v => exact ⟨v, w', p', rfl⟩
  | err e => exact absurd hplace ((rewrite_eq_err hok hmem hio hop htakes hstep).2 _ _ hplan ids)
  | panic => exact absurd rfl hres

end Rewrite

/-! ## What a rewrite owes the file, and when it keeps it -/

/-- Extents that cover every byte below `size`. -/
def CoverAll (xs : List Extent) (size : Nat) : Prop := ∀ k < size, ∃ x ∈ xs, x.fileOffset.toNat ≤ k ∧ k < x.stop

theorem WholeExtent.coverAll {xs : List Extent} (h : WholeExtent content xs) : CoverAll xs (content.length % 2 ^ 32) := by
  intro k hk
  rcases h with ⟨rfl, -⟩ | ⟨hne, replicas, hfew, rfl⟩
  · exact absurd hk (Nat.not_lt_zero k)
  · obtain ⟨hzero, hstop⟩ := WholeExtent.stop_eq (Or.inr ⟨hne, replicas, hfew, rfl⟩) _ (List.mem_singleton.mpr rfl)
    refine ⟨_, List.mem_singleton.mpr rfl, ?_, ?_⟩
    · rw [hzero]
      exact Nat.zero_le k
    · rw [hstop]
      exact hk

/-- A write of `len` bytes at `offset` to a file of `size` bytes: an error, or the whole file. -/
def WriteKeeps (inode : InodeId) (size offset len : Nat) : Res PoolError PoolVal × World × Pool → Prop
  | (.err _, _)    => True
  | (.panic, _)    => False
  | (.ok _, _, p') => ∃ rec' xs, p'.getInode inode = .ok (some rec') ∧ rec'.data = .extents xs ∧
      rec'.size.toNat = max size (offset + len) ∧ CoverAll xs rec'.size.toNat

/-- A conversion: if it returns Ok, the extents hold what the size says. -/
def ConversionKeeps (inode : InodeId) : Res PoolError PoolVal × World × Pool → Prop
  | (.ok _, _, p') => ∃ rec' xs, p'.getInode inode = .ok (some rec') ∧ rec'.data = .extents xs ∧
      rec'.size.toNat = (xs.map fun x => x.len.toNat).sum
  | _              => True

/-- A write that makes the file longer ends where a vector can, and, where the new file can be placed, its length fits an
    extent and its bytes have an address on each of its disks. -/
def WriteInRange (ord : IterOrder) (w : World) (p : Pool) (inode : InodeId) (rec : InodeRecord) (offset len : Nat) : Prop :=
  ∀ content, p.readFullContent w rec = .ok content → (rec.size.toNat < offset + len → offset + len < 2 ^ 63) ∧
    (0 < max rec.size.toNat (offset + len) → ∀ ids, p.place ord rec.redundancy (wholeFileKey inode) = .ok ids →
      max rec.size.toNat (offset + len) < 2 ^ 32 ∧ AddressedInTurn (max rec.size.toNat (offset + len)) ids p)

/-- Where the file can be read, placed and addressed, its length fits an extent. -/
def ConversionInRange (ord : IterOrder) (w : World) (p : Pool) (inode : InodeId) (rec : InodeRecord) : Prop :=
  ∀ content, p.readFullContent w rec = .ok content → ∀ ids, p.place ord rec.redundancy (wholeFileKey inode) = .ok ids →
    AddressedInTurn rec.size.toNat ids p → rec.size.toNat < 2 ^ 32

/-- What the rewrites of a run find. -/
structure Rewritable (n : Nat) (w : World) (p : Pool) (inode : InodeId) (rec : InodeRecord) : Prop where
  tabled : Tabled n (Readable False n) w p
  ready : FenceReady p.metaStore
  membered : Membered p
  find : p.findInode inode = .ok rec

namespace Rewritable

theorem has (h : Rewritable n w p inode rec) : p.metaStore.view.Has inode rec := (h.tabled.of_findInode h.find).1

theorem length_content (h : Rewritable n w p inode rec) (hread : p.readFullContent w rec = .ok content) :
    content.length = rec.size.toNat :=
  length_readFullContent (h.tabled.of_findInode h.find).2.covered hread

theorem read_ne_panic (h : Rewritable n w p inode rec) : p.readFullContent w rec ≠ .panic := by
  rcases settles_readFullContent h.tabled.disks (h.tabled.of_findInode h.find).2 with ⟨_, hread⟩ | ⟨-, hread⟩
  · rw [hread]
    exact fun he => by cases he
  · rw [hread]
    exact fun he => by cases he

/-- The record an accepted operation on the file leaves. -/
theorem left_of_applyLocally {u : View} (h : Rewritable n w p inode rec)
    (hu : p.metaStore.view.applyLocally mop = .ok u) (ht : mop.target = some inode)
    (hfits : ∀ rec', p.metaStore.view.RecStep mop rec' → rec'.Fits) (hview : p'.metaStore.view = u) :
    ∃ rec', p.metaStore.view.RecStep mop rec' ∧ p'.getInode inode = .ok (some rec') := by
  obtain ⟨rec', hstep, hhas⟩ := View.has_applyLocally h.tabled.records hu ht hfits
  rw [← hview] at hhas
  exact ⟨rec', hstep, getInode_of_view hhas.getInode_eq⟩

/-- **What a write that returned Ok has stored.** -/
theorem write_eq_ok {offset : UInt64} {data : Bytes} {v : PoolVal} (h : Rewritable n w p inode rec)
    (hstep : step env (.write inode offset data) (w, p) = (.ok v, w', p')) :
    ∃ content xs rec', p.readFullContent w rec = .ok content ∧ WholeExtent (overwrite content offset.toNat data) xs ∧
      (overwrite content offset.toNat data ≠ [] → ∃ a ids replicas,
        StoredWhole env.ord p inode rec.redundancy (overwrite content offset.toNat data) xs a ids replicas ∧
          ((∀ c ∈ p.metaCalls env w (.write inode offset data), c.Fits) → Retains a (w', p'))) ∧
      p'.getInode inode = .ok (some rec') ∧ rec'.mode = .writable ∧ rec'.data = .extents xs ∧
      rec'.size.toNat = (xs.map Extent.stop).foldr max 0 := by
  obtain ⟨redundancy, stored, xs, hplan, hwhole, hplace, hu⟩ := rewrite_eq_ok h.tabled.wf h.tabled.handles rfl hstep
  obtain ⟨rec₁, content, hfind, rfl, hread, rfl⟩ := planWrite_eq_overwrite hplan
  obtain rfl := Res.ok.inj (h.find.symm.trans hfind)
  have hfits : ∀ rec', p.metaStore.view.RecStep (.updateExtents inode xs) rec' → rec'.Fits := by
    intro rec' hrec'
    cases hrec' with
    | updateExtents hold _ _ =>
        obtain rfl := Res.ok.inj (h.has.readInode_eq.symm.trans hold)
        exact ⟨h.has.fits.1, hwhole.fits⟩
  obtain ⟨rec', hrec', hget⟩ := h.left_of_applyLocally hu rfl hfits rfl
  refine ⟨content, xs, rec', hread, hwhole, hplace, hget, ?_⟩
  cases hrec' with
  | updateExtents hold hmode' hends => exact ⟨hmode', rfl, size_of_extentEnds hends⟩

/-- **What a conversion that returned Ok has stored.** -/
theorem completeConvert_eq_ok {v : PoolVal} (h : Rewritable n w p inode rec)
    (hstep : step env (.completeConvert inode) (w, p) = (.ok v, w', p')) :
    ∃ content xs rec', p.readFullContent w rec = .ok content ∧ WholeExtent content xs ∧
      (content ≠ [] → ∃ a ids replicas, StoredWhole env.ord p inode rec.redundancy content xs a ids replicas) ∧
      p'.getInode inode = .ok (some rec') ∧ rec'.data = .extents xs ∧ rec'.size = rec.size := by
  obtain ⟨redundancy, content, xs, hplan, hwhole, hplace, hu⟩ := rewrite_eq_ok h.tabled.wf h.tabled.handles rfl hstep
  obtain ⟨rec₁, hfind, rfl, -, hread⟩ := planCompleteConvert_eq_ok hplan
  obtain rfl := Res.ok.inj (h.find.symm.trans hfind)
  have hfits : ∀ rec', p.metaStore.view.RecStep (.completeConvert inode xs) rec' → rec'.Fits := by
    intro rec' hrec'
    cases hrec' with
    | completeConvert hold _ =>
        obtain rfl := Res.ok.inj (h.has.readInode_eq.symm.trans hold)
        exact ⟨h.has.fits.1, hwhole.fits⟩
  obtain ⟨rec', hrec', hget⟩ := h.left_of_applyLocally hu rfl hfits rfl
  refine ⟨content, xs, rec', hread, hwhole, fun hne => ?_, hget, ?_⟩
  · obtain ⟨a, ids, replicas, hstored, -⟩ := hplace hne
    exact ⟨a, ids, replicas, hstored⟩
  cases hrec' with
  | completeConvert hold _ =>
      obtain rfl := Res.ok.inj (h.has.readInode_eq.symm.trans hold)
      exact ⟨rfl, rfl⟩

end Rewritable

theorem WriteKeeps.ne_panic {size offset len : Nat} {out : Res PoolError PoolVal × World × Pool}
    (h : WriteKeeps inode size offset len out) : out.1 ≠ .panic := by
  obtain ⟨res, w', p'⟩ := out
  rintro rfl
  exact h

/-- A write whose end does not overflow is one that a vector can hold, if it makes the file longer. -/
theorem Rewritable.endOverflows_iff {stop : Nat} (h : Rewritable n w p inode rec) (hread : p.readFullContent w rec = .ok content) :
    ¬EndOverflows content.length stop ↔ (rec.size.toNat < stop → stop < 2 ^ 63) := by
  have hsize := rec.size.toNat_lt
  unfold EndOverflows
  rw [h.length_content hread]
  omega

/-- A write panics in its plan only if its end overflows. -/
theorem Rewritable.planWrite_ne_panic {offset : UInt64} {data : Bytes} (h : Rewritable n w p inode rec) (hmode : rec.mode = .writable)
    (hstop : ∀ content, p.readFullContent w rec = .ok content →
      rec.size.toNat < offset.toNat + data.length → offset.toNat + data.length < 2 ^ 63) :
    p.planWrite w inode offset data ≠ .panic := by
  cases hread : p.readFullContent w rec with
  | ok content =>
      rw [planWrite_of_content h.find hmode hread, if_neg ((h.endOverflows_iff hread).mpr (hstop content hread))]
      exact fun he => by cases he
  | err e =>
      unfold planWrite
      rw [h.find, Res.ok_bind, if_neg (not_not.mpr hmode), hread]
      exact fun he => by cases he
  | panic => exact absurd hread h.read_ne_panic

section Write

variable {ord : IterOrder} {offset : UInt64} {data : Bytes}

theorem dataPhase_write (env : Env) (inode : InodeId) (offset : UInt64) (data : Bytes) :
    dataPhase env (.write inode offset data) =
      some (prepareExtents env inode (fun w p => p.planWrite w inode offset data) (.updateExtents inode)) := rfl

theorem Rewritable.length_stored (h : Rewritable n w p inode rec) (hread : p.readFullContent w rec = .ok content)
    (offset : UInt64) (data : Bytes) :
    (overwrite content offset.toNat data).length = max rec.size.toNat (offset.toNat + data.length) := by
  rw [length_overwrite, h.length_content hread]

/-- **A write that healthy devices let keep the whole file is in range.** -/
theorem Rewritable.writeInRange (h : Rewritable n w p inode rec) (hmode : rec.mode = .writable)
    (hkeeps : WriteKeeps inode rec.size.toNat offset.toNat data.length
      (step (Env.healthy ord) (.write inode offset data) (w, p))) :
    WriteInRange ord w p inode rec offset.toNat data.length := by
  have hop := dataPhase_write (Env.healthy ord) inode offset data
  intro content hread
  have hplan := planWrite_of_content h.find hmode hread offset data
  have hphase := phase_ne_panic hop hkeeps.ne_panic
  by_cases hstop : EndOverflows content.length (offset.toNat + data.length)
  · rw [if_pos hstop] at hplan
    exact absurd (Action.bind_of_panic hplan) hphase
  · rw [if_neg hstop] at hplan
    refine ⟨(h.endOverflows_iff hread).mp hstop, fun hpos ids hplace => ?_⟩
    obtain ⟨v, w', p', hstep⟩ := rewrite_healthy h.tabled.handles h.membered rfl hop hplan hplace
      (fun content xs hwhole => exists_updateExtents h.has hmode hwhole) hkeeps.ne_panic
    obtain ⟨content', xs, rec', hread', hwhole, hplaced, hget, -, hdata, hsize⟩ := h.write_eq_ok hstep
    obtain rfl := Res.ok.inj (hread.symm.trans hread')
    rw [hstep] at hkeeps
    obtain ⟨rec'', _, hget', -, hsize', -⟩ := hkeeps
    obtain rfl := Option.some.inj (Res.ok.inj (hget.symm.trans hget'))
    have hlen := h.length_stored hread offset data
    obtain ⟨_, ids', _, hstored, -⟩ := hplaced (List.ne_nil_of_length_pos (by rw [hlen]; exact hpos))
    obtain rfl := Res.ok.inj (hplace.symm.trans hstored.place_eq)
    have haddr := hstored.addressed
    rw [hlen] at haddr
    -- the recomputed size is the length the field holds
    rw [hwhole.size_eq, hlen, hsize'] at hsize
    refine ⟨?_, haddr⟩
    rw [hsize]
    exact Nat.mod_lt _ (by decide)

/-- **A write in range keeps the whole file, whatever the devices do.** -/
theorem Rewritable.writeKeeps (h : Rewritable n w p inode rec) (hmode : rec.mode = .writable)
    (hrange : WriteInRange env.ord w p inode rec offset.toNat data.length) :
    WriteKeeps inode rec.size.toNat offset.toNat data.length (step env (.write inode offset data) (w, p)) := by
  have hplan := h.planWrite_ne_panic hmode fun content hread => (hrange content hread).1
  have hres : (step env (.write inode offset data) (w, p)).1 ≠ .panic := by
    refine rewrite_ne_panic h.tabled.wf h.ready h.tabled.handles (dataPhase_write env inode offset data) ?_
      (fun content xs hwhole => exists_updateExtents h.has hmode hwhole)
    refine prepareExtents_ne_panic hplan fun redundancy stored hstored hne ids hplace => ?_
    obtain ⟨rec₁, content, hfind, rfl, hread, rfl⟩ := planWrite_eq_overwrite hstored
    obtain rfl := Res.ok.inj (h.find.symm.trans hfind)
    have hpos := List.length_pos_iff.mpr hne
    rw [h.length_stored hread offset data] at hpos ⊢
    exact ((hrange content hread).2 hpos ids hplace).2
  generalize hstep : step env (.write inode offset data) (w, p) = out at hres
  obtain ⟨res, w', p'⟩ := out
  cases res with
  | err e => trivial
  | panic => exact absurd rfl hres
  | ok v =>
      obtain ⟨content, xs, rec', hread, hwhole, hplaced, hget, -, hdata, hsize⟩ := h.write_eq_ok hstep
      have hlen := h.length_stored hread offset data
      have hsmall : max rec.size.toNat (offset.toNat + data.length) % 2 ^ 32 =
          max rec.size.toNat (offset.toNat + data.length) := by
        rcases Nat.eq_zero_or_pos (max rec.size.toNat (offset.toNat + data.length)) with hzero | hpos
        · rw [hzero]
          rfl
        · obtain ⟨_, ids, _, hstored, -⟩ := hplaced (List.ne_nil_of_length_pos (by rw [hlen]; exact hpos))
          exact Nat.mod_eq_of_lt ((hrange content hread).2 hpos ids hstored.place_eq).1
      have hcover := hwhole.coverAll
      rw [hwhole.size_eq, hlen, hsmall] at hsize
      rw [hlen, hsmall, ← hsize] at hcover
      exact ⟨rec', xs, hget, hdata, hsize, hcover⟩

end Write

section Conversion

variable {ord : IterOrder}

theorem dataPhase_completeConvert (env : Env) (inode : InodeId) :
    dataPhase env (.completeConvert inode) =
      some (prepareExtents env inode (fun w p => p.planCompleteConvert w inode) (.completeConvert inode)) := rfl

theorem Rewritable.planCompleteConvert_eq (h : Rewritable n w p inode rec) (hmode : rec.mode = .converting)
    (hread : p.readFullContent w rec = .ok content) : p.planCompleteConvert w inode = .ok (rec.redundancy, content) := by
  rw [planCompleteConvert_of_mode h.find hmode, hread]
  rfl

/-- **A conversion that healthy devices let keep the whole file is in range.** -/
theorem Rewritable.conversionInRange (h : Rewritable n w p inode rec) (hmode : rec.mode = .converting)
    (hkeeps : ConversionKeeps inode (step (Env.healthy ord) (.completeConvert inode) (w, p))) :
    ConversionInRange ord w p inode rec := by
  have hop := dataPhase_completeConvert (Env.healthy ord) inode
  intro content hread ids hplace haddr
  have hplan := h.planCompleteConvert_eq hmode hread
  have hphase : (prepareCompleteConvert (Env.healthy ord) inode (w, p)).1 ≠ .panic := by
    refine prepareExtents_ne_panic (by rw [hplan]; exact fun he => by cases he) fun redundancy stored hstored _ ids' hplace' => ?_
    obtain ⟨rfl, rfl⟩ := Prod.mk.inj (Res.ok.inj (hplan.symm.trans hstored))
    obtain rfl := Res.ok.inj (hplace.symm.trans hplace')
    rw [h.length_content hread]
    exact haddr
  have htakes : ∀ content xs, WholeExtent content xs →
      ∃ u, p.metaStore.view.applyLocally (.completeConvert inode xs) = .ok u :=
    fun _ xs _ => exists_completeConvert h.has hmode xs
  obtain ⟨v, w', p', hstep⟩ := rewrite_healthy h.tabled.handles h.membered rfl hop hplan hplace htakes
    (rewrite_ne_panic h.tabled.wf h.ready h.tabled.handles hop hphase htakes)
  obtain ⟨content', xs, rec', hread', hwhole, -, hget, hdata, hsize⟩ := h.completeConvert_eq_ok hstep
  obtain rfl := Res.ok.inj (hread.symm.trans hread')
  rw [hstep] at hkeeps
  obtain ⟨rec'', xs', hget', hdata', hsum⟩ := hkeeps
  obtain rfl := Option.some.inj (Res.ok.inj (hget.symm.trans hget'))
  obtain rfl := DataLocator.extents.inj (hdata.symm.trans hdata')
  rw [hwhole.sum_eq, hsize] at hsum
  rw [hsum]
  exact Nat.mod_lt _ (by decide)

/-- **A conversion in range keeps the whole file, whatever the devices do.** -/
theorem Rewritable.conversionKeeps (h : Rewritable n w p inode rec) (hrange : ConversionInRange env.ord w p inode rec) :
    ConversionKeeps inode (step env (.completeConvert inode) (w, p)) := by
  generalize hstep : step env (.completeConvert inode) (w, p) = out
  obtain ⟨res, w', p'⟩ := out
  cases res with
  | err e => trivial
  | panic => trivial
  | ok v =>
      obtain ⟨content, xs, rec', hread, hwhole, hplaced, hget, hdata, hsize⟩ := h.completeConvert_eq_ok hstep
      have hlen := h.length_content hread
      refine ⟨rec', xs, hget, hdata, ?_⟩
      rw [hwhole.sum_eq, hsize, ← hlen, Nat.mod_eq_of_lt]
      by_cases hnil : content = []
      · rw [hnil]
        decide
      · obtain ⟨_, ids, _, hstored⟩ := hplaced hnil
        have haddr := hstored.addressed
        rw [hlen] at haddr ⊢
        exact hrange content hread ids hstored.place_eq haddr

end Conversion

theorem Run.rewritable {events : List Event} (hrun : Run n w p events) (hfits : LogFits events)
    (hdurable : ReopenedDurable events) (hfind : p.findInode inode = .ok rec) : Rewritable n w p inode rec :=
  ⟨hrun.readable hfits hdurable False.elim, hrun.fenceReady, hrun.membered, hfind⟩

/-- **When a rewrite keeps the whole file.** For every file of every reachable pool: a write does, whatever the devices do,
    exactly if it is in range, and so does a conversion. -/
theorem rewrite_keeps_iff {events : List Event} {ord : IterOrder} (hrun : Run n w p events) (hfits : LogFits events)
    (hdurable : ReopenedDurable events) (hfind : p.findInode inode = .ok rec) :
    (rec.mode = .writable → ∀ (offset : UInt64) (data : Bytes),
      (∀ io, WriteKeeps inode rec.size.toNat offset.toNat data.length
        (step ⟨io, ord⟩ (.write inode offset data) (w, p))) ↔
        WriteInRange ord w p inode rec offset.toNat data.length) ∧
    (rec.mode = .converting →
      ((∀ io, ConversionKeeps inode (step ⟨io, ord⟩ (.completeConvert inode) (w, p))) ↔
        ConversionInRange ord w p inode rec)) := by
  have h := hrun.rewritable hfits hdurable hfind
  refine ⟨fun hmode offset data => ⟨fun hkeeps => ?_, fun hrange io => ?_⟩, fun hmode => ⟨fun hkeeps => ?_, fun hrange io => ?_⟩⟩
  · exact h.writeInRange hmode (hkeeps healthy)
  · exact h.writeKeeps hmode hrange
  · exact h.conversionInRange hmode (hkeeps healthy)
  · exact h.conversionKeeps hrange

/-- The file of the sample session. -/
def sampleFile : InodeRecord :=
  { inode := 2, mode := .writable, size := 4, redundancy := .replicated [.anyOfClass none],
    data := .extents [⟨0, 4, [(diskId 0, 34)], 742994801⟩], uid := 0, gid := 0, unixMode := 0o100644, mtimeUnix := 0 }

theorem findInode_sample : sampleSession.2.2.findInode 2 = .ok sampleFile := by decide +kernel

theorem readFullContent_sample : sampleSession.2.2.readFullContent sampleSession.2.1 sampleFile = .ok [1, 2, 9, 9] := by
  decide +kernel

theorem place_sample : sampleSession.2.2.place MetaStore.listOrder sampleFile.redundancy (wholeFileKey 2) = .ok [diskId 0] := by
  decide +kernel

theorem durable_sample : ReopenedDurable sampleEvents :=
  beforeReopens_of_healthy
    (fun e he => (play_inSession MetaStore.listOrder (World.blank 0) 1 0 sampleOps onDisk e he).healthy)
    (fun _ _ => primaryUp_of_healthy)

/-- The theorem at a short write. -/
theorem rewrite_keeps_iff_sample : sampleSession.2.2.findInode 2 = .ok sampleFile ∧ ∀ io, WriteKeeps 2 4 1 3
    (step ⟨io, MetaStore.listOrder⟩ (.write 2 1 [7, 7, 7]) (sampleSession.2.1, sampleSession.2.2)) := by
  refine ⟨findInode_sample, ?_⟩
  have hplace := place_sample
  have hdisk : sampleSession.2.2.disks[diskId 0]? = some ⟨0, 38⟩ := by decide +kernel
  have hiff : _ ↔ WriteInRange MetaStore.listOrder _ _ _ _ _ _ :=
    (rewrite_keeps_iff run_sample (by decide +kernel) durable_sample findInode_sample).1 rfl 1 [7, 7, 7]
  generalize sampleSession.2.1 = w at hiff ⊢
  generalize sampleSession.2.2 = p at hplace hdisk hiff ⊢
  refine hiff.mpr ?_
  intro content _
  refine ⟨fun _ => by decide, fun _ ids hids => ⟨by decide, ?_⟩⟩
  obtain rfl := Res.ok.inj (hplace.symm.trans hids)
  intro handle hid
  obtain rfl := Option.some.inj (hdisk.symm.trans hid)
  exact ⟨⟨by decide, by decide⟩, trivial⟩

/-- One byte that ends at `2^32`, and one that ends at `2^64`: on healthy disks, the first write leaves another size, and the
    second panics. -/
theorem write_loses_file : ∃ w p, Run 1 w p sampleEvents ∧ p.findInode 2 = .ok sampleFile ∧
    ¬WriteKeeps 2 4 (2 ^ 32 - 1) 1 (step (Env.healthy MetaStore.listOrder) (.write 2 (UInt64.ofNat (2 ^ 32 - 1)) [7]) (w, p)) ∧
    ¬WriteKeeps 2 4 (2 ^ 64 - 1) 1 (step (Env.healthy MetaStore.listOrder) (.write 2 (UInt64.ofNat (2 ^ 64 - 1)) [7]) (w, p)) := by
  refine ⟨_, _, run_sample, findInode_sample, ?_⟩
  have hread := readFullContent_sample
  have hplace := place_sample
  have h := run_sample.rewritable (by decide +kernel) durable_sample findInode_sample
  generalize sampleSession.2.1 = w at h hread ⊢
  generalize sampleSession.2.2 = p at h hread hplace ⊢
  constructor
  · intro hkeeps
    have hrange : WriteInRange MetaStore.listOrder w p 2 sampleFile (2 ^ 32 - 1) 1 := h.writeInRange rfl hkeeps
    exact absurd ((hrange _ hread).2 (by decide) _ hplace).1 (by decide)
  · intro hkeeps
    have hrange : WriteInRange MetaStore.listOrder w p 2 sampleFile (2 ^ 64 - 1) 1 := h.writeInRange rfl hkeeps
    exact absurd ((hrange _ hread).1 (by decide)) (by decide)

end Pool

end Tartine
