import Tartine.Meta.PoolContent
import Tartine.Meta.PoolRecords

/-!
# `Meta.PoolFaults` — a failed operation damages no file

An append or a rewrite may stop on any replica, after some disks have been written and their cursors moved, or in the
metadata commit after all of the data is down. What is then on disk lies above every cursor that counts: the table names
only replicas below the cursors (`Intact`), data phases write at or above them (`Retains`), and a table that refused an
operation is the table it was.

* `Intact.step` — every operation of a session keeps the invariant, whatever fails;
* `readFullContent_eq` — below the cursors, reads return what they returned;
* `failed_op_spares_files` — so an operation that returns Err changes no file and no directory, and one that returns Ok
  changes no file but its own.
-/

namespace Tartine

open Basis

/-- The inode whose file a call may change, among those that exist. -/
def PoolOp.target : PoolOp → Option InodeId
  | .append inode _          => some inode
  | .beginConvert inode      => some inode
  | .completeConvert inode   => some inode
  | .write inode _ _         => some inode
  | .setRedundancy inode _   => some inode
  | _                        => none

namespace Pool

variable {env : Env} {w w' w₁ : World} {p p' p₁ : Pool} {s' : MetaStore} {op : PoolOp} {mop : MetaOp}

/-! ## Replicas that can be read -/

/-- Every replica has `len` bytes that can be read, below the cursor of its disk. -/
def LocatedAt (a : World × Pool) (headerLen len : Nat) (replicas : List (DiskId × UInt64)) : Prop :=
  ∀ r ∈ replicas, ∃ bytes : Bytes, bytes.length = len ∧ Stored a headerLen bytes r

theorem LocatedAt.mono {a b : World × Pool} {headerLen len : Nat} {replicas : List (DiskId × UInt64)}
    (h : LocatedAt a headerLen len replicas) (hab : Retains a b) : LocatedAt b headerLen len replicas := by
  intro r hr
  obtain ⟨bytes, hlen, hs⟩ := h r hr
  exact ⟨bytes, hlen, hs.mono hab⟩

theorem Stored.take {a : World × Pool} {headerLen n : Nat} {bytes : Bytes} {r : DiskId × UInt64}
    (h : Stored a headerLen bytes r) (hn : n ≤ bytes.length) : Stored a headerLen (bytes.take n) r := by
  obtain ⟨handle, hid, hend, haddr, hread⟩ := h
  have hlen : (bytes.take n).length = n := by rw [List.length_take, Nat.min_eq_left hn]
  refine ⟨handle, hid, by omega, haddr, ?_⟩
  rw [hlen]
  exact FileDisk.readAt_take hread hn

/-- A chunk or extent pointer records `len() as u32`: at most as many bytes as were stored. -/
theorem locatedAt_of_stored {a : World × Pool} {headerLen : Nat} {bytes : Bytes} {replicas : List (DiskId × UInt64)}
    (h : ∀ r ∈ replicas, Stored a headerLen bytes r) :
    LocatedAt a headerLen (UInt32.ofNat bytes.length).toNat replicas := by
  have hle : (UInt32.ofNat bytes.length).toNat ≤ bytes.length := by
    rw [UInt32.toNat_ofNat']
    exact Nat.mod_le _ _
  intro r hr
  exact ⟨bytes.take (UInt32.ofNat bytes.length).toNat, by rw [List.length_take, Nat.min_eq_left hle],
    (h r hr).take hle⟩

/-- **What one extent of a whole file reads as**: the bytes its length field holds, and zeros to the recorded size. -/
theorem readFullContent_extent {rec : InodeRecord} {c : Bytes} {replicas : List (DiskId × UInt64)} {checksum : UInt32}
    (hdata : rec.data = .extents [⟨0, UInt32.ofNat c.length, replicas, checksum⟩])
    (hsize : c.length % 2 ^ 32 ≤ rec.size.toNat) (hne : replicas ≠ []) (hstored : ∀ r ∈ replicas, Stored (w, p) 0 c r) :
    p.readFullContent w rec =
      .ok (c.take (c.length % 2 ^ 32) ++ List.replicate (rec.size.toNat - c.length % 2 ^ 32) 0) := by
  have hle : c.length % 2 ^ 32 ≤ c.length := Nat.mod_le _ _
  have htake : (c.take (c.length % 2 ^ 32)).length = c.length % 2 ^ 32 := by
    rw [List.length_take, Nat.min_eq_left hle]
  have hreads := readReplicated_of_stored hne (fun r hr => (hstored r hr).take hle)
  rw [htake] at hreads
  unfold readFullContent
  rw [hdata]
  simp only [List.foldlM_cons, List.foldlM_nil, UInt32.toNat_ofNat', hreads, Res.ok_bind]
  unfold copyInto
  rw [if_pos (by rw [htake, List.length_replicate]; exact (Nat.zero_add _).trans_le hsize)]
  show Res.ok _ = Res.ok _
  rw [htake]
  simp [List.drop_replicate]

/-- Reading replicas below the cursors returns what it returned. -/
theorem readReplicated_eq {headerLen len : Nat} {replicas : List (DiskId × UInt64)}
    (h : LocatedAt (w, p) headerLen len replicas) (hret : Retains (w, p) (w', p')) :
    p'.readReplicated w' replicas headerLen len = p.readReplicated w replicas headerLen len := by
  cases replicas with
  | nil => rfl
  | cons r rs =>
      obtain ⟨bytes, rfl, hs⟩ := h r List.mem_cons_self
      have hfirst : ∀ x ∈ [r], Stored (w, p) headerLen bytes x := by simpa using hs
      have hfirst' : ∀ x ∈ [r], Stored (w', p') headerLen bytes x := by simpa using hs.mono hret
      -- only the first replica is ever read
      have hread := readReplicated_of_stored (by simp) hfirst
      have hread' := readReplicated_of_stored (by simp) hfirst'
      exact hread'.trans hread.symm

theorem foldlM_congr_mem {α β : Type} {f g : β → α → Res PoolError β} {l : List α}
    (h : ∀ x ∈ l, ∀ b, f b x = g b x) (b : β) : l.foldlM f b = l.foldlM g b := by
  induction l generalizing b with
  | nil => rfl
  | cons x l ih =>
      rw [List.foldlM_cons, List.foldlM_cons, h x List.mem_cons_self]
      congr 1
      funext b'
      exact ih (fun y hy => h y (List.mem_cons_of_mem _ hy)) b'

/-- **Below the cursors, a file reads as it did.** -/
theorem readFullContent_eq {rec : InodeRecord} (h : rec.data.AllReplicas (LocatedAt (w, p)))
    (hret : Retains (w, p) (w', p')) : p'.readFullContent w' rec = p.readFullContent w rec := by
  unfold readFullContent
  cases hdata : rec.data with
  | chunkLog chunks =>
      rw [hdata] at h
      refine foldlM_congr_mem (fun chunk hchunk out => ?_) _
      rw [readReplicated_eq (h chunk hchunk) hret]
  | extents xs =>
      rw [hdata] at h
      refine foldlM_congr_mem (fun x hx out => ?_) _
      rw [readReplicated_eq (h x hx) hret]

/-! ## What is handed to the log names such replicas -/

theorem Hands.located (h : Hands env w p op mop w₁ p₁) (hok : HandlesOk p) :
    mop.AllReplicas (LocatedAt (w₁, p₁)) := by
  -- the extent of a rewrite, if any
  have hextents : ∀ (inode : InodeId) (plan : World → Pool → Res PoolError (RedundancyScheme × Bytes))
      (mkOp : List Extent → MetaOp) (mop : MetaOp), prepareExtents env inode plan mkOp (w, p) = (.ok mop, w₁, p₁) →
      ∃ xs, mop = mkOp xs ∧ (DataLocator.extents xs).AllReplicas (LocatedAt (w₁, p₁)) := by
    intro inode plan mkOp mop hx
    obtain ⟨_, content, -, hend⟩ := prepareExtents_stores hok hx
    rcases hend with ⟨-, rfl⟩ | ⟨-, ids, replicas, -, -, hstored, rfl⟩
    · exact ⟨[], rfl, by simp [DataLocator.AllReplicas]⟩
    · exact ⟨_, rfl, List.forall_mem_singleton.mpr (locatedAt_of_stored hstored)⟩
  cases h with
  | phase hop hx =>
      cases dataPhase_cases hop with
      | append =>
          obtain ⟨_, chunks, ids, replicas, -, -, -, -, -, hstored, rfl⟩ := prepareAppend_stores hok hx
          exact locatedAt_of_stored hstored
      | completeConvert =>
          obtain ⟨xs, rfl, hxs⟩ := hextents _ _ _ _ hx
          exact hxs
      | write =>
          obtain ⟨xs, rfl, hxs⟩ := hextents _ _ _ _ hx
          exact hxs
  | beginConvert => trivial
  | setRedundancy => trivial
  | unlink => trivial
  | create halloc => simp [MetaOp.AllReplicas, newFile, DataLocator.AllReplicas]
  | link halloc hcreate => trivial

/-! ## The invariant of a session -/

/-- The table's records can be decoded, and every replica they name can be read, below the cursors. -/
structure Intact (w : World) (p : Pool) : Prop where
  wf : MetaWf p.metaStore
  handles : HandlesOk p
  records : p.metaStore.view.Each (InodeRecord.Lists (LocatedAt (w, p)) p.metaStore.walCursor)
  keys : p.metaStore.view.KeysBelow

/-- A record stays located as long as everything below the cursors stays. -/
theorem lists_mono {k k' : Nat} {rec : InodeRecord} (h : rec.Lists (LocatedAt (w, p)) k)
    (hret : Retains (w, p) (w', p')) (hk : k ≤ k') : rec.Lists (LocatedAt (w', p')) k' :=
  ⟨h.1.mono (fun _ _ _ hl => hl.mono hret), Nat.le_trans h.2 hk⟩

theorem Intact.retain (h : Intact w p) (hok : HandlesOk p') (hret : Retains (w, p) (w', p'))
    (hsame : p'.metaStore = p.metaStore) : Intact w' p' := by
  refine ⟨by rw [hsame]; exact h.wf, hok, ?_, by rw [hsame]; exact h.keys⟩
  rw [hsame]
  exact h.records.mono (fun rec hrec => lists_mono hrec hret (Nat.le_refl _))

theorem Intact.alloc {id : InodeId} (h : Intact w p) (halloc : p.metaStore.allocInode = .ok (id, s')) :
    Intact w { p with metaStore := s' } := by
  obtain ⟨hkeys, -⟩ := MetaStore.keysBelow_alloc h.keys halloc
  obtain ⟨next, -, hs⟩ := Res.bind_eq_ok.mp halloc
  obtain ⟨-, rfl⟩ := Prod.mk.inj (Res.ok.inj hs)
  have hrecords := h.records.mono (fun rec hrec => lists_mono hrec (retains_refl (w, p)) (Nat.le_refl _))
  exact ⟨h.wf, h.handles, hrecords.of_inodes_eq rfl, hkeys⟩

/-- **Step lemma** of the metadata operations, accepted or refused. -/
theorem Intact.apply {res : Res MetaStoreError Unit} (h : Intact w p)
    (happly : p.metaStore.apply env w mop = (res, w', s')) (hres : res ≠ .panic)
    (hfit : p.metaStore.walCursor + (MetaStore.opFrame env.ord mop).length ≤ Wal.walCapacityBytes)
    (hop : mop.AllReplicas (LocatedAt (w, p))) (hnew : ∀ rec, mop = .createInode rec → rec.chunkCount = 0) :
    Intact w' { p with metaStore := s' } := by
  have hret := retains_applyMeta h.wf hfit happly
  have hcap := Wal.walCapacityBytes_lt
  obtain ⟨hrecords, hkeys⟩ := MetaStore.each_apply
    (Q := fun k rec => rec.Lists (LocatedAt (w', { p with metaStore := s' })) k) h.wf.2 h.records h.keys happly hres
    (fun k rec hk hrec => lists_mono hrec hret hk) (fun rec hstep => by
      obtain ⟨hfits, hlists⟩ := hstep.allReplicas (by omega) h.records (MetaStore.fits_of_frame hfit) hop hnew
      exact ⟨hfits, fun k hk => lists_mono hlists hret hk⟩)
  exact ⟨h.wf.apply happly, h.handles, hrecords, hkeys⟩

theorem Intact.phase {x : PoolM MetaOp} (h : Intact w p) (hop : dataPhase env op = some x) :
    Intact (x (w, p)).2.1 (x (w, p)).2.2 := by
  obtain ⟨hok, hret⟩ := keepsData_dataPhase hop (w, p) h.handles
  exact h.retain hok hret (sameStore_dataPhase hop (w, p))

/-- The operation a call hands over, at the state it finds. -/
theorem Intact.handed {q : Res MetaStoreError Unit} (h : Intact w p) (hfit : ∀ c ∈ p.metaCalls env w op, c.Fits)
    (hhands : Hands env w p op mop w₁ p₁) (h₁ : Intact w₁ p₁)
    (happly : p₁.metaStore.apply env w₁ mop = (q, w', s')) (hq : q ≠ .panic) :
    Intact w' { p₁ with metaStore := s' } := by
  exact h₁.apply happly hq (hfit _ hhands.mem_metaCalls) (hhands.located h.handles) (fun _ => hhands.chunkCount_eq)

theorem Hands.intact (hhands : Hands env w p op mop w₁ p₁) (h : Intact w p)
    (hfit : ∀ c ∈ p.metaCalls env w op, c.Fits) : Intact w₁ p₁ :=
  hhands.rule h (fun _ hop => h.phase hop) (fun _ _ halloc => h.alloc halloc)
    (fun _ _ _ _ _ hh h₁ happly => h.handed hfit hh h₁ happly (by simp))

/-- **Step lemma.** Every operation, whatever fails and however it ends. -/
theorem Intact.step {res : Res PoolError PoolVal} (h : Intact w p) (hfit : ∀ c ∈ p.metaCalls env w op, c.Fits)
    (hstep : Pool.step env op (w, p) = (res, w', p')) (hres : res ≠ .panic) : Intact w' p' :=
  step_rule h (fun _ hop => h.phase hop) (fun _ _ halloc => h.alloc halloc)
    (fun _ _ _ _ _ _ hh h₁ happly hq => h.handed hfit hh h₁ happly hq) hstep hres

/-- The event is not a reopen. -/
def Event.Running : Event → Prop
  | .reopen _ => False
  | _       => True

/-- **Run lemma.** -/
theorem Run.intact {n : Nat} {events : List Event} (hrun : Run n w p events) (hsession : ∀ e ∈ events, e.Running)
    (hfits : LogFits events) : Intact w p := by
  induction hrun with
  | @format w₀ w p classes now env h =>
      obtain ⟨hn, -, s, happly, rfl, hcall⟩ := format_eq_ok h
      have hfresh : Intact (createDisks w₀ n) ⟨poolMapOf classes, handlesOf n (fun _ => 0), freshStore n⟩ := by
        refine ⟨metaWf_open (openStore_createDisks w₀ hn), fun _ _ hid => (handlesOf_eq_some hid).1, View.each_empty, ?_⟩
        intro i hi
        simp [freshStore, View.empty] at hi
      refine hfresh.apply happly (by simp) (hfits _ (List.mem_flatMap.mpr ⟨_, List.mem_singleton.mpr rfl, hcall⟩)) ?_ ?_
      · simp [MetaOp.AllReplicas, rootRecord, DataLocator.AllReplicas]
      · intro rec hrec
        obtain rfl := MetaOp.createInode.inj hrec
        rfl
  | call env op hrun h hres ih =>
      obtain ⟨hfits₀, hfits₁⟩ := hfits.snoc
      exact (ih (fun e he => hsession e (List.mem_append_left _ he)) hfits₀).step hfits₁ h hres
  | reopen hrun h hm ih => exact (hsession _ (List.mem_append_right _ (List.mem_singleton.mpr rfl))).elim

/-! ## What an operation leaves of the other files -/

/-- The file of an inode is as it was: its record, and every read of it. -/
structure Spared (a b : World × Pool) (i : InodeId) : Prop where
  record : b.2.getInode i = a.2.getInode i
  reads : ∀ offset len, b.2.read b.1 i offset len = a.2.read a.1 i offset len

/-- The same entry in the table, and everything below the cursors retained: the same file. -/
theorem Intact.spared {i : InodeId} (h : Intact w p) (hret : Retains (w, p) (w', p'))
    (hentry : p'.metaStore.view.inodes[i]? = p.metaStore.view.inodes[i]?) : Spared (w, p) (w', p') i := by
  have hget : p'.getInode i = p.getInode i := by
    unfold getInode MetaStore.getInode View.getInode
    rw [hentry]
  have hfind : p'.findInode i = p.findInode i := by
    unfold findInode
    rw [hget]
  refine ⟨hget, fun offset len => ?_⟩
  show p'.read w' i offset len = p.read w i offset len
  unfold read
  rw [hfind]
  cases hrec : p.findInode i with
  | ok rec =>
      obtain ⟨-, hlists, -⟩ := h.records.of_getInode (findInode_eq_ok hrec)
      rw [Res.ok_bind, Res.ok_bind, readFullContent_eq hlists hret]
  | err e => rfl
  | panic => rfl

/-- What happened to the table before the last operation was handed over: at most, a new inode was created, the one that
    operation is about to link. -/
theorem Hands.table (h : Hands env w p op mop w₁ p₁) (hwf : MetaWf p.metaStore) (hkeys : p.metaStore.view.KeysBelow) :
    p₁.metaStore.view.dirs = p.metaStore.view.dirs ∧
    (∀ i, (∀ parent name, mop ≠ .link parent name i) →
      p₁.metaStore.view.inodes[i]? = p.metaStore.view.inodes[i]?) ∧
    ∀ parent name i, mop = .link parent name i → p.metaStore.view.inodes[i]? = none := by
  cases h with
  | phase hop hx =>
      rw [metaStore_of_dataPhase hop hx]
      refine ⟨rfl, fun _ _ => rfl, ?_⟩
      rintro parent name i rfl
      exact False.elim (dataPhase_storesData hop hx)
  | beginConvert => exact ⟨rfl, fun _ _ => rfl, by simp⟩
  | setRedundancy => exact ⟨rfl, fun _ _ => rfl, by simp⟩
  | unlink => exact ⟨rfl, fun _ _ => rfl, by simp⟩
  | create halloc =>
      obtain ⟨next, -, hs⟩ := Res.bind_eq_ok.mp halloc
      obtain ⟨-, rfl⟩ := Prod.mk.inj (Res.ok.inj hs)
      exact ⟨rfl, fun _ _ => rfl, by simp⟩
  | @link parent name redundancy uid gid unixMode now id s w₂ s₂ halloc hcreate =>
      have hwf := hwf.alloc halloc
      obtain ⟨-, hnone⟩ := MetaStore.keysBelow_alloc hkeys halloc
      obtain ⟨next, -, hs⟩ := Res.bind_eq_ok.mp halloc
      obtain ⟨rfl, rfl⟩ := Prod.mk.inj (Res.ok.inj hs)
      obtain ⟨-, hu⟩ := MetaStore.apply_eq_ok hwf.2 hcreate
      obtain ⟨next', -, hu⟩ := Res.bind_eq_ok.mp hu
      have hview := Res.ok.inj hu
      refine ⟨by rw [← hview]; rfl, ?_, ?_⟩
      · intro i hne
        show s₂.view.inodes[i]? = _
        rw [← hview]
        refine (View.getElem?_insert_record _ _ _).trans (if_neg ?_)
        rintro rfl
        exact hne parent name rfl
      · intro parent' name' i hlink
        obtain ⟨-, -, rfl⟩ := MetaOp.link.inj hlink
        exact hnone

/-- The inode an accepted operation writes is the one its call is about. -/
theorem Hands.target_eq (h : Hands env w p op mop w₁ p₁) (hnew : ∀ rec, mop ≠ .createInode rec) {i : InodeId}
    (ht : mop.target = some i) : op.target = some i := by
  cases h with
  | phase hop hx =>
      rcases dataPhase_eq_ok hop hx with ⟨_, _, _, rfl, rfl⟩ | ⟨_, _, rfl, rfl⟩ | ⟨_, _, _, _, rfl, rfl⟩
      · exact ht
      · exact ht
      · exact ht
  | beginConvert => exact ht
  | setRedundancy => exact ht
  | unlink => cases ht
  | create halloc => exact absurd rfl (hnew _)
  | link halloc hcreate => cases ht

/-- **What a call makes of the record of a file**: it stays, or the call returned Ok and its last operation left another. -/
theorem record_trace {res : Res PoolError PoolVal} {i : InodeId} {rec : InodeRecord} (hwf : MetaWf p.metaStore)
    (hkeys : p.metaStore.view.KeysBelow)
    (hhanded : ∀ mop w₁ p₁, Hands env w p op mop w₁ p₁ →
      (∃ Q, p₁.metaStore.view.Each Q) ∧ ∀ rec', p₁.metaStore.view.RecStep mop rec' → rec'.Fits)
    (h : Pool.step env op (w, p) = (res, w', p')) (hres : res ≠ .panic) (hhas : p.metaStore.view.Has i rec) :
    ∃ rec', p'.metaStore.view.Has i rec' ∧ (rec' = rec ∨ ∃ mop w₁ p₁ v, Hands env w p op mop w₁ p₁ ∧ res = .ok v ∧
      (∀ rec, mop ≠ .createInode rec) ∧ mop.target = some i ∧ p₁.metaStore.view.Has i rec ∧
        p₁.metaStore.view.RecStep mop rec') := by
  rcases step_cases h hres with ⟨-, rfl, rfl⟩ | ⟨x, e, hop, hx, -⟩ | ⟨mop, w₁, p₁, q, s', hh, happly, rfl, hcloses⟩
  · exact ⟨rec, hhas, Or.inl rfl⟩
  · rw [metaStore_of_dataPhase hop hx]
    exact ⟨rec, hhas, Or.inl rfl⟩
  · -- the entry as the last operation found it
    obtain ⟨⟨Q, heach⟩, hfits⟩ := hhanded _ _ _ hh
    obtain ⟨-, hinodes, hfresh⟩ := hh.table hwf hkeys
    have hentry : p₁.metaStore.view.inodes[i]? = p.metaStore.view.inodes[i]? := by
      refine hinodes i ?_
      rintro parent name rfl
      cases hhas.entry_eq.symm.trans (hfresh parent name i rfl)
    have hhas₁ : p₁.metaStore.view.Has i rec := ⟨hentry.trans hhas.entry_eq, hhas.fits, hhas.inode_eq⟩
    show ∃ rec', s'.view.Has i rec' ∧ _
    cases hcloses with
    | refused e =>
        rw [MetaStore.view_of_refused (hh.wf hwf).2 happly]
        exact ⟨rec, hhas₁, Or.inl rfl⟩
    | accepted hne =>
        obtain ⟨-, hu⟩ := MetaStore.apply_eq_ok (hh.wf hwf).2 happly
        by_cases ht : mop.target = some i
        · obtain ⟨rec', hstep, hhas'⟩ := View.has_applyLocally heach hu ht hfits
          exact ⟨rec', hhas', Or.inr ⟨mop, w₁, p₁, _, hh, rfl, hne, ht, hhas₁, hstep⟩⟩
        · have hkept := View.getElem?_applyLocally heach hu ht
          exact ⟨rec, ⟨hkept.trans hhas₁.entry_eq, hhas.fits, hhas.inode_eq⟩, Or.inl rfl⟩

/-- A call that returned Err has left the directories alone, and the entry of every inode there was. -/
theorem Intact.table_of_err {e : PoolError} (hi : Intact w p) (h : Pool.step env op (w, p) = (.err e, w', p')) :
    p'.metaStore.view.dirs = p.metaStore.view.dirs ∧ ∀ i : InodeId, (p.metaStore.view.inodes[i]?).isSome →
      p'.metaStore.view.inodes[i]? = p.metaStore.view.inodes[i]? := by
  rcases step_cases h (by simp) with ⟨-, -, rfl⟩ | ⟨x, e', hop, hx, -⟩ |
    ⟨mop, w₁, p₁, q, s', hhands, happly, rfl, hcloses⟩
  · exact ⟨rfl, fun _ _ => rfl⟩
  · rw [metaStore_of_dataPhase hop hx]
    exact ⟨rfl, fun _ _ => rfl⟩
  · -- the last operation was refused, so the table is the one it found
    obtain ⟨hdirs, hinodes, hfresh⟩ := hhands.table hi.wf hi.keys
    have hview : s'.view = p₁.metaStore.view := by
      cases hcloses with
      | refused e' => exact MetaStore.view_of_refused (hhands.wf hi.wf).2 happly
    show s'.view.dirs = _ ∧ ∀ i : InodeId, _ → s'.view.inodes[i]? = _
    rw [hview]
    refine ⟨hdirs, fun i hsome => hinodes i ?_⟩
    rintro parent name rfl
    rw [hfresh parent name i rfl] at hsome
    cases hsome

/-- A call that returned Ok has left every entry alone but that of the inode it names or creates. -/
theorem Intact.entry_of_ok {v : PoolVal} {i : InodeId} (hi : Intact w p) (hfit : ∀ c ∈ p.metaCalls env w op, c.Fits)
    (h : Pool.step env op (w, p) = (.ok v, w', p')) (htarget : op.target ≠ some i) (hcreated : v ≠ .inode i) :
    p'.metaStore.view.inodes[i]? = p.metaStore.view.inodes[i]? := by
  rcases step_cases h (by simp) with ⟨-, -, rfl⟩ | ⟨x, e', -, -, he⟩ |
    ⟨mop, w₁, p₁, q, s', hhands, happly, rfl, hcloses⟩
  · rfl
  · cases he
  · obtain ⟨-, hinodes, -⟩ := hhands.table hi.wf hi.keys
    cases hcloses with
    | accepted hnew =>
        have hold := hinodes i (fun parent name hlink => hcreated (by rw [hlink]; rfl))
        obtain ⟨-, hu⟩ := MetaStore.apply_eq_ok (hhands.wf hi.wf).2 happly
        show s'.view.inodes[i]? = _
        rw [← hold]
        refine View.getElem?_applyLocally (hhands.intact hi hfit).records hu ?_
        exact fun ht => htarget (hhands.target_eq hnew ht)

/-- **A failed operation damages no file.** In every state of a session, whatever writes and syncs have failed before and
    whichever fail now, as long as the log stays within its region: an operation that returns Err leaves every file and
    every directory as it was, and one that returns Ok leaves every file as it was but the one it names or creates. -/
theorem failed_op_spares_files {n : Nat} {events : List Event} {res : Res PoolError PoolVal} (hrun : Run n w p events)
    (hsession : ∀ e ∈ events, e.Running) (hfits : LogFits events) (hfit : ∀ c ∈ p.metaCalls env w op, c.Fits)
    (h : step env op (w, p) = (res, w', p')) :
    (∀ e, res = .err e →
      (∀ i rec, p.getInode i = .ok (some rec) → Spared (w, p) (w', p') i) ∧
      (∀ parent name, p'.metaStore.lookup parent name = p.metaStore.lookup parent name) ∧
      ∀ parent, p'.metaStore.readdir parent = p.metaStore.readdir parent) ∧
    (∀ v, res = .ok v → ∀ i, op.target ≠ some i → v ≠ .inode i → Spared (w, p) (w', p') i) := by
  have hi := hrun.intact hsession hfits
  have hret : res ≠ .panic → Retains (w, p) (w', p') := fun hres => (keepsData_step hi.wf hfit h hres hi.handles).2
  constructor
  · rintro e rfl
    obtain ⟨hdirs, hentries⟩ := hi.table_of_err h
    refine ⟨?_, ?_, ?_⟩
    · intro i rec hget
      refine hi.spared (hret (by simp)) (hentries i ?_)
      cases hentry : p.metaStore.view.inodes[i]? with
      | none => simp [getInode, MetaStore.getInode, View.getInode, hentry, liftMeta, Res.mapErr] at hget
      | some bytes => rfl
    · intro parent name
      unfold MetaStore.lookup View.lookup
      rw [hdirs]
    · intro parent
      unfold MetaStore.readdir View.readdir
      rw [hdirs]
  · rintro v rfl i htarget hcreated
    exact hi.spared (hret (by simp)) (hi.entry_of_ok hfit h htarget hcreated)

theorem Event.InSession.running {e : Event} (h : e.InSession) : e.Running := by
  cases e with
  | format env w n now => trivial
  | call env w p op res => trivial
  | reopen n => exact h

/-- Disks that take no write; each leaves one byte of its own. -/
def nothingWrites : Env := ⟨fun _ => .fail [7], MetaStore.listOrder⟩

/-- The theorem at an append that fails on its disk: the file it was meant for is as it was. -/
theorem failed_op_spares_files_append : ∃ w' p',
    step nothingWrites (.append 2 [4]) appendSession.2 = (.err (.io .device), w', p') ∧
    Spared appendSession.2 (w', p') 2 := by
  obtain ⟨hrun, hsession⟩ := run_appendSession
  have hres : (step nothingWrites (.append 2 [4]) appendSession.2).1 = .err (.io .device) := by decide +kernel
  generalize hstep : step nothingWrites (.append 2 [4]) appendSession.2 = out at hres
  obtain ⟨res, w', p'⟩ := out
  obtain rfl : res = .err (.io .device) := hres
  have hcalls : appendSession.2.2.metaCalls nothingWrites appendSession.2.1 (.append 2 [4]) = [] :=
    List.length_eq_zero_iff.mp (by decide +kernel)
  have hfound : (appendSession.2.2.findInode 2 >>= fun rec => pure rec.mode) = .ok .appendOnly := by decide +kernel
  obtain ⟨rec, hfound, -⟩ := Res.bind_eq_ok.mp hfound
  have hget : appendSession.2.2.getInode 2 = .ok (some rec) := getInode_of_view (findInode_eq_ok hfound)
  have hspared := failed_op_spares_files hrun (fun e he => (hsession e he).running) (by decide +kernel)
    (by rw [hcalls]; simp) hstep
  exact ⟨w', p', rfl, (hspared.1 _ rfl).1 2 rec hget⟩

end Pool

end Tartine
