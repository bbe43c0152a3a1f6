import Tartine.Meta.PoolLog
import Tartine.Meta.Table

/-!
# `Meta.PoolRecords` — properties of every record, along runs with reopens

Whatever is to be shown of every inode record of every reachable pool is shown the same way: the root directory has it,
every operation a call hands to the log leaves a record that has it, and a reopen finds the table the session left,
because the log replays to it. `RunWith.tabled` is that argument, once; its user says what one record step does.

The property may speak of the disks, as long as it survives their growing: nothing ever makes a disk shorter.
-/

namespace Tartine.Pool

open Basis Codec

variable {env : Env} {w w' w₁ : World} {p p' p₁ : Pool} {s' : MetaStore} {op : PoolOp} {mop : MetaOp} {n : Nat}

/-! ## What no step undoes -/

/-- No disk has become shorter. -/
def Longer (w w' : World) : Prop := ∀ r, (w.disk r).len ≤ (w'.disk r).len

theorem LogKept.longer (h : LogKept (w, p) (w', p')) : Longer w w' := fun r => (h r).1

theorem longer_apply {res : Res MetaStoreError Unit} (hwf : MetaWf p.metaStore)
    (h : p.metaStore.apply env w mop = (res, w', s')) : Longer w w' := by
  intro r
  rcases MetaStore.apply_disk hwf.2 h r with hsame | ⟨buf, -, hwrite⟩
  · rw [hsame]
  · rw [hwrite]
    exact FileDisk.len_le_writeAt _ _ _

/-- The pool's handles are those of its `n` disks. -/
def DisksOf (n : Nat) (p : Pool) : Prop := ∀ id : DiskId,
  (p.disks[id]?).map DiskHandle.disk = ((handlesOf n (fun _ => 0))[id]?).map DiskHandle.disk

/-- What a data phase keeps. -/
def KeepsDisks (n : Nat) (a b : World × Pool) : Prop := DisksOf n a.2 → DisksOf n b.2

theorem keepsDisks_replica (headerLen : Nat) (buf : Bytes) (writeOne : World → DiskHandle → Res PoolError Nat × World)
    (id : DiskId) (hw : WritesAtCursor headerLen buf writeOne) :
    Action.Keeps (KeepsDisks n) (writeReplica writeOne id) := by
  rintro ⟨w, p⟩ hd
  generalize hout : writeReplica writeOne id (w, p) = out
  obtain ⟨r, w', p'⟩ := out
  rcases writeReplica_cases hw hout with ⟨-, -, rfl⟩ | ⟨handle, left, hid, -, -, ⟨rfl, -⟩ | ⟨-, rfl, -, -⟩⟩
  · exact hd
  · exact hd
  · intro id'
    show ((p.moveCursor id handle _).disks[id']?).map _ = _
    rw [moveCursor_disks, ← hd id']
    split
    · rename_i hsame
      subst hsame
      show _ = (p.disks[id]?).map DiskHandle.disk
      rw [hid]
      rfl
    · rfl

theorem disksOf_dataPhase {x : PoolM MetaOp} (hd : DisksOf n p) (hop : dataPhase env op = some x) :
    DisksOf n (x (w, p)).2.2 :=
  keeps_dataPhase (fun _ h => h) (fun _ _ _ h h' hd => h' (h hd)) keepsDisks_replica hop (w, p) hd

theorem disksOf_handlesOf (n : Nat) (cursor : Nat → Nat) (pm : PoolMap) (s : MetaStore) :
    DisksOf n ⟨pm, handlesOf n cursor, s⟩ := by
  intro id
  show ((handlesOf n cursor)[id]?).map DiskHandle.disk = _
  rw [handlesOf_cursor n cursor (fun _ => 0), Option.map_map]
  rfl

/-! ## The table of a pool -/

/-- Every entry of the table is a record under its own number, below the counter, with the property `P` and with a list of
    chunks the log can have held. -/
structure Tabled (n : Nat) (P : World → InodeRecord → Prop) (w : World) (p : Pool) : Prop where
  wf : MetaWf p.metaStore
  handles : HandlesOk p
  disks : DisksOf n p
  records : p.metaStore.view.Each (fun rec => P w rec ∧ rec.Lists (fun _ _ _ => True) p.metaStore.walCursor)
  keys : p.metaStore.view.KeysBelow

variable {P : World → InodeRecord → Prop}

theorem Tabled.phase {x : PoolM MetaOp} (hgrow : ∀ w w' rec, Longer w w' → P w rec → P w' rec) (h : Tabled n P w p)
    (hop : dataPhase env op = some x) : Tabled n P (x (w, p)).2.1 (x (w, p)).2.2 := by
  have hsame := sameStore_dataPhase hop (w, p)
  have hlonger := (logKept_dataPhase hop (w, p)).longer
  refine ⟨?_, (keepsData_dataPhase hop (w, p) h.handles).1, disksOf_dataPhase h.disks hop, ?_, ?_⟩
  · rw [show _ = p.metaStore from hsame]
    exact h.wf
  · rw [show _ = p.metaStore from hsame]
    exact h.records.mono (fun rec hrec => ⟨hgrow _ _ rec hlonger hrec.1, hrec.2⟩)
  · rw [show _ = p.metaStore from hsame]
    exact h.keys

theorem Tabled.alloc {id : InodeId} (h : Tabled n P w p) (halloc : p.metaStore.allocInode = .ok (id, s')) :
    Tabled n P w { p with metaStore := s' } := by
  obtain ⟨hkeys, -⟩ := MetaStore.keysBelow_alloc h.keys halloc
  obtain ⟨next, -, hs⟩ := Res.bind_eq_ok.mp halloc
  obtain ⟨-, rfl⟩ := Prod.mk.inj (Res.ok.inj hs)
  exact ⟨h.wf, h.handles, h.disks, h.records.of_inodes_eq rfl, hkeys⟩

/-- No operation the pool hands over creates a file with data. -/
theorem Hands.chunkCount_eq (hh : Hands env w p op mop w₁ p₁) {rec : InodeRecord} (hmop : mop = .createInode rec) :
    rec.chunkCount = 0 := by
  subst hmop
  cases hh with
  | phase hop hx =>
      exact False.elim (dataPhase_storesData hop hx)
  | create halloc => rfl

theorem allReplicas_true (mop : MetaOp) : mop.AllReplicas (fun _ _ _ => True) := by
  cases mop with
  | createInode rec => exact .of_forall (fun _ _ _ => trivial) rec.data
  | _ => simp [MetaOp.AllReplicas, DataLocator.AllReplicas]

/-- The record of a step can be encoded. -/
theorem Tabled.fits_of_recStep {rec : InodeRecord} (h : Tabled n P w p)
    (hfit : p.metaStore.walCursor + (MetaStore.opFrame env.ord mop).length ≤ Wal.walCapacityBytes)
    (hempty : ∀ rec, mop = .createInode rec → rec.chunkCount = 0) (hstep : p.metaStore.view.RecStep mop rec) :
    rec.Fits ∧ rec.Lists (fun _ _ _ => True) (p.metaStore.walCursor + 1) := by
  have hcap := Wal.walCapacityBytes_lt
  exact hstep.allReplicas (by omega) (h.records.mono (fun _ hrec => hrec.2)) (MetaStore.fits_of_frame hfit)
    (allReplicas_true mop) hempty

/-- **Step lemma** of the metadata operations, accepted or refused. -/
theorem Tabled.apply {res : Res MetaStoreError Unit} (hgrow : ∀ w w' rec, Longer w w' → P w rec → P w' rec)
    (h : Tabled n P w p) (happly : p.metaStore.apply env w mop = (res, w', s')) (hres : res ≠ .panic)
    (hfit : p.metaStore.walCursor + (MetaStore.opFrame env.ord mop).length ≤ Wal.walCapacityBytes)
    (hnew : ∀ rec, p.metaStore.view.RecStep mop rec → P w rec)
    (hempty : ∀ rec, mop = .createInode rec → rec.chunkCount = 0) : Tabled n P w' { p with metaStore := s' } := by
  have hlonger := longer_apply h.wf happly
  obtain ⟨hrecords, hkeys⟩ := MetaStore.each_apply (P := fun k rec => P w rec ∧ rec.Lists (fun _ _ _ => True) k)
    (Q := fun k rec => P w' rec ∧ rec.Lists (fun _ _ _ => True) k) h.wf.2 h.records h.keys happly hres
    (fun k rec hk hrec => ⟨hgrow _ _ rec hlonger hrec.1, hrec.2.1, Nat.le_trans hrec.2.2 hk⟩) (fun rec hstep => by
      obtain ⟨hfits, hlists⟩ := h.fits_of_recStep hfit hempty hstep
      have hP := hgrow _ _ rec hlonger (hnew rec hstep)
      exact ⟨hfits, fun k hk => ⟨hP, hlists.1, Nat.le_trans hlists.2 hk⟩⟩)
  exact ⟨h.wf.apply happly, h.handles, h.disks, hrecords, hkeys⟩

/-- The inode an accepted operation names has the record of its step. -/
theorem Tabled.has_apply {i : InodeId} (h : Tabled n P w p) (happly : p.metaStore.apply env w mop = (.ok (), w', s'))
    (hfit : p.metaStore.walCursor + (MetaStore.opFrame env.ord mop).length ≤ Wal.walCapacityBytes)
    (hempty : ∀ rec, mop = .createInode rec → rec.chunkCount = 0) (ht : mop.target = some i) :
    ∃ rec, p.metaStore.view.RecStep mop rec ∧ s'.view.Has i rec := by
  obtain ⟨-, hview⟩ := MetaStore.apply_eq_ok h.wf.2 happly
  exact View.has_applyLocally h.records hview ht (fun rec hstep => (h.fits_of_recStep hfit hempty hstep).1)

/-! ## The log behind it -/

/-- A replay of the log would hand out no number that is in use. -/
def ReplayKeys (w : World) : Prop :=
  ∀ v, View.empty.replay (Wal.scan (w.disk 0) 0).entries = .ok v → v.KeysBelow

/-- **Step lemma** of the log: the replayed table takes an operation as the live one does. -/
theorem ReplayKeys.apply {res : Res MetaStoreError Unit} (hk : ReplayKeys w) (ht : Traced w p) (h : Tabled n P w p)
    (happly : p.metaStore.apply env w mop = (res, w', s')) (hres : res ≠ .panic)
    (hfit : p.metaStore.walCursor + (MetaStore.opFrame env.ord mop).length ≤ Wal.walCapacityBytes)
    (hup : ∀ e, p.metaStore.commitReport env w mop ≠ .error (.primaryUnavailable e)) : ReplayKeys w' := by
  intro v' hv'
  rw [ht.scan_apply happly hres hfit hup, View.replay_snoc] at hv'
  obtain ⟨v, hv, hentry⟩ := Res.bind_eq_ok.mp hv'
  rw [View.replayEntry_encodeOp _ _ (MetaStore.fits_of_frame hfit)] at hentry
  obtain ⟨ps, hcarries, hreplay⟩ := ht.carries
  have hkeys := hk v hv
  rw [hcarries.scan_eq] at hv
  exact hkeys.applyLocally (h.records.of_inodes_eq (hreplay v hv).1) hentry

/-- Every reopen of the run finds a log that reached the primary. -/
def ReopenedDurable (events : List Event) : Prop := BeforeReopens (fun _ => PrimaryUp) events

/-- What one call of a run does to the records, from the table it found and the one its last operation found, on as many
    disks as were opened last. -/
def LeavesRecords (opens : Nat → Prop) (P : World → InodeRecord → Prop) (events : List Event) : Prop :=
  ∀ m env w p op res mop w₁ p₁ rec, opens m → .call env w p op res ∈ events → Tabled m P w p → Tabled m P w₁ p₁ →
    Hands env w p op mop w₁ p₁ → p₁.metaStore.view.RecStep mop rec → P w₁ rec

theorem tabled_fresh (w : World) (hn : n ≠ 0) (classes : List DiskClass) :
    Tabled n P w ⟨poolMapOf classes, handlesOf n (fun _ => 0), freshStore n⟩ := by
  refine ⟨metaWf_open (openStore_createDisks w hn), fun _ _ hid => (handlesOf_eq_some hid).1,
    disksOf_handlesOf n _ _ _, View.each_empty, ?_⟩
  intro i hi
  simp [freshStore, View.empty] at hi

theorem LeavesRecords.snoc {opens : Nat → Prop} {events : List Event} {e : Event}
    (h : LeavesRecords opens P (events ++ [e])) : LeavesRecords opens P events :=
  fun m env w p op res mop w₁ p₁ rec hm he => h m env w p op res mop w₁ p₁ rec hm (List.mem_append_left _ he)

/-- One call keeps the table and, as long as it matters (`up`), what recovery would replay. -/
theorem Tabled.step {up : Prop} {res : Res PoolError PoolVal} (hok : Tabled n P w p)
    (hgrow : ∀ w w' rec, Longer w w' → P w rec → P w' rec) (htraced : up → Traced w p ∧ ReplayKeys w)
    (h : step env op (w, p) = (res, w', p')) (hres : res ≠ .panic) (hfits : ∀ c ∈ p.metaCalls env w op, c.Fits)
    (hup : up → ∀ c ∈ p.metaCalls env w op, ∀ e, c.report ≠ .error (.primaryUnavailable e))
    (hleaves : ∀ mop w₁ p₁ rec, Tabled n P w₁ p₁ → Hands env w p op mop w₁ p₁ →
      p₁.metaStore.view.RecStep mop rec → P w₁ rec) :
    Tabled n P w' p' ∧ (up → Traced w' p' ∧ ReplayKeys w') := by
  refine step_rule (I := fun v q => Tabled n P v q ∧ (up → Traced v q ∧ ReplayKeys v)) ⟨hok, htraced⟩ ?_ ?_ ?_ h hres
  · intro x hop
    have hkept := logKept_dataPhase hop (w, p)
    have hsame := sameStore_dataPhase hop (w, p)
    refine ⟨hok.phase hgrow hop, fun hu => ?_⟩
    obtain ⟨ht, hkeys⟩ := htraced hu
    refine ⟨ht.keep hkept hsame, ?_⟩
    unfold ReplayKeys
    rw [ht.scan_keep hkept hsame]
    exact hkeys
  · intro id s halloc
    exact ⟨hok.alloc halloc, fun hu => ⟨(htraced hu).1.alloc halloc, (htraced hu).2⟩⟩
  · rintro mop w₁ p₁ q w₂ s₂ hhands ⟨hok₁, htraced₁⟩ happly hq
    have hfit := hfits _ hhands.mem_metaCalls
    refine ⟨hok₁.apply hgrow happly hq hfit (fun rec hstep => hleaves _ _ _ _ hok₁ hhands hstep)
      (fun _ => hhands.chunkCount_eq), fun hu => ?_⟩
    obtain ⟨ht₁, hkeys₁⟩ := htraced₁ hu
    have htook := hup hu _ hhands.mem_metaCalls
    exact ⟨ht₁.apply happly hq hfit htook, hkeys₁.apply ht₁ hok₁ happly hq hfit htook⟩

/-- A reopen of a log that reached the primary rebuilds the inode table. -/
theorem inodes_reopen {classes : List DiskClass} (htraced : Traced w p) (h : openWithClasses w n classes = .ok p') :
    p'.metaStore.view.inodes = p.metaStore.view.inodes := by
  obtain ⟨-, -, s, hopen, rfl⟩ := openWithClasses_eq_ok h
  obtain ⟨hreplay, -⟩ := MetaStore.openStore_eq_ok hopen
  obtain ⟨ps, hcarries, hsame⟩ := htraced.carries
  rw [hcarries.scan_eq] at hreplay
  exact (hsame _ hreplay).1

/-- The records carry over to the reopened pool, however many disks it takes; the counter is the replayed one. -/
theorem Tabled.reopen {m : Nat} {classes : List DiskClass} (hok : Tabled m P w p) (htraced : Traced w p)
    (hkeys : ReplayKeys w) (h : openWithClasses w n classes = .ok p') : Tabled n P w p' := by
  have hsame := inodes_reopen htraced h
  obtain ⟨-, -, s, hopen, rfl⟩ := openWithClasses_eq_ok h
  obtain ⟨hreplay, hs⟩ := MetaStore.openStore_eq_ok hopen
  obtain ⟨ps, hcarries, -⟩ := htraced.carries
  have hview := hkeys _ hreplay
  rw [hcarries.scan_eq] at hs
  refine ⟨metaWf_open hopen, fun _ _ hid => (handlesOf_eq_some hid).1, disksOf_handlesOf n _ _ _, ?_, hview⟩
  have hcursor : s.walCursor = p.metaStore.walCursor := by rw [hs]
  show s.view.Each (fun rec => P w rec ∧ rec.Lists (fun _ _ _ => True) s.walCursor)
  rw [hcursor]
  exact hok.records.of_inodes_eq hsame

/-- **Run rule.** What the root directory has, what growing disks keep and what every record step leaves behind, every
    record of every reachable table has; and the log replays to such a table. -/
theorem RunWith.tabled {opens : Nat → Prop} {events : List Event} (hrun : RunWith opens n w p events)
    (hgrow : ∀ w w' rec, Longer w w' → P w rec → P w' rec) (hroot : ∀ w now, n ≠ 0 → P w (rootRecord n now)) (hself : opens n)
    (hfits : LogFits events) (hdurable : ReopenedDurable events) (hleaves : LeavesRecords opens P events) :
    (∃ m, opens m ∧ Tabled m P w p) ∧ (PrimaryUp events → ReplayKeys w) := by
  induction hrun with
  | @format w₀ w p classes now env h =>
      obtain ⟨hn, -, s, happly, rfl, hcall⟩ := format_eq_ok h
      have hmem := List.mem_flatMap.mpr ⟨_, List.mem_singleton.mpr rfl, hcall⟩
      have hfresh : Tabled n P (createDisks w₀ n) ⟨poolMapOf classes, handlesOf n (fun _ => 0), freshStore n⟩ :=
        tabled_fresh (createDisks w₀ n) hn classes
      refine ⟨⟨n, hself, hfresh.apply hgrow happly (by simp) (hfits _ hmem) ?_ ?_⟩, fun hup => ?_⟩
      · intro rec hstep
        cases hstep
        exact hroot _ _ hn
      · intro rec hrec
        obtain rfl := MetaOp.createInode.inj hrec
        rfl
      · have ht : Traced (createDisks w₀ n) ⟨poolMapOf classes, handlesOf n (fun _ => 0), freshStore n⟩ :=
          traced_created w₀ hn classes
        have hkeys : ReplayKeys (createDisks w₀ n) := by
          intro v hv
          obtain ⟨hopen, -⟩ := MetaStore.openStore_eq_ok (openStore_createDisks w₀ hn)
          obtain rfl := Res.ok.inj (hv.symm.trans hopen)
          exact hfresh.keys
        exact hkeys.apply ht hfresh happly (by simp) (hfits _ hmem) (hup _ hmem)
  | @call w p events res w' p' env op hrun h hres ih =>
      obtain ⟨hfits₀, hfits₁⟩ := hfits.snoc
      obtain ⟨⟨m, hm, hok⟩, hkeys⟩ := ih hfits₀ (BeforeReopens.snoc hdurable) hleaves.snoc
      -- as long as the primary took every frame, what recovery would replay is known as well
      have htraced : PrimaryUp (events ++ [.call env w p op res]) → Traced w p ∧ ReplayKeys w := by
        intro hup
        obtain ⟨hup₀, -⟩ := forall_metaCalls_snoc hup
        exact ⟨hrun.traced hfits₀ hup₀, hkeys hup₀⟩
      obtain ⟨hok', htraced'⟩ := hok.step hgrow htraced h hres hfits₁ (fun hup => (forall_metaCalls_snoc hup).2)
        (fun mop w₁ p₁ rec hok₁ hhands hstep =>
          hleaves m _ _ _ _ _ mop w₁ p₁ rec hm (List.mem_append_right _ (List.mem_singleton.mpr rfl)) hok hok₁ hhands
            hstep)
      exact ⟨⟨m, hm, hok'⟩, fun hup => (htraced' hup).2⟩
  | @reopen m w p events classes p' hrun h hm ih =>
      obtain ⟨hfits₀, -⟩ := hfits.snoc
      have hup := BeforeReopens.last hdurable
      obtain ⟨⟨m', -, hok⟩, hkeys⟩ := ih hfits₀ (BeforeReopens.snoc hdurable) hleaves.snoc
      refine ⟨⟨m, hm, ?_⟩, fun _ => hkeys hup⟩
      exact hok.reopen (hrun.traced hfits₀ hup) (hkeys hup) h

/-- The rule where each reopen takes all the disks. -/
theorem Run.tabled {events : List Event} (hgrow : ∀ w w' rec, Longer w w' → P w rec → P w' rec)
    (hroot : ∀ w now, n ≠ 0 → P w (rootRecord n now)) (hrun : Run n w p events) (hfits : LogFits events)
    (hdurable : ReopenedDurable events) (hleaves : LeavesRecords (· = n) P events) : Tabled n P w p := by
  obtain ⟨⟨m, hm, htabled⟩, -⟩ := RunWith.tabled hrun hgrow hroot rfl hfits hdurable hleaves
  exact hm ▸ htabled

end Tartine.Pool
