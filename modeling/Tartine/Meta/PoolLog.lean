import Tartine.Basis.Ordered
import Tartine.Meta.PoolData
import Tartine.Meta.Rejection

/-!
# `Meta.PoolLog` — the log of a running pool, and its second copy

The log lies below the data region of the first disk, and a copy of it below that of the second. File data never reaches
it (`LogKept`), so along a run only `MetaStore::apply` and a reopen matter.

* `Traced` — the log is the operations' log, blank after the cursor, and replays to the live tables if at all;
* `Mirrored` — as long as the group names a backup, that disk's log region equals the primary's;
* `backup_mirrors_primary` — both along every run, with reopens of any number of its disks, in which a reopen that names
  a backup finds every commit on it: a backup that was fenced or left out is taken back by the next `open`, which
  rebuilds the group from the disks it is given (`open_takes_back_stale_backup`).
-/

namespace Tartine.Pool

open Basis Codec

variable {env : Env} {w w' : World} {p p' : Pool} {s' : MetaStore}

/-! ## File data leaves the log alone -/

/-- Nothing below the data region has changed, on any disk; files only grow. -/
def LogKept (a b : World × Pool) : Prop :=
  ∀ r, (a.1.disk r).len ≤ (b.1.disk r).len ∧
    ∀ i, i < segmentBaseOffset → (b.1.disk r).bytes i = (a.1.disk r).bytes i

theorem logKept_refl (a : World × Pool) : LogKept a a := fun _ => ⟨Nat.le_refl _, fun _ _ => rfl⟩

theorem logKept_trans (a b c : World × Pool) (hab : LogKept a b) (hbc : LogKept b c) : LogKept a c := by
  intro r
  obtain ⟨hlen, hbytes⟩ := hab r
  obtain ⟨hlen', hbytes'⟩ := hbc r
  exact ⟨Nat.le_trans hlen hlen', fun i hi => (hbytes' i hi).trans (hbytes i hi)⟩

theorem logKept_replica (headerLen : Nat) (buf : Bytes) (writeOne : World → DiskHandle → Res PoolError Nat × World)
    (id : DiskId) (hw : WritesAtCursor headerLen buf writeOne) : Action.Keeps LogKept (writeReplica writeOne id) := by
  rintro ⟨w, p⟩
  generalize hout : writeReplica writeOne id (w, p) = out
  obtain ⟨r, w', p'⟩ := out
  rcases writeReplica_cases hw hout with ⟨-, rfl, -⟩ | ⟨handle, left, -, hdisk, hother, -⟩
  · exact logKept_refl (w', p)
  · intro x
    by_cases hx : x = handle.disk
    · subst hx
      show _ ≤ (w'.disk handle.disk).len ∧ ∀ i, _ → (w'.disk handle.disk).bytes i = _
      rw [hdisk]
      refine ⟨FileDisk.len_le_writeAt _ _ _, fun i hi => ?_⟩
      rw [FileDisk.writeAt_bytes, patch_of_not_mem (by omega)]
    · show _ ≤ (w'.disk x).len ∧ ∀ i, _ → (w'.disk x).bytes i = _
      rw [hother x hx]
      exact ⟨Nat.le_refl _, fun _ _ => rfl⟩

theorem logKept_dataPhase {op : PoolOp} {x : PoolM MetaOp} (hop : dataPhase env op = some x) :
    Action.Keeps LogKept x :=
  keeps_dataPhase logKept_refl logKept_trans logKept_replica hop

/-- A chain inside the log's region is still there. -/
theorem LogKept.chain (h : LogKept (w, p) (w', p')) {r : DiskRef} {ps : List Bytes} {e : Nat}
    (hc : Chain (Wal.probe (w.disk r) 0) 0 ps e) : Chain (Wal.probe (w'.disk r) 0) 0 ps e := by
  have hcap := walCapacity_le_segmentBase
  have hend := hc.end_le Wal.probe_bounded (Nat.zero_le _)
  obtain ⟨hlen, hbytes⟩ := h r
  refine Framing.chain_mono hc ?_
  intro off n bs hoff hread
  obtain ⟨rfl, hold⟩ := FileDisk.length_of_readAt hread
  refine FileDisk.readAt_of_holds (hold.congr (fun i _ hi => hbytes i (by omega))) ?_
  by_cases hbs : bs = []
  · exact Or.inl hbs
  · right
    have hin : bs.length = 0 ∨ 0 + off + bs.length ≤ (w.disk r).len := by
      unfold FileDisk.readAt at hread
      by_contra hout
      rw [if_neg hout] at hread
      cases hread
    rcases hin with h0 | hle
    · exact absurd (List.length_eq_zero_iff.mp h0) hbs
    · exact Nat.le_trans hle hlen

/-! ## What the commits of a run reported -/

/-- What the disks reported to a call. -/
def MetaCall.report (c : MetaCall) : Except CommitError Unit := c.store.commitReport c.env c.world c.op

/-- The primary never failed a commit. -/
def PrimaryUp (events : List Event) : Prop :=
  ∀ c ∈ allMetaCalls events, ∀ e, c.report ≠ .error (.primaryUnavailable e)

/-- The commit had a backup to write to, and did not lose it. -/
def MetaCall.Doubled (c : MetaCall) : Prop :=
  c.store.replicator.backupDisk.isSome ∧ ∀ e, c.report ≠ .error (.backupUnavailable e)

/-- Every commit reached two disks: none was made without a backup, and none lost it. -/
def Doubled (events : List Event) : Prop := ∀ c ∈ allMetaCalls events, c.Doubled

/-- The calls of an operation run in its environment. -/
theorem metaCalls_env {op : PoolOp} {c : MetaCall} (h : c ∈ p.metaCalls env w op) : c.env = env := by
  obtain ⟨mop, w₁, p₁, rfl, -⟩ := exists_hands h
  rfl

/-- Two operations that one call hands over: the same one, or the creation of an inode and its link, in either
    order. -/
theorem Hands.comparable {op : PoolOp} {mop mop' : MetaOp} {w₁ w₂ : World} {p₁ p₂ : Pool}
    (hh : Hands env w p op mop w₁ p₁) (hh' : Hands env w p op mop' w₂ p₂) :
    (mop' = mop ∧ w₂ = w₁ ∧ p₂ = p₁) ∨
    p₁.metaStore.apply env w₁ mop = (.ok (), w₂, p₂.metaStore) ∨
    ((∃ rec, mop' = .createInode rec) ∧ p₂.metaStore.apply env w₂ mop' = (.ok (), w₁, p₁.metaStore)) := by
  cases hh with
  | phase hop hx =>
      cases hh' with
      | phase hop' hx' =>
          obtain rfl := Option.some.inj (hop.symm.trans hop')
          obtain ⟨hmop, hs⟩ := Prod.mk.inj (hx.symm.trans hx')
          obtain ⟨rfl, rfl⟩ := Prod.mk.inj hs
          obtain rfl := Res.ok.inj hmop
          exact Or.inl ⟨rfl, rfl, rfl⟩
      | beginConvert => cases hop
      | setRedundancy => cases hop
      | unlink => cases hop
      | create halloc => cases hop
      | link halloc hcreate => cases hop
  | beginConvert =>
      cases hh' with
      | phase hop hx => cases hop
      | beginConvert => exact Or.inl ⟨rfl, rfl, rfl⟩
  | setRedundancy =>
      cases hh' with
      | phase hop hx => cases hop
      | setRedundancy => exact Or.inl ⟨rfl, rfl, rfl⟩
  | unlink =>
      cases hh' with
      | phase hop hx => cases hop
      | unlink => exact Or.inl ⟨rfl, rfl, rfl⟩
  | create halloc =>
      cases hh' with
      | phase hop hx => cases hop
      | create halloc' =>
          obtain ⟨rfl, rfl⟩ := Prod.mk.inj (Res.ok.inj (halloc.symm.trans halloc'))
          exact Or.inl ⟨rfl, rfl, rfl⟩
      | link halloc' hcreate =>
          obtain ⟨rfl, rfl⟩ := Prod.mk.inj (Res.ok.inj (halloc.symm.trans halloc'))
          exact Or.inr (Or.inl hcreate)
  | link halloc hcreate =>
      cases hh' with
      | phase hop hx => cases hop
      | create halloc' =>
          obtain ⟨rfl, rfl⟩ := Prod.mk.inj (Res.ok.inj (halloc.symm.trans halloc'))
          exact Or.inr (Or.inr ⟨⟨_, rfl⟩, hcreate⟩)
      | link halloc' hcreate' =>
          obtain ⟨rfl, rfl⟩ := Prod.mk.inj (Res.ok.inj (halloc.symm.trans halloc'))
          obtain ⟨-, hs⟩ := Prod.mk.inj (hcreate.symm.trans hcreate')
          obtain ⟨rfl, rfl⟩ := Prod.mk.inj hs
          exact Or.inl ⟨rfl, rfl, rfl⟩

/-- On healthy disks every frame a call writes ends no later than the log does after the call. -/
theorem Hands.end_le {ord : IterOrder} {w₁ : World} {p₁ : Pool} {op : PoolOp} {mop : MetaOp}
    {res : Res PoolError PoolVal} (hwf : MetaWf p.metaStore) (hh : Hands (Env.healthy ord) w p op mop w₁ p₁)
    (h : step (Env.healthy ord) op (w, p) = (res, w', p')) (hres : res ≠ .panic) :
    p₁.metaStore.walCursor + (MetaStore.opFrame ord mop).length ≤ p'.metaStore.walCursor := by
  rcases step_cases h hres with ⟨⟨_, _, _, rfl⟩, -⟩ | ⟨x, e, hop, hx, -⟩ | ⟨mop', w₂, p₂, q, s', hh', happly, rfl, hcloses⟩
  · cases hh with
    | phase hop hx => cases hop
  · cases hh with
    | phase hop' hx' =>
        obtain rfl := Option.some.inj (hop.symm.trans hop')
        cases (Prod.mk.inj (hx.symm.trans hx')).1
    | beginConvert => cases hop
    | setRedundancy => cases hop
    | unlink => cases hop
    | create halloc => cases hop
    | link halloc hcreate => cases hop
  · have hq : q ≠ .panic := by
      rintro rfl
      cases hcloses
    have hlog := MetaStore.logged_of_healthy (hh'.wf hwf).2 happly hq
    show _ ≤ s'.walCursor
    rw [hlog.cursor_eq]
    -- the last operation is logged, and only the creation of an inode comes before another
    rcases hh.comparable hh' with ⟨rfl, rfl, rfl⟩ | hnext | ⟨⟨rec, rfl⟩, hbefore⟩
    · exact Nat.le_refl _
    · have hfirst := MetaStore.logged_of_healthy (hh.wf hwf).2 hnext (by simp)
      rw [hfirst.cursor_eq]
      exact Nat.le_add_right _ _
    · obtain ⟨rfl, -⟩ := Prod.mk.inj (hbefore.symm.trans happly)
      cases hcloses with
      | accepted hne => exact absurd rfl (hne _)

/-- On healthy disks, the frames of a call fit as soon as the log is within its region afterwards. -/
theorem fits_of_cursor_le {ord : IterOrder} {op : PoolOp} {res : Res PoolError PoolVal} (hwf : MetaWf p.metaStore)
    (h : step (Env.healthy ord) op (w, p) = (res, w', p')) (hres : res ≠ .panic)
    (hlog : p'.metaStore.walCursor ≤ Wal.walCapacityBytes) : ∀ c ∈ p.metaCalls (Env.healthy ord) w op, c.Fits := by
  intro c hc
  obtain ⟨mop, w₁, p₁, rfl, hh⟩ := exists_hands hc
  exact Nat.le_trans (hh.end_le hwf h hres) hlog

/-- One more call on healthy disks keeps a run's frames within the log, if the log then ends within its region. -/
theorem LogFits.call {events : List Event} {ord : IterOrder} {op : PoolOp} {res : Res PoolError PoolVal} (hfits : LogFits events)
    (hwf : MetaWf p.metaStore) (h : step (Env.healthy ord) op (w, p) = (res, w', p')) (hres : res ≠ .panic)
    (hlog : p'.metaStore.walCursor ≤ Wal.walCapacityBytes) : LogFits (events ++ [.call (Env.healthy ord) w p op res]) := by
  intro c hc
  rw [allMetaCalls_snoc] at hc
  rcases List.mem_append.mp hc with hold | hnew
  · exact hfits c hold
  · exact fits_of_cursor_le hwf h hres hlog c hnew

/-- The log never becomes shorter. -/
theorem cursor_le_step {op : PoolOp} {res : Res PoolError PoolVal} (hwf : MetaWf p.metaStore)
    (h : step env op (w, p) = (res, w', p')) (hres : res ≠ .panic) :
    p.metaStore.walCursor ≤ p'.metaStore.walCursor := by
  refine (step_rule (I := fun _ q => MetaWf q.metaStore ∧ p.metaStore.walCursor ≤ q.metaStore.walCursor)
    ⟨hwf, Nat.le_refl _⟩ ?_ ?_ ?_ h hres).2
  · intro x hop
    rw [show (x (w, p)).2.2.metaStore = p.metaStore from sameStore_dataPhase hop (w, p)]
    exact ⟨hwf, Nat.le_refl _⟩
  · intro id s halloc
    refine ⟨hwf.alloc halloc, ?_⟩
    obtain ⟨next, -, hs⟩ := Res.bind_eq_ok.mp halloc
    obtain ⟨-, rfl⟩ := Prod.mk.inj (Res.ok.inj hs)
    exact Nat.le_refl _
  · rintro mop w₁ p₁ q w₂ s₂ - ⟨hwf₁, hle⟩ happly hq
    refine ⟨hwf₁.apply happly, Nat.le_trans hle ?_⟩
    show p₁.metaStore.walCursor ≤ s₂.walCursor
    rcases MetaStore.apply_primary hwf₁.2 happly hq with ⟨hlog, -⟩ | ⟨-, rfl, -⟩
    · rw [hlog.cursor_eq]
      exact Nat.le_add_right _ _
    · exact Nat.le_refl _

/-- On healthy disks every commit succeeds. -/
theorem report_of_healthy {events : List Event} (h : ∀ e ∈ events, e.Healthy) :
    ∀ c ∈ allMetaCalls events, c.report = .ok () := by
  intro c hc
  obtain ⟨e, he, hce⟩ := List.mem_flatMap.mp hc
  have hio : c.env.io = healthy := by
    have hhealthy := h e he
    cases e with
    | format env w₀ n now =>
        simp only [Event.metaCalls, formatCalls] at hce
        split at hce
        · obtain rfl := List.mem_singleton.mp hce
          exact hhealthy
        · cases hce
    | call env w p op res =>
        rw [metaCalls_env hce]
        exact hhealthy
    | reopen n => cases hce
  obtain ⟨ord, henv⟩ := Env.eq_healthy hio
  unfold MetaCall.report
  rw [henv]
  exact MetaStore.commitReport_healthy _ _ _ _

theorem primaryUp_of_healthy {events : List Event} (h : ∀ e ∈ events, e.Healthy) : PrimaryUp events := by
  intro c hc e he
  rw [report_of_healthy h c hc] at he
  cases he

/-- What the events before each reopen of the run have done, by the number of disks it takes. -/
def BeforeReopens (P : Nat → List Event → Prop) (events : List Event) : Prop :=
  ∀ before m after, events = before ++ .reopen m :: after → P m before

theorem BeforeReopens.snoc {P : Nat → List Event → Prop} {events : List Event} {e : Event}
    (h : BeforeReopens P (events ++ [e])) : BeforeReopens P events := by
  intro before m after hsplit
  exact h before m (after ++ [e]) (by rw [hsplit, List.append_assoc, List.cons_append])

/-- The last event of the run may be a reopen too. -/
theorem BeforeReopens.last {P : Nat → List Event → Prop} {events : List Event} {m : Nat}
    (h : BeforeReopens P (events ++ [.reopen m])) : P m events := h events m [] rfl

/-- A call comes before no reopen that was not there. -/
theorem BeforeReopens.call {P : Nat → List Event → Prop} {events : List Event} {op : PoolOp}
    {res : Res PoolError PoolVal} (h : BeforeReopens P events) :
    BeforeReopens P (events ++ [.call env w p op res]) := by
  intro before m after hsplit
  rcases snoc_eq_append_cons hsplit with ⟨-, hlast, -⟩ | ⟨after', -, heq⟩
  · cases hlast
  · exact h before m after' heq

/-- A reopen that ends the run is one more. -/
theorem BeforeReopens.reopen {P : Nat → List Event → Prop} {events : List Event} {m : Nat} (h : BeforeReopens P events)
    (hP : P m events) : BeforeReopens P (events ++ [.reopen m]) := by
  intro before m' after hsplit
  rcases snoc_eq_append_cons hsplit with ⟨rfl, hlast, -⟩ | ⟨after', -, heq⟩
  · cases hlast
    exact hP
  · exact h before m' after' heq

/-- A session has no reopen. -/
theorem beforeReopens_of_inSession {P : Nat → List Event → Prop} {events : List Event} (h : ∀ e ∈ events, e.InSession) :
    BeforeReopens P events := by
  intro before m after hsplit
  exact (h (.reopen m) (by rw [hsplit]; simp)).elim

/-- What holds of all healthy pasts holds before each reopen of a healthy run. -/
theorem beforeReopens_of_healthy {P : Nat → List Event → Prop} {events : List Event} (h : ∀ e ∈ events, e.Healthy)
    (hP : ∀ m before, (∀ e ∈ before, e.Healthy) → P m before) : BeforeReopens P events := by
  intro before m after hsplit
  refine hP m before (fun e he => h e ?_)
  rw [hsplit]
  exact List.mem_append_left _ he

/-! ## The log of a running pool -/

/-- The first disk's log region holds the operations' log up to the cursor and nothing after it. -/
structure Traced (w : World) (p : Pool) : Prop where
  follows : MetaStore.Follows 0 w p.metaStore
  within : p.metaStore.walCursor ≤ Wal.walCapacityBytes
  blank : ∀ i, p.metaStore.walCursor ≤ i → i < Wal.walCapacityBytes → (w.disk 0).bytes i = 0

/-- What a scan of the first disk then finds. -/
theorem Traced.carries (h : Traced w p) : ∃ ps, Wal.Carries (w.disk 0) ps p.metaStore.walCursor ∧
    ∀ v, View.empty.replay ps = .ok v → v.SameTables p.metaStore.view := by
  obtain ⟨ps, hchain, hreplay⟩ := h.follows.log h.within
  exact ⟨ps, ⟨hchain, h.blank⟩, hreplay⟩

/-- A data phase leaves the log as it was. -/
theorem Traced.keep (h : Traced w p) (hkept : LogKept (w, p) (w', p')) (hsame : p'.metaStore = p.metaStore) :
    Traced w' p' := by
  have hcap := walCapacity_le_segmentBase
  refine ⟨⟨?_, ?_, ?_, ?_⟩, ?_, ?_⟩
  · rw [hsame]; exact h.follows.primaryDisk_eq
  · rw [hsame]; exact h.follows.backupDisk_ne
  · rw [hsame]; exact h.follows.base_eq
  · rw [hsame]
    intro hle
    obtain ⟨ps, hchain, hreplay⟩ := h.follows.log hle
    exact ⟨ps, hkept.chain hchain, hreplay⟩
  · rw [hsame]; exact h.within
  · rw [hsame]
    intro i hi hlt
    exact ((hkept 0).2 i (by omega)).trans (h.blank i hi hlt)

theorem Traced.alloc {id : InodeId} (h : Traced w p) (halloc : p.metaStore.allocInode = .ok (id, s')) :
    Traced w { p with metaStore := s' } := by
  obtain ⟨next, -, hs⟩ := Res.bind_eq_ok.mp halloc
  obtain ⟨-, rfl⟩ := Prod.mk.inj (Res.ok.inj hs)
  exact ⟨⟨h.follows.primaryDisk_eq, h.follows.backupDisk_ne, h.follows.base_eq, h.follows.log⟩, h.within, h.blank⟩

theorem Traced.logged {op : MetaOp} {res : Res MetaStoreError Unit} (h : Traced w p)
    (happly : p.metaStore.apply env w op = (res, w', s')) (hres : res ≠ .panic)
    (hup : ∀ e, p.metaStore.commitReport env w op ≠ .error (.primaryUnavailable e)) :
    MetaStore.Logged w p.metaStore (MetaStore.opFrame env.ord op) w' s' := by
  refine MetaStore.logged_of_report ?_ happly hres hup
  rw [h.follows.primaryDisk_eq]
  exact h.follows.backupDisk_ne

/-- **Step lemma.** A metadata operation extends the log by its frame, whatever the tables say to it. -/
theorem Traced.apply {op : MetaOp} {res : Res MetaStoreError Unit} (h : Traced w p)
    (happly : p.metaStore.apply env w op = (res, w', s')) (hres : res ≠ .panic)
    (hfit : p.metaStore.walCursor + (MetaStore.opFrame env.ord op).length ≤ Wal.walCapacityBytes)
    (hup : ∀ e, p.metaStore.commitReport env w op ≠ .error (.primaryUnavailable e)) :
    Traced w' { p with metaStore := s' } := by
  have hlog := h.logged happly hres hup
  have hdisk := hlog.disk_eq
  rw [h.follows.primaryDisk_eq, h.follows.base_eq, Nat.zero_add] at hdisk
  refine ⟨h.follows.apply happly hres, ?_, ?_⟩
  · show s'.walCursor ≤ _
    rw [hlog.cursor_eq]
    exact hfit
  · show ∀ i, s'.walCursor ≤ i → _
    rw [hlog.cursor_eq]
    intro i hi hlt
    rw [hdisk, FileDisk.writeAt_bytes, patch_of_not_mem (Or.inr hi)]
    exact h.blank i (by omega) hlt

/-- A data phase leaves what recovery will find as it was. -/
theorem Traced.scan_keep (h : Traced w p) (hkept : LogKept (w, p) (w', p')) (hsame : p'.metaStore = p.metaStore) :
    (Wal.scan (w'.disk 0) 0).entries = (Wal.scan (w.disk 0) 0).entries := by
  obtain ⟨ps, hcarries, -⟩ := h.carries
  have hcarries' : Wal.Carries (w'.disk 0) ps p.metaStore.walCursor := by
    refine ⟨hkept.chain hcarries.chain, ?_⟩
    have hblank := (h.keep hkept hsame).blank
    rwa [hsame] at hblank
  rw [hcarries.scan_eq, hcarries'.scan_eq]

/-- A metadata operation adds one entry to it. -/
theorem Traced.scan_apply {op : MetaOp} {res : Res MetaStoreError Unit} (h : Traced w p)
    (happly : p.metaStore.apply env w op = (res, w', s')) (hres : res ≠ .panic)
    (hfit : p.metaStore.walCursor + (MetaStore.opFrame env.ord op).length ≤ Wal.walCapacityBytes)
    (hup : ∀ e, p.metaStore.commitReport env w op ≠ .error (.primaryUnavailable e)) :
    (Wal.scan (w'.disk 0) 0).entries = (Wal.scan (w.disk 0) 0).entries ++ [encodeOp env.ord op] := by
  obtain ⟨ps, hcarries, -⟩ := h.carries
  have hlog := h.logged happly hres hup
  have hdisk := hlog.disk_eq
  rw [h.follows.primaryDisk_eq, h.follows.base_eq, Nat.zero_add] at hdisk
  have hscan := (hcarries.snoc hfit).scan_eq
  rw [hcarries.scan_eq, hdisk, MetaStore.opFrame, hscan]

/-- A reopen finds the log where the writer left it. -/
theorem Traced.reopen {n : Nat} (h : Traced w p) (hopen : MetaStore.openStore w (groupOf n) 0 (backupOf n) = .ok s')
    {poolMap : PoolMap} {disks : Std.ExtTreeMap DiskId DiskHandle} : Traced w ⟨poolMap, disks, s'⟩ := by
  obtain ⟨ps, hcarries, -⟩ := h.carries
  have hcursor : s'.walCursor = p.metaStore.walCursor := by
    rw [(MetaStore.openStore_eq_ok hopen).2, hcarries.scan_eq]
  have hne : backupOf n ≠ some 0 := by
    unfold backupOf
    split <;> simp
  refine ⟨MetaStore.follows_open hne hopen, ?_, ?_⟩
  · show s'.walCursor ≤ _
    rw [hcursor]
    exact h.within
  · show ∀ i, s'.walCursor ≤ i → _
    rw [hcursor]
    exact h.blank

theorem traced_created (w₀ : World) {n : Nat} (hn : n ≠ 0) (classes : List DiskClass) :
    Traced (createDisks w₀ n) ⟨poolMapOf classes, handlesOf n (fun _ => 0), freshStore n⟩ := by
  have hdisk : (createDisks w₀ n).disk 0 = .create diskFileCapacityBytes := if_pos (Nat.pos_of_ne_zero hn)
  refine ⟨MetaStore.follows_open (metaWf_open (openStore_createDisks w₀ hn)).2 (openStore_createDisks w₀ hn),
    Nat.zero_le _, fun i _ _ => ?_⟩
  rw [hdisk]
  rfl

/-- **Run lemma.** In every run whose frames fit and whose commits reach the primary, the log is traced. -/
theorem RunWith.traced {opens : Nat → Prop} {n : Nat} {events : List Event} (hrun : RunWith opens n w p events) (hfits : LogFits events)
    (hup : PrimaryUp events) : Traced w p := by
  induction hrun with
  | @format w₀ w p classes now env h =>
      obtain ⟨hn, -, s, happly, rfl, hcall⟩ := format_eq_ok h
      have hmem := List.mem_flatMap.mpr ⟨_, List.mem_singleton.mpr rfl, hcall⟩
      exact (traced_created w₀ hn classes).apply happly (by simp) (hfits _ hmem) (hup _ hmem)
  | call env op hrun h hres ih =>
      obtain ⟨hfits₀, hfits₁⟩ := hfits.snoc
      obtain ⟨hup₀, hup₁⟩ := forall_metaCalls_snoc hup
      have ht := ih hfits₀ hup₀
      refine step_rule ht ?_ (fun id s halloc => ht.alloc halloc) ?_ h hres
      · intro x hop
        exact ht.keep (logKept_dataPhase hop _) (sameStore_dataPhase hop _)
      · intro mop w₁ p₁ q w₂ s₂ hhands ht₁ happly hq
        exact ht₁.apply happly hq (hfits₁ _ hhands.mem_metaCalls) (hup₁ _ hhands.mem_metaCalls)
  | reopen hrun h hm ih =>
      obtain ⟨hfits₀, -⟩ := hfits.snoc
      obtain ⟨hup₀, -⟩ := forall_metaCalls_snoc hup
      obtain ⟨-, -, s, hopen, rfl⟩ := openWithClasses_eq_ok h
      exact (ih hfits₀ hup₀).reopen hopen

/-! ## The second copy -/

/-- The log regions of the first two disks are equal. -/
structure Copies (w : World) : Prop where
  primary_len : Wal.walCapacityBytes ≤ (w.disk 0).len
  backup_len : Wal.walCapacityBytes ≤ (w.disk 1).len
  bytes_eq : ∀ i, i < Wal.walCapacityBytes → (w.disk 1).bytes i = (w.disk 0).bytes i

/-- As long as the group has a backup, it is the second disk, and that disk carries the primary's log. -/
structure Mirrored (w : World) (p : Pool) : Prop where
  wf : MetaWf p.metaStore
  primaryDisk_eq : p.metaStore.replicator.primaryDisk = 0
  second : ∀ b, p.metaStore.replicator.backupDisk = some b → b = 1
  member : p.metaStore.group.backup.isSome → p.metaStore.replicator.backupDisk.isSome
  copies : p.metaStore.replicator.backupDisk.isSome → Copies w

theorem Copies.scan_eq (h : Copies w) : Wal.scan (w.disk 1) 0 = Wal.scan (w.disk 0) 0 :=
  Wal.scan_congr h.backup_len h.primary_len h.bytes_eq

theorem Copies.keep (h : Copies w) (hkept : LogKept (w, p) (w', p')) : Copies w' := by
  have hcap := walCapacity_le_segmentBase
  refine ⟨Nat.le_trans h.primary_len (hkept 0).1, Nat.le_trans h.backup_len (hkept 1).1, ?_⟩
  intro i hi
  rw [show (w'.disk 1).bytes i = (w.disk 1).bytes i from (hkept 1).2 i (by omega),
    show (w'.disk 0).bytes i = (w.disk 0).bytes i from (hkept 0).2 i (by omega)]
  exact h.bytes_eq i hi

/-- Two copies stay equal when the same bytes are written to both at the same offset. -/
theorem Copies.writeAt {off : Nat} {buf : Bytes} (h : Copies w) (hp : w'.disk 0 = (w.disk 0).writeAt off buf)
    (hb : w'.disk 1 = (w.disk 1).writeAt off buf) : Copies w' := by
  refine ⟨?_, ?_, ?_⟩
  · rw [hp]
    exact Nat.le_trans h.primary_len (FileDisk.len_le_writeAt _ _ _)
  · rw [hb]
    exact Nat.le_trans h.backup_len (FileDisk.len_le_writeAt _ _ _)
  · intro i hi
    rw [hp, hb, FileDisk.writeAt_bytes, FileDisk.writeAt_bytes]
    exact patch_congr (h.bytes_eq i hi)

theorem Mirrored.keep (h : Mirrored w p) (hkept : LogKept (w, p) (w', p')) (hsame : p'.metaStore = p.metaStore) :
    Mirrored w' p' := by
  refine ⟨by rw [hsame]; exact h.wf, by rw [hsame]; exact h.primaryDisk_eq, by rw [hsame]; exact h.second,
    by rw [hsame]; exact h.member, ?_⟩
  rw [hsame]
  exact fun hb => (h.copies hb).keep hkept

/-- **Step lemma.** A commit writes both copies, or fences the one it could not write. The group keeps its backup unless
    that disk failed. -/
theorem Mirrored.apply {op : MetaOp} {res : Res MetaStoreError Unit} (h : Mirrored w p)
    (happly : p.metaStore.apply env w op = (res, w', s')) (hres : res ≠ .panic)
    (hup : ∀ e, p.metaStore.commitReport env w op ≠ .error (.primaryUnavailable e)) :
    Mirrored w' { p with metaStore := s' } ∧
      ((∀ e, p.metaStore.commitReport env w op ≠ .error (.backupUnavailable e)) →
        s'.replicator.backupDisk = p.metaStore.replicator.backupDisk) := by
  have hwf := h.wf.apply happly
  have hout := MetaStore.apply_outcome h.wf.2 happly
  generalize p.metaStore.commitReport env w op = report at hout hup
  cases hout with
  | logged hc =>
      cases hc with
      | durable hp hb ho =>
          refine ⟨⟨hwf, ?_, ?_, ?_, ?_⟩, fun _ => by simp⟩
          · simpa using h.primaryDisk_eq
          · simpa using h.second
          · simpa [MetaStore.group] using h.member
          · intro hback
            have hback' : p.metaStore.replicator.backupDisk.isSome := by simpa using hback
            obtain ⟨b, hb'⟩ := Option.isSome_iff_exists.mp hback'
            obtain rfl := h.second b hb'
            rw [h.primaryDisk_eq] at hp
            exact (h.copies hback').writeAt hp (hb 1 hb')
  | degraded hc hepoch =>
      refine ⟨⟨hwf, ?_, ?_, ?_, ?_⟩, fun hback => absurd rfl (hback _)⟩
      · simpa using h.primaryDisk_eq
      · simp
      · simp [MetaStore.group]
      · simp
  | epochOverflow hc => exact absurd rfl hres
  | refused hc => exact absurd rfl (hup _)

/-- Every reopen of the run that names a backup finds the commits before it on both disks: no backup was fenced, and none
    left out by a reopen of the first disk alone that then committed. -/
def ReopenedWhole (events : List Event) : Prop := BeforeReopens (fun m before => 2 ≤ m → Doubled before) events

theorem copies_created (w₀ : World) {n : Nat} (hn : 2 ≤ n) : Copies (createDisks w₀ n) := by
  have hdisk : ∀ r, r < n → (createDisks w₀ n).disk r = .create diskFileCapacityBytes := fun r hr => if_pos hr
  have hcap : Wal.walCapacityBytes ≤ diskFileCapacityBytes := by decide
  refine ⟨?_, ?_, ?_⟩
  · rw [hdisk 0 (by omega)]
    exact hcap
  · rw [hdisk 1 (by omega)]
    exact hcap
  · intro i _
    rw [hdisk 0 (by omega), hdisk 1 (by omega)]

/-- An open or a format of two disks or more names the second as the backup. -/
theorem two_le_of_backupOf {n : Nat} (h : (backupOf n).isSome) : 2 ≤ n := by
  unfold backupOf at h
  split at h
  · assumption
  · cases h

/-- The store that an open or a format starts with, if the second disk carries the primary's log where it is named. -/
theorem mirrored_open {n : Nat} {poolMap : PoolMap} {disks : Std.ExtTreeMap DiskId DiskHandle}
    (hopen : MetaStore.openStore w (groupOf n) 0 (backupOf n) = .ok s') (hcopies : 2 ≤ n → Copies w) :
    Mirrored w ⟨poolMap, disks, s'⟩ := by
  have hs := (MetaStore.openStore_eq_ok hopen).2
  refine ⟨metaWf_open hopen, ?_, ?_, ?_, ?_⟩
  · show s'.replicator.primaryDisk = 0
    rw [hs]
  · show ∀ b, s'.replicator.backupDisk = some b → b = 1
    rw [hs]
    intro b hb
    unfold backupOf at hb
    split at hb
    · exact (Option.some.inj hb).symm
    · cases hb
  · show s'.replicator.group.backup.isSome → s'.replicator.backupDisk.isSome
    rw [hs]
    intro hgroup
    unfold groupOf at hgroup
    unfold backupOf
    split at hgroup
    · rename_i hn
      rw [if_pos hn]
      rfl
    · cases hgroup
  · show s'.replicator.backupDisk.isSome → _
    rw [hs]
    exact fun hback => hcopies (two_le_of_backupOf hback)

/-- **Run lemma.** The copy is kept along every run without a primary failure whose reopens find the group whole; and the
    second disk carries the primary's log, group or no group, until a commit goes to the primary alone. -/
theorem RunWith.mirrored {opens : Nat → Prop} {n : Nat} {events : List Event} (hrun : RunWith opens n w p events)
    (hup : PrimaryUp events) (hwhole : ReopenedWhole events) : Mirrored w p ∧ (Doubled events → Copies w) := by
  induction hrun with
  | @format w₀ w p classes now env h =>
      obtain ⟨hn, -, s, happly, rfl, hcall⟩ := format_eq_ok h
      have hmem := List.mem_flatMap.mpr ⟨_, List.mem_singleton.mpr rfl, hcall⟩
      have hfresh : Mirrored (createDisks w₀ n) ⟨poolMapOf classes, handlesOf n (fun _ => 0), freshStore n⟩ :=
        mirrored_open (openStore_createDisks w₀ hn) (copies_created w₀)
      obtain ⟨hm, hkeep⟩ := hfresh.apply happly (by simp) (hup _ hmem)
      refine ⟨hm, fun hdoubled => hm.copies ?_⟩
      obtain ⟨hsome, hback⟩ := hdoubled _ hmem
      show s.replicator.backupDisk.isSome
      rw [hkeep hback]
      exact hsome
  | @call w p events res w' p' env op hrun h hres ih =>
      obtain ⟨hup₀, hup₁⟩ := forall_metaCalls_snoc hup
      obtain ⟨hm, hcopies⟩ := ih hup₀ (BeforeReopens.snoc hwhole)
      refine step_rule
        (I := fun v q => Mirrored v q ∧ (Doubled (events ++ [.call env w p op res]) → Copies v)) ?_ ?_ ?_ ?_ h hres
      · exact ⟨hm, fun hd => hcopies (forall_metaCalls_snoc hd).1⟩
      · intro x hop
        have hkept := logKept_dataPhase hop (w, p)
        exact ⟨hm.keep hkept (sameStore_dataPhase hop _), fun hd => (hcopies (forall_metaCalls_snoc hd).1).keep hkept⟩
      · intro id s halloc
        obtain ⟨next, -, hs⟩ := Res.bind_eq_ok.mp halloc
        obtain ⟨-, rfl⟩ := Prod.mk.inj (Res.ok.inj hs)
        exact ⟨⟨hm.wf, hm.primaryDisk_eq, hm.second, hm.member, hm.copies⟩,
          fun hd => hcopies (forall_metaCalls_snoc hd).1⟩
      · rintro mop w₁ p₁ q w₂ s₂ hhands ⟨hm₁, -⟩ happly hq
        obtain ⟨hm₂, hkeep⟩ := hm₁.apply happly hq (hup₁ _ hhands.mem_metaCalls)
        refine ⟨hm₂, fun hd => hm₂.copies ?_⟩
        obtain ⟨hsome, hback⟩ := (forall_metaCalls_snoc hd).2 _ hhands.mem_metaCalls
        show s₂.replicator.backupDisk.isSome
        rw [hkeep hback]
        exact hsome
  | @reopen m w p events classes p' hrun h hm ih =>
      obtain ⟨hup₀, -⟩ := forall_metaCalls_snoc hup
      obtain ⟨-, hcopies⟩ := ih hup₀ (BeforeReopens.snoc hwhole)
      obtain ⟨-, -, s, hopen, rfl⟩ := openWithClasses_eq_ok h
      -- a reopen that takes the second disk back finds a copy on it
      exact ⟨mirrored_open hopen (fun hm => hcopies (BeforeReopens.last hwhole hm)),
        fun hd => hcopies (forall_metaCalls_snoc hd).1⟩

/-- **The backup carries the primary's log**, in every state of every run in which the group names a backup, whatever
    else fails and however many disks the reopens take, as long as every reopen that names a backup finds each commit
    before it on both disks. Either disk alone then reconstructs the metadata: the two logs are one list of entries, and
    while the log stays within its region, what that list replays to are the live tables. -/
theorem backup_mirrors_primary {n : Nat} {events : List Event} (hrun : AnyRun n w p events) (hup : PrimaryUp events)
    (hwhole : ReopenedWhole events) (hback : p.metaStore.group.backup.isSome) :
    ∃ b, p.metaStore.replicator.backupDisk = some b ∧ b ≠ p.metaStore.replicator.primaryDisk ∧
      Wal.scan (w.disk b) 0 = Wal.scan (w.disk p.metaStore.replicator.primaryDisk) 0 ∧
      (LogFits events → ∀ v, View.empty.replay (Wal.scan (w.disk b) 0).entries = .ok v →
        v.SameTables p.metaStore.view) := by
  obtain ⟨hm, -⟩ := hrun.mirrored hup hwhole
  obtain ⟨b, hb⟩ := Option.isSome_iff_exists.mp (hm.member hback)
  obtain rfl := hm.second b hb
  have hscan := (hm.copies (hm.member hback)).scan_eq
  rw [hm.primaryDisk_eq]
  refine ⟨1, hb, by decide, hscan, ?_⟩
  intro hfits v hv
  obtain ⟨ps, hcarries, hreplay⟩ := (hrun.traced hfits hup).carries
  rw [hscan, hcarries.scan_eq] at hv
  exact hreplay v hv

/-! ## A backup taken back -/

/-- A pool of two disks that was just formatted. -/
def onTwoDisks : World × Pool :=
  let out := formatWithClasses (Env.healthy MetaStore.listOrder) (World.blank 0) 2 [.hdd, .hdd] 0
  (out.2.1, out.2.2.getD ⟨poolMapOf [], ∅, freshStore 2⟩)

theorem run_onTwoDisks :
    Run 2 onTwoDisks.1 onTwoDisks.2 [.format (Env.healthy MetaStore.listOrder) (World.blank 0) 2 0] := by
  have h : formatWithClasses (Env.healthy MetaStore.listOrder) (World.blank 0) 2 [.hdd, .hdd] 0 =
      (.ok (), onTwoDisks.1, some onTwoDisks.2) := rfl
  exact .format _ h

/-- Disks of which the second fails its next write: formatting took four calls, and the primary takes two. -/
def backupFails : Env := ⟨fun k => if k = 6 then .fail [] else .ok, MetaStore.listOrder⟩

/-- A file is created. -/
def creation (name : String) : PoolOp :=
  .createFile rootInode name (.replicated [.anyOfClass none, .anyOfClass none]) 0 0 0o100644 0

/-- A file is created after the backup was lost. -/
def degradedSession : List Event × World × Pool := play backupFails [creation "a"] onTwoDisks

/-- Its events, from the format on, with the reopen that ends it. -/
def degradedEvents : List Event :=
  [.format (Env.healthy MetaStore.listOrder) (World.blank 0) 2 0] ++ degradedSession.1 ++ [.reopen 2]

/-- The number of entries on the primary and on the backup, if a reopened pool's group names one. -/
def logLengths (w : World) : Res PoolError Pool → Option (Nat × Nat)
  | .ok p =>
      match p.metaStore.group.backup, p.metaStore.replicator.backupDisk with
      | some _, some b =>
          some ((Wal.scan (w.disk p.metaStore.replicator.primaryDisk) 0).entries.length,
            (Wal.scan (w.disk b) 0).entries.length)
      | _, _ => none
  | _ => none

theorem logLengths_eq_some {r : Res PoolError Pool} {k l : Nat} (h : logLengths w r = some (k, l)) :
    ∃ p b, r = .ok p ∧ p.metaStore.group.backup.isSome ∧ p.metaStore.replicator.backupDisk = some b ∧
      (Wal.scan (w.disk p.metaStore.replicator.primaryDisk) 0).entries.length = k ∧
      (Wal.scan (w.disk b) 0).entries.length = l := by
  unfold logLengths at h
  split at h
  · rename_i p
    split at h
    · rename_i g b hgroup hback
      obtain ⟨hk, hl⟩ := Prod.mk.inj (Option.some.inj h)
      exact ⟨p, b, rfl, by rw [hgroup]; rfl, hback, hk, hl⟩
    · cases h
  · cases h

/-- Whether the report of a call blames the primary. -/
def MetaCall.losesPrimary (c : MetaCall) : Bool :=
  match c.report with
  | .error (.primaryUnavailable _) => true
  | _                              => false

theorem primaryUp_of_all {events : List Event} (h : (allMetaCalls events).all (fun c => !c.losesPrimary) = true) :
    PrimaryUp events := by
  intro c hc e he
  have hno := List.all_eq_true.mp h c hc
  rw [MetaCall.losesPrimary, he] at hno
  cases hno

/-- The backup fails one write while a file is created; the pool fences it and goes on, and the next open names it as
    the backup again, without the file on it. -/
theorem open_takes_back_stale_backup : ∃ w p b, Run 2 w p degradedEvents ∧ PrimaryUp degradedEvents ∧
    p.metaStore.group.backup.isSome ∧ p.metaStore.replicator.backupDisk = some b ∧
    (Wal.scan (w.disk b) 0).entries ≠ (Wal.scan (w.disk p.metaStore.replicator.primaryDisk) 0).entries := by
  have hplay : play backupFails [creation "a"] onTwoDisks = degradedSession := rfl
  have hrun := run_onTwoDisks.play hplay (by decide +kernel)
  have hlens : logLengths degradedSession.2.1 (openWithClasses degradedSession.2.1 2 [.hdd, .hdd]) = some (3, 1) := by
    decide +kernel
  obtain ⟨p, b, hopen, hgroup, hback, hk, hl⟩ := logLengths_eq_some hlens
  refine ⟨_, p, b, hrun.reopen hopen rfl, primaryUp_of_all (by decide +kernel), hgroup, hback, ?_⟩
  intro hsame
  rw [hsame, hk] at hl
  cases hl

/-! ## A backup left out and taken back -/

/-- A file is created on two disks and appended to. -/
def pairSession : List Event × World × Pool :=
  play (Env.healthy MetaStore.listOrder) [creation "a", .append 2 [1, 2, 3]] onTwoDisks

/-- The first disk is then opened alone, -/
def aloneAgain : Pool := (openWithClasses pairSession.2.1 1 [.hdd]).getD onTwoDisks.2

/-- and after it both, -/
def pairAgain : Pool := (openWithClasses pairSession.2.1 2 [.hdd, .hdd]).getD onTwoDisks.2

/-- for one more file. -/
def pairResumed : List Event × World × Pool :=
  play (Env.healthy MetaStore.listOrder) [creation "b"] (pairSession.2.1, pairAgain)

/-- The events of all this. -/
def pairEvents : List Event :=
  [.format (Env.healthy MetaStore.listOrder) (World.blank 0) 2 0] ++ pairSession.1 ++ [.reopen 1] ++ [.reopen 2] ++
    pairResumed.1

theorem run_pair : AnyRun 2 pairResumed.2.1 pairResumed.2.2 pairEvents := by
  have hplay : play (Env.healthy MetaStore.listOrder) [creation "a", .append 2 [1, 2, 3]] onTwoDisks = pairSession := rfl
  have hresume : play (Env.healthy MetaStore.listOrder) [creation "b"] (pairSession.2.1, pairAgain) = pairResumed := rfl
  have halone : openWithClasses pairSession.2.1 1 [.hdd] = .ok aloneAgain :=
    Res.eq_ok_getD onTwoDisks.2 (by decide +kernel)
  have hpair : openWithClasses pairSession.2.1 2 [.hdd, .hdd] = .ok pairAgain :=
    Res.eq_ok_getD onTwoDisks.2 (by decide +kernel)
  have hrun := (run_onTwoDisks.any.play hplay (by decide +kernel)).reopen halone trivial
  exact hrun.resume hpair trivial hresume (by decide +kernel)

/-- Whether a commit reached two disks. -/
def MetaCall.reachesBoth (c : MetaCall) : Bool :=
  c.store.replicator.backupDisk.isSome &&
    match c.report with
    | .error (.backupUnavailable _) => false
    | _                             => true

theorem doubled_of_all {events : List Event} (h : (allMetaCalls events).all MetaCall.reachesBoth = true) :
    Doubled events := by
  intro c hc
  have hboth := List.all_eq_true.mp h c hc
  rw [MetaCall.reachesBoth, Bool.and_eq_true] at hboth
  refine ⟨hboth.1, fun e he => ?_⟩
  rw [he] at hboth
  cases hboth.2

theorem reopenedWhole_pair : ReopenedWhole pairEvents := by
  have hsession : ∀ e ∈ [Event.format (Env.healthy MetaStore.listOrder) (World.blank 0) 2 0] ++ pairSession.1,
      e.InSession := play_inSession MetaStore.listOrder (World.blank 0) 2 0 _ onTwoDisks
  have halone : ReopenedWhole (_ ++ [.reopen 1]) :=
    (beforeReopens_of_inSession hsession).reopen (fun h => absurd h (by decide))
  have hpair : ReopenedWhole (_ ++ [.reopen 2]) := halone.reopen (fun _ => doubled_of_all (by decide +kernel))
  exact hpair.call

/-- The theorem at that run. -/
theorem backup_mirrors_primary_twoDisks : AnyRun 2 pairResumed.2.1 pairResumed.2.2 pairEvents ∧
    pairResumed.2.2.metaStore.group.backup.isSome ∧
    ∃ b, pairResumed.2.2.metaStore.replicator.backupDisk = some b ∧
      Wal.scan (pairResumed.2.1.disk b) 0 =
        Wal.scan (pairResumed.2.1.disk pairResumed.2.2.metaStore.replicator.primaryDisk) 0 ∧
      (Wal.scan (pairResumed.2.1.disk b) 0).entries.length = 6 := by
  have hlens : logLengths pairResumed.2.1 (.ok pairResumed.2.2) = some (6, 6) := by decide +kernel
  obtain ⟨p, b, hp, hgroup, hback, -, hl⟩ := logLengths_eq_some hlens
  obtain rfl := Res.ok.inj hp
  obtain ⟨b', hback', -, hscan, -⟩ :=
    backup_mirrors_primary run_pair (primaryUp_of_all (by decide +kernel)) reopenedWhole_pair hgroup
  obtain rfl := Option.some.inj (hback.symm.trans hback')
  exact ⟨run_pair, hgroup, b, hback, hscan, hl⟩

end Tartine.Pool
