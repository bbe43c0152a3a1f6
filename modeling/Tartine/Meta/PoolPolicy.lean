import Tartine.Core.PlacementOrder
import Tartine.Meta.PoolTable

/-!
# `Meta.PoolPolicy` — what a placed policy promises

`place` turns a policy into one disk per slot. Read back through the pool map, the disks are different ones and each
meets its own slot's constraint. What is written there can be read again: `Readable` says so of a record, and it holds of
every record of every run in which no file is given a policy without slots, also across reopens.

* `place_meets` — the disks a policy was placed on;
* `RunWith.membered` — and each has its handle in the pool;
* `Run.readable` — every record of the table can be read;
* `settles_readFullContent`, `read_of_readable` — and then every read of it succeeds.
-/

namespace Tartine

open Basis Kcore Placement

/-! ## Slots and disks -/

/-- A disk of the pool that a slot can be served with. -/
def ReplicaSlot.MetBy (pm : PoolMap) (slot : ReplicaSlot) (id : DiskId) : Prop :=
  ∃ entry, pm.disks[id]? = some entry ∧ entry.state = .active ∧ entry.roles.data = true ∧
    match slot with
    | .anyOfClass none     => True
    | .anyOfClass (some c) => entry.cls = c
    | .pinned pin          => id = pin

theorem DiskClass.toFfi_inj {c c' : DiskClass} (h : c.toFfi = c'.toFfi) : c = c' := by
  cases c <;> cases c' <;> first | rfl | cases h

theorem DiskClass.toFfi_ne_any (c : DiskClass) : c.toFfi ≠ classAny := by
  cases c <;> decide

/-- The size of a file covers what its locator describes. -/
def InodeRecord.Covered (rec : InodeRecord) : Prop :=
  match rec.data with
  | .chunkLog chunks => (chunks.map (fun c => c.len.toNat)).sum = rec.size.toNat
  | .extents xs      => ∀ x ∈ xs, x.stop ≤ rec.size.toNat

namespace Pool

section Placed

variable {ord : IterOrder} {pm : PoolMap} {c c' : DiskCandidate}

/-- A candidate is an entry of the pool map with the data role. -/
theorem mem_candidatesOf (h : c ∈ candidatesOf ord pm (fun e => e.roles.data)) :
    ∃ entry, c = toCandidate (candidateDisk c) entry ∧ pm.disks[candidateDisk c]? = some entry ∧
      entry.roles.data = true := by
  obtain ⟨⟨id, entry⟩, hmem, rfl⟩ := List.mem_map.mp h
  obtain ⟨hiter, hrole⟩ := List.mem_filter.mp hmem
  rw [candidateDisk_toCandidate]
  refine ⟨entry, rfl, ?_, hrole⟩
  exact Std.ExtTreeMap.mem_toList_iff_getElem?_eq_some.mp ((ord.perm _).mem_iff.mp hiter)

/-- Its disk tells a candidate from the others. -/
theorem candidateDisk_inj (h : c ∈ candidatesOf ord pm (fun e => e.roles.data))
    (h' : c' ∈ candidatesOf ord pm (fun e => e.roles.data)) (hdisk : candidateDisk c = candidateDisk c') : c = c' := by
  obtain ⟨entry, hc, hentry, -⟩ := mem_candidatesOf h
  obtain ⟨entry', hc', hentry', -⟩ := mem_candidatesOf h'
  rw [hdisk, hentry'] at hentry
  rw [hc, hc', hdisk, Option.some.inj hentry]

/-- What the kernel core accepts for a slot, in the words of the policy. -/
theorem metBy_of_accepts {slot : ReplicaSlot} (hmem : c ∈ candidatesOf ord pm (fun e => e.roles.data))
    (hactive : c.active ≠ 0) (hacc : (slotToSpec slot).Accepts c) : slot.MetBy pm (candidateDisk c) := by
  obtain ⟨entry, hc, hentry, hrole⟩ := mem_candidatesOf hmem
  have hstate : entry.state = .active := by
    by_contra hne
    rw [hc] at hactive
    simp [toCandidate, hne] at hactive
  have hcls : c.cls = entry.cls.toFfi := by rw [hc]; rfl
  refine ⟨entry, hentry, hstate, hrole, ?_⟩
  unfold ReplicaSlotSpec.Accepts at hacc
  cases slot with
  | pinned pin =>
      rw [if_pos (by simp [slotToSpec])] at hacc
      have hid : c.id = diskIdToHiLo pin := hacc
      show candidateDisk c = pin
      unfold candidateDisk
      rw [← diskIdFromHiLo_diskIdToHiLo pin, ← hid]
      rfl
  | anyOfClass cls =>
      cases cls with
      | none => trivial
      | some k =>
          rw [if_neg (by simp [slotToSpec])] at hacc
          rcases hacc with hany | hclass
          · exact absurd hany (DiskClass.toFfi_ne_any k)
          · exact DiskClass.toFfi_inj (hcls.symm.trans hclass)

/-- A disk that meets a slot is a candidate the slot accepts. -/
theorem accepts_of_metBy (ord : IterOrder) {slot : ReplicaSlot} {id : DiskId} (h : slot.MetBy pm id) :
    ∃ c ∈ candidatesOf ord pm (fun e => e.roles.data), c.active ≠ 0 ∧ (slotToSpec slot).Accepts c ∧ candidateDisk c = id := by
  obtain ⟨entry, hentry, hstate, hrole, hslot⟩ := h
  refine ⟨toCandidate id entry, ?_, ?_, ?_, candidateDisk_toCandidate id entry⟩
  · refine List.mem_map.mpr ⟨(id, entry), List.mem_filter.mpr ⟨?_, hrole⟩, rfl⟩
    exact (ord.perm _).mem_iff.mpr (Std.ExtTreeMap.mem_toList_iff_getElem?_eq_some.mpr hentry)
  · simp [toCandidate, hstate]
  · unfold ReplicaSlotSpec.Accepts
    cases slot with
    | pinned pin =>
        obtain rfl : id = pin := hslot
        rw [if_pos (by simp [slotToSpec])]
        rfl
    | anyOfClass cls =>
        rw [if_neg (by cases cls <;> simp [slotToSpec])]
        cases cls with
        | none => exact Or.inl rfl
        | some k =>
            obtain rfl : entry.cls = k := hslot
            exact Or.inr rfl

/-- The score of a disk for a key, and what breaks its ties. -/
def diskRank (pm : PoolMap) (key : UInt64) (id : DiskId) : ℕ ×ₗ ℕ ×ₗ ℕ ×ₗ ℕ :=
  match pm.disks[id]? with
  | some entry => rankKey key (toCandidate id entry)
  | none       => rankKey key ⟨0, 0, 0, 0, 0⟩

/-- **Placing a policy is a greedy run over the disks of the pool map**, slot by slot. -/
theorem placeRedundancy_greedy (ord : IterOrder) (hpool : pm.disks.size < 2 ^ 32 - 1) (slots : List ReplicaSlot) (key : UInt64) :
    ∃ placed, placeRedundancy ord pm (.replicated slots) key (fun e => e.roles.data) = .ok placed ∧
      Greedy (diskRank pm key) {id | (ReplicaSlot.anyOfClass none).MetBy pm id} ∅
        ((slots.take maxSelect).map (fun slot => slot.MetBy pm)) placed := by
  have hwl := wellListed_candidatesOf ord (fun e => e.roles.data) hpool
  have hgreedy := outcomeDisks_greedy hwl key ((slots.map slotToSpec).take maxSelect)
  have hpool' : {id | (ReplicaSlot.anyOfClass none).MetBy pm id} =
      candidateDisk '' activeDisks (candidatesOf ord pm (fun e => e.roles.data)) := by
    ext id
    rw [Set.mem_ofPred_eq]
    constructor
    · intro hmet
      obtain ⟨c, hmem, hactive, -, hdisk⟩ := accepts_of_metBy ord hmet
      exact ⟨c, ⟨hmem, hactive⟩, hdisk⟩
    · rintro ⟨c, ⟨hmem, hactive⟩, rfl⟩
      refine metBy_of_accepts hmem hactive ?_
      unfold ReplicaSlotSpec.Accepts
      rw [if_neg (by simp [slotToSpec])]
      exact Or.inl rfl
  refine ⟨_, placeRedundancy_eq hpool slots, ?_⟩
  rw [hpool', ← Set.image_empty candidateDisk]
  refine hgreedy.map ?_ ?_ (Set.empty_subset _) ?_
  · rintro c ⟨hmem, -⟩ c' ⟨hmem', -⟩ hdisk
    exact candidateDisk_inj hmem hmem' hdisk
  · rintro c ⟨hmem, -⟩
    obtain ⟨entry, hc, hentry, -⟩ := mem_candidatesOf hmem
    unfold diskRank
    rw [hentry]
    exact congrArg (rankKey key) hc.symm
  · rw [← List.map_take, List.map_map, List.forall₂_map_left_iff, List.forall₂_map_right_iff, List.forall₂_same]
    rintro slot - c ⟨hmem, hactive⟩
    refine ⟨fun hmet => ?_, metBy_of_accepts hmem hactive⟩
    obtain ⟨c', hmem', -, hacc, hdisk⟩ := accepts_of_metBy ord hmet
    obtain rfl := candidateDisk_inj hmem' hmem hdisk
    exact hacc
end Placed

variable {env : Env} {w w' w₁ : World} {p p' p₁ : Pool} {op : PoolOp} {mop : MetaOp} {n : Nat} {full : Prop}

/-- **The disks a policy was placed on**: one per slot, each meeting its slot, no two the same. -/
theorem place_meets {ord : IterOrder} {slots : List ReplicaSlot} {key : UInt64} {ids : List DiskId}
    (hpool : p.poolMap.disks.size < 2 ^ 32 - 1) (hfew : slots.length ≤ 16)
    (h : p.place ord (.replicated slots) key = .ok ids) :
    List.Forall₂ (fun slot id => slot.MetBy p.poolMap id) slots ids ∧ ids.Nodup := by
  obtain ⟨placed, hplaced, h⟩ := Res.bind_eq_ok.mp h
  obtain ⟨placed', hplaced', hgreedy⟩ := placeRedundancy_greedy ord hpool slots key
  obtain rfl := Res.ok.inj ((Res.mapErr_eq_ok.mp hplaced).symm.trans hplaced')
  rw [List.take_of_length_le (show slots.length ≤ maxSelect from hfew)] at hgreedy
  split at h
  · cases h
  · rename_i ids' hids
    obtain rfl := Res.ok.inj h
    obtain rfl := eq_map_some_of_collect hids
    -- slot by slot: what the run handed out
    have hserved : ∀ (i : Nat) (id : DiskId), ids'[i]? = some id → (ids'.map some)[i]? = some (some id) := by
      intro i id hi
      rw [List.getElem?_map, hi]
      rfl
    have hlen : slots.length = ids'.length := by simpa using hgreedy.length_eq.symm
    constructor
    · rw [List.forall₂_iff_get]
      refine ⟨hlen, fun i hslot hid => ?_⟩
      obtain ⟨met, hmet, -, hid⟩ := hgreedy.mem_pool (hserved i _ (List.getElem?_eq_getElem hid))
      rw [List.getElem?_map, List.getElem?_eq_getElem hslot] at hmet
      obtain rfl := Option.some.inj hmet
      exact hid
    · rw [List.nodup_iff_injective_get]
      rintro ⟨i, hi⟩ ⟨j, hj⟩ hij
      have hsecond := hserved j _ (List.getElem?_eq_getElem hj)
      rw [← show ids'[i] = ids'[j] from hij] at hsecond
      exact Fin.ext (hgreedy.getElem?_inj (hserved i _ (List.getElem?_eq_getElem hi)) hsecond)

/-! ## Members -/

/-- Every disk of the pool map has its handle. -/
def Membered (p : Pool) : Prop := ∀ id : DiskId, (p.poolMap.disks[id]?).isSome → (p.disks[id]?).isSome

/-- The disks a policy was placed on are in the pool map. -/
theorem mem_poolMap_of_place {ord : IterOrder} {scheme : RedundancyScheme} {key : UInt64} {ids : List DiskId}
    (h : p.place ord scheme key = .ok ids) : ∀ id ∈ ids, (p.poolMap.disks[id]?).isSome := by
  intro id hid
  obtain ⟨placed, hplaced, hids⟩ := Res.bind_eq_ok.mp h
  have hplaced := Res.mapErr_eq_ok.mp hplaced
  split at hids
  · cases hids
  rename_i hmap
  obtain rfl := Res.ok.inj hids
  have hsome : some id ∈ placed := by
    rw [eq_map_some_of_collect hmap]
    exact List.mem_map_of_mem hid
  cases scheme with
  | erasureCoded ds ps => cases hplaced
  | replicated slots =>
      obtain ⟨idx, -, hdisk⟩ := (Res.mem_of_mapM hplaced).mp hsome
      unfold diskOf at hdisk
      split at hdisk
      · cases hdisk
      · split at hdisk
        · cases hdisk
        · rename_i hget
          obtain rfl := Option.some.inj (Res.ok.inj hdisk)
          obtain ⟨e, he, rfl⟩ := List.mem_map.mp (List.mem_of_getElem? hget)
          obtain ⟨hiter, -⟩ := List.mem_filter.mp he
          have hentry := Std.ExtTreeMap.mem_toList_iff_getElem?_eq_some.mp ((ord.perm _).mem_iff.mp hiter)
          rw [hentry]
          rfl

theorem isSome_poolMapOf {classes : List DiskClass} {id : DiskId} (h : ((poolMapOf classes).disks[id]?).isSome) :
    ∃ i < classes.length, id = diskId i := by
  have hfold : ∀ (l : List (DiskClass × Nat)) (m : Std.ExtTreeMap DiskId DiskEntry),
      ((l.foldl (fun m e => m.insert (diskId e.2) (diskEntry e.2 e.1)) m)[id]?).isSome →
      (∃ e ∈ l, id = diskId e.2) ∨ (m[id]?).isSome := by
    intro l
    induction l with
    | nil => exact fun m hm => Or.inr hm
    | cons e l ih =>
        intro m hm
        rcases ih _ hm with ⟨e', he', heq⟩ | hm
        · exact Or.inl ⟨e', List.mem_cons_of_mem _ he', heq⟩
        · rw [Std.ExtTreeMap.getElem?_insert] at hm
          simp only [Std.LawfulEqCmp.compare_eq_iff_eq] at hm
          split at hm
          · rename_i hsame
            exact Or.inl ⟨e, List.mem_cons_self, hsame.symm⟩
          · exact Or.inr hm
  rcases hfold _ _ h with ⟨⟨cls, i⟩, he, rfl⟩ | hnone
  · exact ⟨i, (List.mem_zipIdx' he).1, rfl⟩
  · simp at hnone

theorem isSome_handlesOf {cursor : Nat → Nat} {i : Nat} (hi : i < n) : ((handlesOf n cursor)[diskId i]?).isSome := by
  unfold handlesOf
  induction n with
  | zero => exact absurd hi (Nat.not_lt_zero i)
  | succ n ih =>
      rw [List.range_succ, List.foldl_append, List.foldl_cons, List.foldl_nil, Std.ExtTreeMap.getElem?_insert]
      simp only [Std.LawfulEqCmp.compare_eq_iff_eq]
      split
      · rfl
      · rename_i hne
        refine ih ?_
        have hni : i ≠ n := fun heq => hne (by rw [heq])
        omega

theorem membered_fresh {classes : List DiskClass} (hlen : classes.length = n) (cursor : Nat → Nat) (s : MetaStore) :
    Membered ⟨poolMapOf classes, handlesOf n cursor, s⟩ := by
  intro id hid
  obtain ⟨i, hi, rfl⟩ := isSome_poolMapOf hid
  exact isSome_handlesOf (hlen ▸ hi)

/-- A data phase moves cursors only. -/
theorem Membered.phase {x : PoolM MetaOp} (h : Membered p) (hop : dataPhase env op = some x) : Membered (x (w, p)).2.2 := by
  refine keeps_dataPhase (R := fun a b => Membered a.2 → Membered b.2) (fun _ h => h)
    (fun _ _ _ h h' hm => h' (h hm)) ?_ hop (w, p) h
  rintro headerLen buf writeOne id hw ⟨w, p⟩ hm
  generalize hout : writeReplica writeOne id (w, p) = out
  obtain ⟨r, w', p'⟩ := out
  rcases writeReplica_cases hw hout with ⟨-, -, rfl⟩ | ⟨handle, left, -, -, -, ⟨rfl, -⟩ | ⟨-, rfl, -, -⟩⟩
  · exact hm
  · exact hm
  · intro id' hid'
    show ((p.moveCursor id handle _).disks[id']?).isSome
    rw [moveCursor_disks]
    split
    · rfl
    · exact hm id' hid'

/-- **Run lemma.** -/
theorem RunWith.membered {opens : Nat → Prop} {events : List Event} (hrun : RunWith opens n w p events) :
    Membered p := by
  induction hrun with
  | format env h =>
      obtain ⟨-, hlen, s, -, rfl, -⟩ := format_eq_ok h
      exact membered_fresh hlen _ s
  | call env op hrun h hres ih =>
      refine step_rule (I := fun _ q => Membered q) ih (fun _ hop => ih.phase hop) ?_ ?_ h hres
      · exact fun _ _ _ => ih
      · exact fun _ _ _ _ _ _ _ hm _ _ => hm
  | reopen hrun h hm ih =>
      obtain ⟨-, hlen, s, -, rfl⟩ := openWithClasses_eq_ok h
      exact membered_fresh hlen _ s

/-! ## Records that can be read -/

/-- What the reader needs of a chunk's or an extent's replicas: each on a disk of the pool, with `len` bytes of the disk past
    its header; and at least one of them, if `full`. -/
def Reads (full : Prop) (n : Nat) (w : World) (headerLen len : Nat) (replicas : List (DiskId × UInt64)) : Prop :=
  (full → replicas ≠ []) ∧ ∀ r ∈ replicas, ∃ h : DiskHandle, (handlesOf n (fun _ => 0))[r.1]? = some h ∧
    segmentBaseOffset + r.2.toNat + headerLen < 2 ^ 64 ∧
    ((w.disk h.disk).readAt (segmentBaseOffset + r.2.toNat + headerLen) len).isSome

theorem Reads.mono {headerLen len : Nat} {replicas : List (DiskId × UInt64)} (h : Reads full n w headerLen len replicas)
    (hlonger : Longer w w') : Reads full n w' headerLen len replicas := by
  refine ⟨h.1, fun r hr => ?_⟩
  obtain ⟨handle, hid, haddr, hread⟩ := h.2 r hr
  exact ⟨handle, hid, haddr, FileDisk.isSome_readAt_mono hread (hlonger _)⟩

/-- A record that can be read, and will still be after its next write. Without `full`, there may be chunks that were never
    stored anywhere, and reading them is an error. -/
structure Readable (full : Prop) (n : Nat) (w : World) (rec : InodeRecord) : Prop where
  replicas : rec.data.AllReplicas (Reads full n w)
  covered : rec.Covered
  slotted : full → rec.redundancy ≠ .replicated []

theorem Readable.mono {rec : InodeRecord} (h : Readable full n w rec) (hlonger : Longer w w') : Readable full n w' rec :=
  ⟨h.replicas.mono (fun _ _ _ hr => hr.mono hlonger), h.covered, h.slotted⟩

/-- Whatever a covered file reads as, it is as long as its size says. -/
theorem length_readFullContent {rec : InodeRecord} {content : Bytes} (h : rec.Covered)
    (hread : p.readFullContent w rec = .ok content) : content.length = rec.size.toNat := by
  unfold InodeRecord.Covered at h
  unfold readFullContent at hread
  cases hdata : rec.data with
  | chunkLog chunks =>
      simp only [hdata] at h hread
      rw [length_readChunks hread, List.length_nil, Nat.zero_add, h]
  | extents xs =>
      simp only [hdata] at hread
      rw [length_copyExtents hread, List.length_replicate]

/-! ## What is written can be read -/

theorem reads_of_stored {headerLen : Nat} {bytes : Bytes} {replicas : List (DiskId × UInt64)} (hd : DisksOf n p)
    (hne : full → replicas ≠ []) (hstored : ∀ r ∈ replicas, Stored (w, p) headerLen bytes r) :
    Reads full n w headerLen (UInt32.ofNat bytes.length).toNat replicas := by
  have hle : (UInt32.ofNat bytes.length).toNat ≤ bytes.length := by
    rw [UInt32.toNat_ofNat']
    exact Nat.mod_le _ _
  refine ⟨hne, fun r hr => ?_⟩
  obtain ⟨handle, hid, -, haddr, hread⟩ := hstored r hr
  have hsame := hd r.1
  rw [show p.disks[r.1]? = some handle from hid] at hsame
  obtain ⟨h₀, hid₀, hdisk⟩ := Option.map_eq_some_iff.mp hsame.symm
  refine ⟨h₀, hid₀, haddr, ?_⟩
  rw [hdisk, FileDisk.readAt_take hread hle]
  rfl

/-- A policy with a slot was placed on a disk. -/
theorem ne_nil_of_place {ord : IterOrder} {scheme : RedundancyScheme} {key : UInt64} {ids : List DiskId}
    {replicas : List (DiskId × UInt64)} (hscheme : scheme ≠ .replicated []) (hplace : p.place ord scheme key = .ok ids)
    (hids : replicas.map Prod.fst = ids) : replicas ≠ [] := by
  obtain ⟨slots, rfl, hlen⟩ := length_place hplace
  rintro rfl
  subst hids
  rw [List.map_nil, List.length_nil] at hlen
  cases slots with
  | nil => exact hscheme rfl
  | cons slot slots =>
      rw [List.length_cons] at hlen
      omega

theorem Tabled.of_findInode {P : World → InodeRecord → Prop} {inode : InodeId} {rec : InodeRecord} (h : Tabled n P w p)
    (hfind : p.findInode inode = .ok rec) : p.metaStore.view.Has inode rec ∧ P w rec := by
  obtain ⟨hhas, hP, -⟩ := h.records.of_getInode (findInode_eq_ok hfind)
  exact ⟨hhas, hP⟩

/-- The extents of a rewrite can be read, and end where the content did. -/
theorem reads_of_rewrite {inode : InodeId} {plan : World → Pool → Res PoolError (RedundancyScheme × Bytes)}
    {mkOp : List Extent → MetaOp} (h : Tabled n (Readable full n) w p) (hd₁ : DisksOf n p₁)
    (hplan : ∀ redundancy content, plan w p = .ok (redundancy, content) → full → redundancy ≠ .replicated [])
    (hx : prepareExtents env inode plan mkOp (w, p) = (.ok mop, w₁, p₁)) :
    ∃ redundancy content xs, plan w p = .ok (redundancy, content) ∧ mop = mkOp xs ∧
      (DataLocator.extents xs).AllReplicas (Reads full n w₁) ∧ ∀ x ∈ xs, x.stop ≤ content.length := by
  obtain ⟨redundancy, content, hcontent, hend⟩ := prepareExtents_stores h.handles hx
  rcases hend with ⟨-, rfl⟩ | ⟨-, ids, replicas, hplace, hids, hstored, rfl⟩
  · exact ⟨redundancy, content, [], hcontent, rfl, by simp [DataLocator.AllReplicas], by simp⟩
  · have hne := fun hfull => ne_nil_of_place (hplan _ _ hcontent hfull) hplace hids
    refine ⟨redundancy, content, _, hcontent, rfl, ?_, ?_⟩
    · exact List.forall_mem_singleton.mpr (reads_of_stored hd₁ hne hstored)
    · refine List.forall_mem_singleton.mpr ?_
      show 0 + (UInt32.ofNat content.length).toNat ≤ content.length
      rw [Nat.zero_add, UInt32.toNat_ofNat']
      exact Nat.mod_le _ _

/-- A call that gives no file a policy without slots. -/
def Slotted : PoolOp → Prop
  | .createFile _ _ redundancy _ _ _ _ => redundancy ≠ .replicated []
  | .setRedundancy _ scheme            => scheme ≠ .replicated []
  | _                                  => True

/-- What a call's data phase found, for the operations of the log that a data phase leads to. -/
theorem Readable.of_phase {x : PoolM MetaOp} {rec : InodeRecord} (h : Tabled n (Readable full n) w p)
    (h₁ : Tabled n (Readable full n) w₁ p₁) (hop : dataPhase env op = some x) (hx : x (w, p) = (.ok mop, w₁, p₁))
    (hstep : p₁.metaStore.view.RecStep mop rec) : Readable full n w₁ rec := by
  have hstore := metaStore_of_dataPhase hop hx
  cases dataPhase_cases hop with
  | append =>
      obtain ⟨old, chunks, ids, replicas, hfind, -, -, hplace, hids, hstored, rfl⟩ := prepareAppend_stores h.handles hx
      have hne := fun hfull => ne_nil_of_place ((h.of_findInode hfind).2.slotted hfull) hplace hids
      cases hstep with
      | @appendChunk _ _ old₁ chunks₁ size hrec hdata hsize =>
          obtain ⟨-, hold, -⟩ := h₁.records.of_readInode hrec
          refine ⟨?_, ?_, hold.slotted⟩
          · have hreps := hold.replicas
            rw [hdata] at hreps
            exact List.forall_mem_append.mpr ⟨hreps, List.forall_mem_singleton.mpr (reads_of_stored h₁.disks hne hstored)⟩
          · have hcov := hold.covered
            unfold InodeRecord.Covered at hcov ⊢
            simp only [hdata] at hcov
            simp only [List.map_append, List.map_singleton, List.sum_append, List.sum_singleton, hcov, hsize]
  | @completeConvert inode =>
      have hslotted : ∀ redundancy content, p.planCompleteConvert w inode = .ok (redundancy, content) →
          full → redundancy ≠ .replicated [] := by
        intro redundancy content hplan
        obtain ⟨old, hfind, rfl, -⟩ := planCompleteConvert_eq_ok hplan
        exact (h.of_findInode hfind).2.slotted
      obtain ⟨redundancy, content, xs, hcontent, rfl, hreads, hstop⟩ := reads_of_rewrite h h₁.disks hslotted hx
      obtain ⟨old, hfind, rfl, -, hread⟩ := planCompleteConvert_eq_ok hcontent
      obtain ⟨hhas, hold⟩ := h.of_findInode hfind
      cases hstep with
      | @completeConvert _ _ old₁ hrec hmode =>
          rw [hstore, hhas.readInode_eq] at hrec
          obtain rfl := Res.ok.inj hrec
          refine ⟨hreads, ?_, hold.slotted⟩
          intro x hx
          rw [← length_readFullContent hold.covered hread]
          exact hstop x hx
  | @write inode offset data =>
      have hslotted : ∀ redundancy content, p.planWrite w inode offset data = .ok (redundancy, content) →
          full → redundancy ≠ .replicated [] := by
        intro redundancy content hplan
        obtain ⟨old, hfind, rfl, -⟩ := planWrite_eq_ok hplan
        exact (h.of_findInode hfind).2.slotted
      obtain ⟨redundancy, content, xs, -, rfl, hreads, -⟩ := reads_of_rewrite h h₁.disks hslotted hx
      cases hstep with
      | @updateExtents _ _ old₁ ends hrec hmode hends =>
          obtain ⟨-, hold, -⟩ := h₁.records.of_readInode hrec
          refine ⟨hreads, ?_, hold.slotted⟩
          intro x hx
          show x.stop ≤ (ends.foldl max 0).toNat
          rw [size_of_extentEnds hends]
          exact le_foldr_max (List.mem_map_of_mem hx)

/-- **Step lemma.** The record a call leaves behind can be read. -/
theorem Hands.readable {rec : InodeRecord} (hh : Hands env w p op mop w₁ p₁) (hslot : full → Slotted op)
    (h : Tabled n (Readable full n) w p) (h₁ : Tabled n (Readable full n) w₁ p₁) (hstep : p₁.metaStore.view.RecStep mop rec) :
    Readable full n w₁ rec := by
  cases hh with
  | phase hop hx => exact .of_phase h h₁ hop hx hstep
  | beginConvert =>
      cases hstep with
      | beginConvert hrec hmode =>
          obtain ⟨-, hold, -⟩ := h₁.records.of_readInode hrec
          exact ⟨hold.replicas, hold.covered, hold.slotted⟩
  | setRedundancy =>
      cases hstep with
      | setRedundancyScheme hrec =>
          obtain ⟨-, hold, -⟩ := h₁.records.of_readInode hrec
          exact ⟨hold.replicas, hold.covered, hslot⟩
  | unlink => cases hstep
  | create halloc =>
      cases hstep with
      | createInode =>
          refine ⟨?_, ?_, hslot⟩
          · simp [newFile, DataLocator.AllReplicas]
          · simp [newFile, InodeRecord.Covered]
  | link halloc hcreate => cases hstep

/-- No call of the run gives a file a policy without slots. -/
def Event.Slotted : Event → Prop
  | .call _ _ _ op _ => Pool.Slotted op
  | _                => True

/-- **Run lemma.** -/
theorem Run.readable {events : List Event} (hrun : Run n w p events) (hfits : LogFits events)
    (hdurable : ReopenedDurable events) (hslot : full → ∀ e ∈ events, e.Slotted) : Tabled n (Readable full n) w p := by
  refine Run.tabled (fun w w' rec hlonger hrec => hrec.mono hlonger) ?_ hrun hfits hdurable ?_
  · intro w now hn
    refine ⟨by simp [rootRecord, DataLocator.AllReplicas], by simp [rootRecord, InodeRecord.Covered], ?_⟩
    intro _ hnil
    have hlen := congrArg List.length (RedundancyScheme.replicated.inj hnil)
    rw [List.length_replicate, List.length_nil] at hlen
    omega
  · rintro m env w p op res mop w₁ p₁ rec rfl he h h₁ hhands hstep
    exact hhands.readable (fun hfull => hslot hfull _ he) h h₁ hstep

/-! ## Reading -/

/-- A read that returned bytes, or that found a chunk without replicas. -/
def Settles {α : Type} (full : Prop) (r : Res PoolError α) : Prop := (∃ a, r = .ok a) ∨ (¬full ∧ r = .err .unplaceable)

theorem Settles.bind {α β : Type} {r : Res PoolError α} {f : α → Res PoolError β} (h : Settles full r)
    (hf : ∀ a, r = .ok a → Settles full (f a)) : Settles full (r >>= f) := by
  rcases h with ⟨a, rfl⟩ | ⟨hnot, rfl⟩
  · exact hf a rfl
  · exact Or.inr ⟨hnot, rfl⟩

theorem settles_readReplicated {headerLen len : Nat} {replicas : List (DiskId × UInt64)} (hd : DisksOf n p)
    (h : Reads full n w headerLen len replicas) : Settles full (p.readReplicated w replicas headerLen len) := by
  obtain ⟨hne, hall⟩ := h
  cases replicas with
  | nil => exact Or.inr ⟨fun hfull => hne hfull rfl, rfl⟩
  | cons r rs =>
      obtain ⟨h₀, hid₀, haddr, hread⟩ := hall r List.mem_cons_self
      have hsame := hd r.1
      rw [hid₀] at hsame
      obtain ⟨handle, hid, hdisk⟩ := Option.map_eq_some_iff.mp hsame
      obtain ⟨bytes, hbytes⟩ := Option.isSome_iff_exists.mp hread
      refine Or.inl ⟨bytes, ?_⟩
      unfold readReplicated
      simp only [hid]
      rw [if_neg (by omega), hdisk, hbytes]

theorem settles_readChunks {chunks : List ChunkPointer} (hd : DisksOf n p)
    (h : (DataLocator.chunkLog chunks).AllReplicas (Reads full n w)) (out : Bytes) :
    Settles full (chunks.foldlM (fun out chunk => do
      let bytes ← p.readReplicated w chunk.replicas Segment.headerLen chunk.len.toNat
      pure (out ++ bytes)) out) := by
  induction chunks generalizing out with
  | nil => exact Or.inl ⟨out, rfl⟩
  | cons c chunks ih =>
      rw [List.foldlM_cons]
      refine ((settles_readReplicated hd (h c List.mem_cons_self)).bind ?_).bind ?_
      · exact fun bytes _ => Or.inl ⟨_, rfl⟩
      · exact fun out' _ => ih (fun c' hc' => h c' (List.mem_cons_of_mem _ hc')) out'

theorem settles_copyExtents {xs : List Extent} {out : Bytes} (hd : DisksOf n p)
    (h : (DataLocator.extents xs).AllReplicas (Reads full n w)) (hstop : ∀ x ∈ xs, x.stop ≤ out.length) :
    Settles full (xs.foldlM (fun out extent => do
      let bytes ← p.readReplicated w extent.replicas 0 extent.len.toNat
      copyInto out extent.fileOffset.toNat bytes) out) := by
  induction xs generalizing out with
  | nil => exact Or.inl ⟨out, rfl⟩
  | cons x xs ih =>
      rw [List.foldlM_cons]
      refine ((settles_readReplicated hd (h x List.mem_cons_self)).bind ?_).bind ?_
      · intro bytes hbytes
        have hfits : x.fileOffset.toNat + bytes.length ≤ out.length := by
          rw [length_readReplicated hbytes]
          exact hstop x List.mem_cons_self
        exact Or.inl ⟨_, by rw [copyInto, if_pos hfits]⟩
      · intro out' hout'
        obtain ⟨bytes, hbytes, hcopy⟩ := Res.bind_eq_ok.mp hout'
        refine ih (fun x' hx' => h x' (List.mem_cons_of_mem _ hx')) (fun x' hx' => ?_)
        rw [length_copyInto hcopy]
        exact hstop x' (List.mem_cons_of_mem _ hx')

/-- **A readable record is read.** -/
theorem settles_readFullContent {rec : InodeRecord} (hd : DisksOf n p) (h : Readable full n w rec) :
    Settles full (p.readFullContent w rec) := by
  have hreps := h.replicas
  have hcov := h.covered
  unfold InodeRecord.Covered at hcov
  unfold readFullContent
  cases hdata : rec.data with
  | chunkLog chunks =>
      rw [hdata] at hreps
      exact settles_readChunks hd hreps []
  | extents xs =>
      simp only [hdata] at hreps hcov
      exact settles_copyExtents hd hreps (fun x hx => by rw [List.length_replicate]; exact hcov x hx)

theorem read_of_readable {inode : InodeId} {rec : InodeRecord} (h : Tabled n (Readable True n) w p)
    (hget : p.getInode inode = .ok (some rec)) (offset len : UInt64) : ∃ bytes, p.read w inode offset len = .ok bytes := by
  have hfind : p.findInode inode = .ok rec := by
    unfold findInode
    rw [hget]
    rfl
  rcases settles_readFullContent h.disks (h.of_findInode hfind).2 with ⟨content, hcontent⟩ | ⟨hnot, -⟩
  · unfold read
    rw [hfind, Res.ok_bind, hcontent, Res.ok_bind]
    exact ⟨_, rfl⟩
  · exact absurd trivial hnot

end Pool

end Tartine
