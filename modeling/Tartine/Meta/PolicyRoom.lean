import Tartine.Meta.WholeFile

/-!
# `Meta.PolicyRoom` — policies that can be placed for every key

`set_redundancy` stores any policy, without a look at the pool map. Whether the policy can then be placed depends on the
key of the chunk: an early slot that may use many disks can take the one disk that a later slot needs. A policy has room
if no slot can be starved in this way, whatever the ranking.

* `place_of_roomy`, `room_of_place` — with room a policy is placed for every key; and a placed policy has room at a slot
  whose disks the earlier slots contest for that key;
* `step_ne_unplaceable` — a call that stores data of a file does not fail for want of a place, if the policy is placed for
  the file's keys and the data there is has replicas;
* `RunWith.holdsPolicy` — which stays so, by induction on the run;
* `placeable_of_roomy` — the two together.
-/

namespace Tartine

open Basis Kcore Placement

/-! ## Rivals -/

/-- The slot can be served with the disk of this entry. -/
def ReplicaSlot.admits (slot : ReplicaSlot) (id : DiskId) (entry : DiskEntry) : Bool :=
  entry.state = .active && entry.roles.data &&
    match slot with
    | .anyOfClass none     => true
    | .anyOfClass (some c) => entry.cls = c
    | .pinned pin          => id = pin

theorem ReplicaSlot.metBy_iff {pm : PoolMap} {slot : ReplicaSlot} {id : DiskId} :
    slot.MetBy pm id ↔ (pm.disks[id]?).any (slot.admits id) = true := by
  rw [Option.any_eq_true]
  unfold ReplicaSlot.MetBy ReplicaSlot.admits
  cases slot with
  | pinned pin => simp [and_assoc]
  | anyOfClass cls => cases cls <;> simp [and_assoc]

instance (pm : PoolMap) (slot : ReplicaSlot) (id : DiskId) : Decidable (slot.MetBy pm id) :=
  decidable_of_iff _ ReplicaSlot.metBy_iff.symm

/-- The disks a slot can be served with. -/
def PoolMap.disksFor (pm : PoolMap) (slot : ReplicaSlot) : List DiskId :=
  (pm.disks.toList.map Prod.fst).filter fun id => slot.MetBy pm id

/-- The slots among `earlier` that can be served with one of the same disks. -/
def PoolMap.rivals (pm : PoolMap) (earlier : List ReplicaSlot) (slot : ReplicaSlot) : Nat :=
  earlier.countP fun s => (pm.disksFor slot).any fun id => s.MetBy pm id

/-- Every slot that is placed has more disks than rivals before it. -/
def PoolMap.Roomy (pm : PoolMap) (slots : List ReplicaSlot) : Prop :=
  ∀ i slot, (slots.take maxSelect)[i]? = some slot → pm.rivals (slots.take i) slot < (pm.disksFor slot).length

instance (pm : PoolMap) (slots : List ReplicaSlot) : Decidable (pm.Roomy slots) :=
  decidable_of_iff (∀ i : Fin (slots.take maxSelect).length,
      pm.rivals (slots.take i) ((slots.take maxSelect).get i) < (pm.disksFor ((slots.take maxSelect).get i)).length)
    ⟨fun h i slot hslot => by
        obtain ⟨hi, rfl⟩ := List.getElem?_eq_some_iff.mp hslot
        exact h ⟨i, hi⟩,
      fun h i => h i _ (List.getElem?_eq_getElem i.isLt)⟩

theorem mem_disksFor {pm : PoolMap} {slot : ReplicaSlot} {id : DiskId} : id ∈ pm.disksFor slot ↔ slot.MetBy pm id := by
  unfold PoolMap.disksFor
  rw [List.mem_filter, decide_eq_true_iff, and_iff_right_iff_imp]
  rintro ⟨entry, hentry, -⟩
  exact List.mem_map.mpr ⟨(id, entry), Std.ExtTreeMap.mem_toList_iff_getElem?_eq_some.mpr hentry, rfl⟩

theorem nodup_disksFor (pm : PoolMap) (slot : ReplicaSlot) : (pm.disksFor slot).Nodup := by
  refine List.Nodup.filter _ ?_
  refine (Std.ExtTreeMap.distinct_keys_toList.imp fun {a b} hne heq => hne ?_).map _ fun _ _ h => h
  rw [heq]
  exact Std.ReflCmp.compare_self

/-- Every slot's disks are among those of a slot without a constraint. -/
theorem ReplicaSlot.MetBy.any {pm : PoolMap} {slot : ReplicaSlot} {id : DiskId} (h : slot.MetBy pm id) :
    (ReplicaSlot.anyOfClass none).MetBy pm id := by
  obtain ⟨entry, hentry, hstate, hrole, -⟩ := h
  exact ⟨entry, hentry, hstate, hrole, trivial⟩

/-- Two slots with a disk in common: one of them can be served with every disk of the other. -/
theorem nested_of_common {pm : PoolMap} {slot slot' : ReplicaSlot} {id : DiskId} (h : slot.MetBy pm id)
    (h' : slot'.MetBy pm id) :
    (∀ id, slot'.MetBy pm id → slot.MetBy pm id) ∨ (∀ id, slot.MetBy pm id → slot'.MetBy pm id) := by
  -- a pinned slot has one disk, the common one
  have hpin : ∀ {pin : DiskId} {other : ReplicaSlot}, (ReplicaSlot.pinned pin).MetBy pm id → other.MetBy pm id →
      ∀ id', (ReplicaSlot.pinned pin).MetBy pm id' → other.MetBy pm id' := by
    rintro pin other ⟨_, -, -, -, hid⟩ hother id' ⟨_, -, -, -, hid'⟩
    obtain rfl : id' = id := Eq.trans hid' (Eq.symm hid)
    exact hother
  cases slot with
  | pinned pin => exact Or.inr (hpin h h')
  | anyOfClass cls =>
      cases slot' with
      | pinned pin' => exact Or.inl (hpin h' h)
      | anyOfClass cls' =>
          cases cls with
          | none => exact Or.inl fun _ hid => hid.any
          | some c =>
              cases cls' with
              | none => exact Or.inr fun _ hid => hid.any
              | some c' =>
                  obtain ⟨entry, hentry, -, -, hc⟩ := h
                  obtain ⟨entry', hentry', -, -, hc'⟩ := h'
                  obtain rfl := Option.some.inj (hentry.symm.trans hentry')
                  obtain rfl : c = c' := Eq.trans (Eq.symm hc) hc'
                  exact Or.inl fun _ hid => hid

section Room

variable {ord : IterOrder} {pm : PoolMap} {slots : List ReplicaSlot} {slot : ReplicaSlot} {i : Nat}

/-- What the slots of a policy ask for. -/
abbrev requests (pm : PoolMap) (slots : List ReplicaSlot) : List (DiskId → Prop) :=
  (slots.take maxSelect).map fun slot => slot.MetBy pm

theorem requests_eq_some (h : (slots.take maxSelect)[i]? = some slot) : (requests pm slots)[i]? = some (slot.MetBy pm) := by
  rw [List.getElem?_map, h]
  rfl

/-- The rivals of a slot, as those of the request it makes. -/
theorem card_rivals (h : (slots.take maxSelect)[i]? = some slot) :
    (Basis.rivals (requests pm slots) (pm.disksFor slot).toFinset i).card = pm.rivals (slots.take i) slot := by
  have hi := (List.getElem?_eq_some_iff.mp h).1
  have htake : (slots.take maxSelect).take i = slots.take i := by
    rw [List.length_take] at hi
    rw [List.take_take, Nat.min_eq_left (by omega)]
  unfold PoolMap.rivals
  rw [← htake]
  refine card_rivals_map (fun s => ?_) hi.le
  simp [List.any_eq_true]

theorem card_disksFor (pm : PoolMap) (slot : ReplicaSlot) : (pm.disksFor slot).toFinset.card = (pm.disksFor slot).length :=
  List.toFinset_card_of_nodup (nodup_disksFor pm slot)

/-- A policy is placed exactly if the run serves each of its slots. -/
theorem place_eq_ok_iff {p : Pool} {key : UInt64} {placed : List (Option DiskId)}
    (h : placeRedundancy ord p.poolMap (.replicated slots) key (fun e => e.roles.data) = .ok placed) :
    (∃ ids, p.place ord (.replicated slots) key = .ok ids) ↔ ∀ o ∈ placed, o ≠ none := by
  have hplaced : (placeRedundancy ord p.poolMap (.replicated slots) key (fun e => e.roles.data)).mapErr
      (fun _ => PoolError.unplaceable) = .ok placed := Res.mapErr_eq_ok.mpr h
  constructor
  · rintro ⟨ids, hids⟩ o ho rfl
    obtain ⟨placed', hplaced', hids⟩ := Res.bind_eq_ok.mp hids
    obtain rfl := Res.ok.inj (hplaced.symm.trans hplaced')
    split at hids
    · cases hids
    · rename_i ids' hcollect
      rw [Pool.eq_map_some_of_collect hcollect] at ho
      simp at ho
  · intro hall
    obtain ⟨ids, hcollect⟩ := Pool.exists_collect hall
    refine ⟨ids, Res.bind_eq_ok.mpr ⟨placed, hplaced, ?_⟩⟩
    rw [hcollect]

/-- **A policy with room is placed, whatever the key.** -/
theorem place_of_roomy {p : Pool} (hpool : p.poolMap.disks.size < 2 ^ 32 - 1) (hroom : p.poolMap.Roomy slots) (ord : IterOrder)
    (key : UInt64) : ∃ ids, p.place ord (.replicated slots) key = .ok ids := by
  obtain ⟨placed, hplaced, hgreedy⟩ := Pool.placeRedundancy_greedy ord hpool slots key
  refine (place_eq_ok_iff hplaced).mpr ?_
  rintro o ho rfl
  obtain ⟨i, hi⟩ := List.mem_iff_getElem?.mp ho
  have hlt := (List.getElem?_eq_some_iff.mp hi).1
  rw [hgreedy.length_eq, List.length_map] at hlt
  obtain ⟨slot, hslot⟩ : ∃ slot, (slots.take maxSelect)[i]? = some slot := ⟨_, List.getElem?_eq_getElem hlt⟩
  refine hgreedy.serves_of_room (requests_eq_some hslot) (T := (p.poolMap.disksFor slot).toFinset) (fun id hid => ?_) ?_ hi
  · have hmet := mem_disksFor.mp (List.mem_toFinset.mp hid)
    exact ⟨hmet.any, hmet⟩
  · rw [card_rivals hslot, card_disksFor]
    exact hroom i slot hslot

/-- For this key, the disks of the slot rank above all others. -/
def RanksFirst (pm : PoolMap) (key : UInt64) (slot : ReplicaSlot) : Prop :=
  ∀ id ∈ pm.disksFor slot, ∀ id' ∈ pm.disksFor (.anyOfClass none), id' ∉ pm.disksFor slot →
    Pool.diskRank pm key id' < Pool.diskRank pm key id

/-- The slots before the `i`-th reach into its disks, for this key: they have no others, or those rank first. -/
def Contested (pm : PoolMap) (key : UInt64) (slots : List ReplicaSlot) (i : Nat) (slot : ReplicaSlot) : Prop :=
  (∀ s ∈ slots.take i, (∃ id, s.MetBy pm id ∧ slot.MetBy pm id) → ∀ id, s.MetBy pm id → slot.MetBy pm id) ∨
    RanksFirst pm key slot

/-- **Where a placed policy has room**: at a slot whose disks are contested. -/
theorem room_of_place {p : Pool} {key : UInt64} {ids : List DiskId} (hpool : p.poolMap.disks.size < 2 ^ 32 - 1)
    (hplace : p.place ord (.replicated slots) key = .ok ids) (hslot : (slots.take maxSelect)[i]? = some slot)
    (hcontested : Contested p.poolMap key slots i slot) :
    p.poolMap.rivals (slots.take i) slot < (p.poolMap.disksFor slot).length := by
  obtain ⟨placed, hplaced, hgreedy⟩ := Pool.placeRedundancy_greedy ord hpool slots key
  have hall := (place_eq_ok_iff hplaced).mp ⟨ids, hplace⟩
  have hi := (List.getElem?_eq_some_iff.mp hslot).1
  rw [List.length_take] at hi
  rw [← card_rivals hslot, ← card_disksFor]
  refine hgreedy.room_of_served hall (requests_eq_some hslot) (fun id => ?_) ?_
  · rw [List.mem_toFinset, mem_disksFor]
    exact ⟨fun hmet => ⟨hmet.any, hmet⟩, And.right⟩
  · intro j hj q hq ⟨id, hid, hqid⟩
    rw [List.getElem?_map, List.getElem?_take_of_lt (by omega)] at hq
    obtain ⟨s, hs, rfl⟩ := Option.map_eq_some_iff.mp hq
    have hmet := mem_disksFor.mp (List.mem_toFinset.mp hid)
    rcases nested_of_common hmet hqid with hnarrow | hwide
    · exact Or.inl fun id _ => hnarrow id
    · rcases hcontested with hnested | hfirst
      · have hmem : s ∈ slots.take i := List.mem_of_getElem? (by rw [List.getElem?_take_of_lt hj]; exact hs)
        exact Or.inl fun id _ => hnested s hmem ⟨_, hqid, hmet⟩ id
      · refine Or.inr ⟨fun id _ => hwide id, fun id hid id' hid' hmet hno => ?_⟩
        exact hfirst id (mem_disksFor.mpr hmet) id' (mem_disksFor.mpr hid') (fun hmem => hno (mem_disksFor.mp hmem))

end Room

/-- Each chunk and each extent of the file has a replica. -/
def InodeRecord.Replicated (rec : InodeRecord) : Prop := rec.data.AllReplicas fun _ _ replicas => replicas ≠ []

instance (rec : InodeRecord) : Decidable rec.Replicated :=
  match h : rec.data with
  | .chunkLog chunks => decidable_of_iff (∀ c ∈ chunks, c.replicas ≠ []) (by simp [InodeRecord.Replicated, h, DataLocator.AllReplicas])
  | .extents xs      => decidable_of_iff (∀ x ∈ xs, x.replicas ≠ []) (by simp [InodeRecord.Replicated, h, DataLocator.AllReplicas])

namespace Pool

variable {env : Env} {w w' w₁ : World} {p p' p₁ : Pool} {op : PoolOp} {mop : MetaOp} {n : Nat} {ino : InodeId}
  {rec : InodeRecord} {slots : List ReplicaSlot} {res : Res PoolError PoolVal}

/-! ## Calls that find a place -/

/-- A file that has replicas is read, or the read fails for another reason. -/
theorem readFullContent_ne_unplaceable (h : rec.Replicated) : p.readFullContent w rec ≠ .err .unplaceable := by
  refine readFullContent_ne_err (DataLocator.AllReplicas.mono h fun headerLen len replicas hne he => ?_)
  rcases readReplicated_err he with ⟨hnil, -⟩ | he | ⟨x, he⟩
  · exact hne hnil
  · cases he
  · cases he

/-- The replica loop over members of the pool fails only where a disk does. -/
theorem writeReplicas_ne_unplaceable {writeOne : World → DiskHandle → Res PoolError Nat × World} {ids : List DiskId}
    (hone : ∀ w h e w', writeOne w h = (.err e, w') → ∃ x, e = .io x) (hmem : Members ids p) :
    (writeReplicas writeOne ids (w, p)).1 ≠ .err .unplaceable := by
  intro he
  obtain ⟨w₁, handle, w₂, hwrite⟩ := writeReplicas_err hmem (Prod.ext he rfl)
  obtain ⟨x, hx⟩ := hone _ _ _ _ hwrite
  cases hx

/-- The file has this policy, and all its data has replicas. -/
def HoldsPolicy (slots : List ReplicaSlot) (rec : InodeRecord) : Prop := rec.redundancy = .replicated slots ∧ rec.Replicated

/-- The policy is placed for every key of the file. -/
def Placed (ord : IterOrder) (p : Pool) (ino : InodeId) (slots : List ReplicaSlot) : Prop :=
  ∀ seq, ∃ ids, p.place ord (.replicated slots) (placementKey ino seq) = .ok ids

theorem findInode_ne_unplaceable : p.findInode ino ≠ .err .unplaceable := by
  refine Res.bind_ne_err ?_ fun found _ => ?_
  · intro h
    obtain ⟨e, -, he⟩ := Res.mapErr_eq_err.mp h
    cases he
  · cases found with
    | none => exact fun h => by cases h
    | some rec => exact fun h => by cases h

theorem Placed.ne_err {ord : IterOrder} (h : Placed ord p ino slots) (seq : UInt64) :
    p.place ord (.replicated slots) (placementKey ino seq) ≠ .err .unplaceable := by
  obtain ⟨ids, hids⟩ := h seq
  rw [hids]
  exact fun he => by cases he

theorem planAppend_ne_unplaceable {ord : IterOrder} (hpolicy : ∀ rec, p.findInode ino = .ok rec → HoldsPolicy slots rec)
    (hplaced : Placed ord p ino slots) : p.planAppend ord ino ≠ .err .unplaceable := by
  refine Res.bind_ne_err findInode_ne_unplaceable fun rec hfind => ?_
  split
  · exact fun h => by cases h
  · split
    · exact fun h => by cases h
    · rename_i chunks _
      refine Res.bind_ne_err ?_ fun ids _ h => by cases h
      rw [(hpolicy rec hfind).1]
      exact hplaced.ne_err _

theorem planCompleteConvert_ne_unplaceable (hpolicy : ∀ rec, p.findInode ino = .ok rec → HoldsPolicy slots rec) :
    p.planCompleteConvert w ino ≠ .err .unplaceable := by
  refine Res.bind_ne_err findInode_ne_unplaceable fun rec hfind => ?_
  split
  · exact fun h => by cases h
  · exact Res.bind_ne_err (readFullContent_ne_unplaceable (hpolicy rec hfind).2) fun content _ h => by cases h

theorem planWrite_ne_unplaceable {offset : UInt64} {data : Bytes}
    (hpolicy : ∀ rec, p.findInode ino = .ok rec → HoldsPolicy slots rec) :
    p.planWrite w ino offset data ≠ .err .unplaceable := by
  refine Res.bind_ne_err findInode_ne_unplaceable fun rec hfind => ?_
  split
  · exact fun h => by cases h
  · refine Res.bind_ne_err (readFullContent_ne_unplaceable (hpolicy rec hfind).2) fun content _ => ?_
    dsimp only
    split
    · exact fun h => by cases h
    · split
      · exact fun h => by cases h
      · exact Res.bind_ne_err copyInto_ne_err fun content _ h => by cases h

theorem prepareAppend_ne_unplaceable {payload : Bytes} (hmem : Membered p)
    (hpolicy : ∀ rec, p.findInode ino = .ok rec → HoldsPolicy slots rec) (hplaced : Placed env.ord p ino slots) :
    (prepareAppend env ino payload (w, p)).1 ≠ .err .unplaceable := by
  refine Action.bind_ne_err (planAppend_ne_unplaceable hpolicy hplaced) fun planned s hreads => ?_
  obtain ⟨hplan, rfl⟩ := Action.reads_eq_ok.mp hreads
  obtain ⟨chunkSeq, ids⟩ := planned
  obtain ⟨rec, chunks, -, -, -, -, hplace⟩ := planAppend_eq_ok hplan
  exact Action.bind_ne_err (writeReplicas_ne_unplaceable (fun _ _ _ _ => appendRecord_err) (members_of_place hmem hplace))
    fun replicas s _ h => by cases h

theorem prepareExtents_ne_unplaceable {plan : World → Pool → Res PoolError (RedundancyScheme × Bytes)}
    {mkOp : List Extent → MetaOp} (hmem : Membered p) (hplaced : Placed env.ord p ino slots)
    (hplan : plan w p ≠ .err .unplaceable)
    (hscheme : ∀ redundancy content, plan w p = .ok (redundancy, content) → redundancy = .replicated slots) :
    (prepareExtents env ino plan mkOp (w, p)).1 ≠ .err .unplaceable := by
  refine Action.bind_ne_err hplan fun planned s hreads => ?_
  obtain ⟨hplanned, rfl⟩ := Action.reads_eq_ok.mp hreads
  obtain ⟨redundancy, content⟩ := planned
  obtain rfl := hscheme _ _ hplanned
  refine Action.bind_ne_err ?_ fun extents s _ h => by cases h
  unfold writeWholeFileExtent
  split
  · exact fun h => by cases h
  · refine Action.bind_ne_err (hplaced.ne_err _) fun ids s hreads => ?_
    obtain ⟨hplace, rfl⟩ := Action.reads_eq_ok.mp hreads
    exact Action.bind_ne_err (writeReplicas_ne_unplaceable (fun _ _ _ _ => storeExtent_err) (members_of_place hmem hplace))
      fun replicas s _ h => by cases h

/-- The call stores data of the file. -/
def WritesData (ino : InodeId) : PoolOp → Prop
  | .append i _        => i = ino
  | .completeConvert i => i = ino
  | .write i ..        => i = ino
  | _                  => False

/-- **A call that stores data of a file whose policy is placed for every key does not fail for want of a place.** -/
theorem step_ne_unplaceable (hmem : Membered p) (hpolicy : ∀ rec, p.findInode ino = .ok rec → HoldsPolicy slots rec)
    (hplaced : Placed env.ord p ino slots) (hop : WritesData ino op) : (step env op (w, p)).1 ≠ .err .unplaceable := by
  have hphase : ∀ x : PoolM MetaOp, dataPhase env op = some x → (x (w, p)).1 ≠ .err .unplaceable →
      (step env op (w, p)).1 ≠ .err .unplaceable := by
    intro x hx hne
    rw [step_of_dataPhase hx]
    refine Action.bind_ne_err (Action.bind_ne_err hne fun mop s _ he => ?_) fun _ _ _ h => by cases h
    obtain ⟨q, s', -, hq, -⟩ := applyMeta_cases (Prod.ext he rfl : applyMeta env mop s = (.err .unplaceable, _))
    cases q with
    | ok u => cases hq
    | err e => cases hq
    | panic => cases hq
  cases op with
  | append i payload =>
      obtain rfl : i = ino := hop
      exact hphase _ rfl (prepareAppend_ne_unplaceable hmem hpolicy hplaced)
  | completeConvert i =>
      obtain rfl : i = ino := hop
      refine hphase _ rfl (prepareExtents_ne_unplaceable hmem hplaced (planCompleteConvert_ne_unplaceable hpolicy) ?_)
      intro redundancy content hplan
      obtain ⟨rec, hfind, rfl, -⟩ := planCompleteConvert_eq_ok hplan
      exact (hpolicy rec hfind).1
  | write i offset data =>
      obtain rfl : i = ino := hop
      refine hphase _ rfl (prepareExtents_ne_unplaceable hmem hplaced (planWrite_ne_unplaceable hpolicy) ?_)
      intro redundancy content hplan
      obtain ⟨rec, hfind, rfl, -⟩ := planWrite_eq_ok hplan
      exact (hpolicy rec hfind).1
  | createFile parent name redundancy uid gid unixMode now => exact hop.elim
  | beginConvert inode => exact hop.elim
  | setRedundancy inode scheme => exact hop.elim
  | unlink parent name => exact hop.elim
  | read inode offset len => exact hop.elim

/-! ## A policy that stays -/

theorem Hands.tabled (hh : Hands env w p op mop w₁ p₁) (h : Tabled n (fun _ _ => True) w p)
    (hfit : ∀ c ∈ p.metaCalls env w op, c.Fits) : Tabled n (fun _ _ => True) w₁ p₁ := by
  refine hh.rule h (fun _ hop => h.phase (fun _ _ _ _ ht => ht) hop) (fun _ _ halloc => h.alloc halloc) ?_
  intro mop w₁ p₁ w₂ s₂ hhands h₁ happly
  exact h₁.apply (fun _ _ _ _ ht => ht) happly (by simp) (hfit _ hhands.mem_metaCalls) (fun _ _ => trivial)
    (fun _ => hhands.chunkCount_eq)

/-- The extents a rewrite has prepared have replicas. -/
theorem replicated_of_rewrite {plan : World → Pool → Res PoolError (RedundancyScheme × Bytes)} {mkOp : List Extent → MetaOp}
    (hok : HandlesOk p) (hslots : slots ≠ [])
    (hscheme : ∀ redundancy content, plan w p = .ok (redundancy, content) → redundancy = .replicated slots)
    (hx : prepareExtents env ino plan mkOp (w, p) = (.ok mop, w₁, p₁)) :
    ∃ xs, mop = mkOp xs ∧ (DataLocator.extents xs).AllReplicas fun _ _ replicas => replicas ≠ [] := by
  obtain ⟨redundancy, content, hplan, hend⟩ := prepareExtents_stores hok hx
  obtain rfl := hscheme _ _ hplan
  rcases hend with ⟨-, rfl⟩ | ⟨-, ids, replicas, hplace, hids, -, rfl⟩
  · exact ⟨[], rfl, List.forall_mem_nil _⟩
  · have hne : RedundancyScheme.replicated slots ≠ .replicated [] := fun h => hslots (RedundancyScheme.replicated.inj h)
    exact ⟨_, rfl, List.forall_mem_singleton.mpr (ne_nil_of_place hne hplace hids)⟩

/-- The record that a data phase leads to, for a file whose policy has a slot. -/
theorem HoldsPolicy.of_phase {x : PoolM MetaOp} {rec' : InodeRecord} (hok : HandlesOk p) (hslots : slots ≠ [])
    (hhas : p.metaStore.view.Has ino rec) (hhas₁ : p₁.metaStore.view.Has ino rec) (hrec : HoldsPolicy slots rec)
    (hop : dataPhase env op = some x) (hx : x (w, p) = (.ok mop, w₁, p₁)) (ht : op.target = some ino)
    (hstep : p₁.metaStore.view.RecStep mop rec') : HoldsPolicy slots rec' := by
  obtain ⟨hscheme, hreplicas⟩ := hrec
  -- the call finds the record there was
  have hfound : ∀ rec₀, p.findInode ino = .ok rec₀ → rec₀ = rec := fun rec₀ hfind =>
    Option.some.inj (Res.ok.inj ((findInode_eq_ok hfind).symm.trans hhas.getInode_eq))
  have hread : ∀ rec₀, p₁.metaStore.view.readInode ino = .ok rec₀ → rec₀ = rec := fun rec₀ hread =>
    Res.ok.inj (hread.symm.trans hhas₁.readInode_eq)
  cases dataPhase_cases hop with
  | append =>
      obtain rfl := Option.some.inj ht
      obtain ⟨rec₀, chunks, ids, replicas, hfind, -, -, hplace, hids, -, rfl⟩ := prepareAppend_stores hok hx
      obtain rfl := hfound _ hfind
      have hne : rec₀.redundancy ≠ .replicated [] := by
        rw [hscheme]
        exact fun h => hslots (RedundancyScheme.replicated.inj h)
      cases hstep with
      | appendChunk hrec hdata hsize =>
          obtain rfl := hread _ hrec
          refine ⟨hscheme, ?_⟩
          unfold InodeRecord.Replicated at hreplicas ⊢
          rw [hdata] at hreplicas
          exact List.forall_mem_append.mpr ⟨hreplicas, List.forall_mem_singleton.mpr (ne_nil_of_place hne hplace hids)⟩
  | @completeConvert i =>
      obtain rfl := Option.some.inj ht
      have hplanned : ∀ redundancy content, p.planCompleteConvert w i = .ok (redundancy, content) →
          redundancy = .replicated slots := by
        intro redundancy content hplan
        obtain ⟨rec₀, hfind, rfl, -⟩ := planCompleteConvert_eq_ok hplan
        rw [hfound _ hfind, hscheme]
      obtain ⟨xs, rfl, hxs⟩ := replicated_of_rewrite hok hslots hplanned hx
      cases hstep with
      | completeConvert hrec hmode =>
          obtain rfl := hread _ hrec
          exact ⟨hscheme, hxs⟩
  | @write i offset data =>
      obtain rfl := Option.some.inj ht
      have hplanned : ∀ redundancy content, p.planWrite w i offset data = .ok (redundancy, content) →
          redundancy = .replicated slots := by
        intro redundancy content hplan
        obtain ⟨rec₀, hfind, rfl, -⟩ := planWrite_eq_ok hplan
        rw [hfound _ hfind, hscheme]
      obtain ⟨xs, rfl, hxs⟩ := replicated_of_rewrite hok hslots hplanned hx
      cases hstep with
      | updateExtents hrec hmode hends =>
          obtain rfl := hread _ hrec
          exact ⟨hscheme, hxs⟩

/-- The record a call's last operation leaves, unless it gives the file another policy. -/
theorem Hands.holdsPolicy {rec' : InodeRecord} (hh : Hands env w p op mop w₁ p₁) (hok : HandlesOk p) (hslots : slots ≠ [])
    (hhas : p.metaStore.view.Has ino rec) (hhas₁ : p₁.metaStore.view.Has ino rec) (hrec : HoldsPolicy slots rec)
    (hnew : ∀ rec, mop ≠ .createInode rec) (ht : mop.target = some ino) (hsets : ∀ scheme, op ≠ .setRedundancy ino scheme)
    (hstep : p₁.metaStore.view.RecStep mop rec') : HoldsPolicy slots rec' := by
  have htarget := hh.target_eq hnew ht
  cases hh with
  | phase hop hx => exact hrec.of_phase hok hslots hhas hhas₁ hop hx htarget hstep
  | beginConvert =>
      obtain rfl := Option.some.inj ht
      cases hstep with
      | beginConvert hread hmode =>
          obtain rfl := Res.ok.inj (hread.symm.trans hhas₁.readInode_eq)
          exact hrec
  | setRedundancy =>
      obtain rfl := Option.some.inj ht
      exact absurd rfl (hsets _)
  | unlink => cases ht
  | create halloc => exact absurd rfl (hnew _)
  | link halloc hcreate => cases ht

/-- What the last operation of a call finds, and what it may store. -/
theorem Hands.finds (hh : Hands env w p op mop w₁ p₁) (h : Tabled n (fun _ _ => True) w p)
    (hfits : ∀ c ∈ p.metaCalls env w op, c.Fits) :
    (∃ Q, p₁.metaStore.view.Each Q) ∧ ∀ rec, p₁.metaStore.view.RecStep mop rec → rec.Fits := by
  have h₁ := hh.tabled h hfits
  exact ⟨⟨_, h₁.records⟩, fun rec hstep =>
    (h₁.fits_of_recStep (hfits _ hh.mem_metaCalls) (fun _ => hh.chunkCount_eq) hstep).1⟩

/-- **Step lemma.** A call that gives the file no other policy leaves it with the one it has, and its data with replicas. -/
theorem HoldsPolicy.step (h₀ : Tabled n (fun _ _ => True) w p) (hslots : slots ≠ [])
    (hfits : ∀ c ∈ p.metaCalls env w op, c.Fits) (h : Pool.step env op (w, p) = (res, w', p')) (hres : res ≠ .panic)
    (hhas : p.metaStore.view.Has ino rec) (hrec : HoldsPolicy slots rec)
    (hsets : ∀ scheme v, op = .setRedundancy ino scheme → res ≠ .ok v) :
    ∃ rec', p'.metaStore.view.Has ino rec' ∧ HoldsPolicy slots rec' := by
  obtain ⟨rec', hhas', rfl | ⟨mop, w₁, p₁, v, hh, rfl, hnew, ht, hhas₁, hstep⟩⟩ :=
    record_trace h₀.wf h₀.keys (fun _ _ _ hh => hh.finds h₀ hfits) h hres hhas
  · exact ⟨rec', hhas', hrec⟩
  · exact ⟨rec', hhas', hh.holdsPolicy h₀.handles hslots hhas hhas₁ hrec hnew ht (fun scheme hop => hsets scheme v hop rfl)
      hstep⟩

/-- All that setting a policy does; the pool map is not looked at. -/
theorem setRedundancy_eq_ok {scheme : RedundancyScheme} {v : PoolVal}
    (h : step env (.setRedundancy ino scheme) (w, p) = (.ok v, w', p')) :
    ∃ s', p.metaStore.apply env w (.setRedundancyScheme ino scheme) = (.ok (), w', s') ∧ p' = { p with metaStore := s' } := by
  rcases step_cases h (by simp) with ⟨⟨_, _, _, hop⟩, -⟩ | ⟨x, e, hop, -⟩ | ⟨mop, w₁, p₁, q, s', hh, happly, rfl, hcloses⟩
  · cases hop
  · cases hop
  · cases hcloses with
    | accepted hne =>
        cases hh with
        | phase hop hx => cases hop
        | setRedundancy => exact ⟨s', happly, rfl⟩

/-- A policy that is set on a file whose data has replicas. -/
theorem holdsPolicy_of_set {v : PoolVal} (h₀ : Tabled n (fun _ _ => True) w p)
    (hfits : ∀ c ∈ p.metaCalls env w (.setRedundancy ino (.replicated slots)), c.Fits)
    (h : step env (.setRedundancy ino (.replicated slots)) (w, p) = (.ok v, w', p'))
    (hdata : ∀ rec, p.getInode ino = .ok (some rec) → rec.Replicated) :
    ∃ rec, p'.metaStore.view.Has ino rec ∧ HoldsPolicy slots rec := by
  obtain ⟨s', happly, rfl⟩ := setRedundancy_eq_ok h
  obtain ⟨-, hu⟩ := MetaStore.apply_eq_ok h₀.wf.2 happly
  obtain ⟨rec', hstep, hhas'⟩ := View.has_applyLocally h₀.records hu rfl (Hands.setRedundancy.finds h₀ hfits).2
  refine ⟨rec', hhas', ?_⟩
  cases hstep with
  | @setRedundancyScheme _ _ rec hread =>
      exact ⟨rfl, hdata rec (getInode_of_view (View.readInode_iff_getInode.mp hread))⟩

/-- The call gave the file a policy. -/
def Event.Sets (ino : InodeId) : Event → Prop
  | .call _ _ _ (.setRedundancy i _) (.ok _) => i = ino
  | _                                        => False

variable {env₀ : Env} {w₀ : World} {p₀ : Pool} {v : PoolVal} {before after : List Event}

/-- **Run lemma.** The policy a file was given last stays, and all its data has replicas. -/
theorem RunWith.holdsPolicy {opens : Nat → Prop} {events : List Event} (hself : opens n) (hrun : RunWith opens n w p events)
    (hfits : LogFits events) (hdurable : ReopenedDurable events) (hslots : slots ≠ [])
    (hevents : events = before ++ .call env₀ w₀ p₀ (.setRedundancy ino (.replicated slots)) (.ok v) :: after)
    (hlast : ∀ e ∈ after, ¬e.Sets ino) (hdata : ∀ rec, p₀.getInode ino = .ok (some rec) → rec.Replicated) :
    ∃ rec, p.metaStore.view.Has ino rec ∧ HoldsPolicy slots rec := by
  induction hrun generalizing after with
  | format env h =>
      rcases snoc_eq_append_cons (l := []) hevents with ⟨-, he, -⟩ | ⟨after', -, he⟩
      · cases he
      · simp at he
  | call env op hrun h hres ih =>
      obtain ⟨hfits₀, hfits₁⟩ := hfits.snoc
      obtain ⟨⟨m, -, htabled⟩, -⟩ := hrun.tabled (fun _ _ _ _ ht => ht) (fun _ _ _ => trivial) hself hfits₀
        (BeforeReopens.snoc hdurable) (fun _ _ _ _ _ _ _ _ _ _ _ _ _ _ _ _ => trivial)
      rcases snoc_eq_append_cons hevents with ⟨-, he, -⟩ | ⟨after', rfl, he⟩
      · cases he
        exact holdsPolicy_of_set htabled hfits₁ h hdata
      · obtain ⟨rec, hhas, hrec⟩ := ih hfits₀ (BeforeReopens.snoc hdurable) he
          (fun e he => hlast e (List.mem_append_left _ he))
        refine HoldsPolicy.step htabled hslots hfits₁ h hres hhas hrec ?_
        rintro scheme v rfl rfl
        exact hlast _ (List.mem_append_right _ (List.mem_singleton.mpr rfl)) rfl
  | reopen hrun h hm ih =>
      obtain ⟨hfits₀, -⟩ := hfits.snoc
      have hsame := inodes_reopen (hrun.traced hfits₀ (BeforeReopens.last hdurable)) h
      rcases snoc_eq_append_cons hevents with ⟨-, he, -⟩ | ⟨after', rfl, he⟩
      · cases he
      · obtain ⟨rec, hhas, hrec⟩ := ih hfits₀ (BeforeReopens.snoc hdurable) he
          (fun e he => hlast e (List.mem_append_left _ he))
        exact ⟨rec, ⟨by rw [hsame]; exact hhas.entry_eq, hhas.fits, hhas.inode_eq⟩, hrec⟩

/-- **A file whose policy has room when it is set does not run out of places**: the policy is placed for all its keys as
    long as the pool map is the same, and no call that stores data of the file fails for want of a place. Where keys of
    the file contest the slots, only a policy with room is placed for all of them. -/
theorem placeable_of_roomy
    (hrun : AnyRun n w p (before ++ .call env₀ w₀ p₀ (.setRedundancy ino (.replicated slots)) (.ok v) :: after))
    (hfits : LogFits (before ++ .call env₀ w₀ p₀ (.setRedundancy ino (.replicated slots)) (.ok v) :: after))
    (hdurable : ReopenedDurable (before ++ .call env₀ w₀ p₀ (.setRedundancy ino (.replicated slots)) (.ok v) :: after))
    (hlast : ∀ e ∈ after, ¬e.Sets ino) (hmap : p.poolMap = p₀.poolMap) (hpool : p₀.poolMap.disks.size < 2 ^ 32 - 1) :
    (p₀.poolMap.Roomy slots → (∀ ord, Placed ord p ino slots) ∧
      (slots ≠ [] → (∀ rec, p₀.getInode ino = .ok (some rec) → rec.Replicated) →
        ∀ env op, WritesData ino op → (step env op (w, p)).1 ≠ .err .unplaceable)) ∧
    ((∀ i slot, (slots.take maxSelect)[i]? = some slot → ∃ seq, Contested p₀.poolMap (placementKey ino seq) slots i slot) →
      ∀ ord, Placed ord p ino slots → p₀.poolMap.Roomy slots) := by
  rw [← hmap] at hpool ⊢
  constructor
  · intro hroom
    have hplaced : ∀ ord, Placed ord p ino slots := fun ord seq => place_of_roomy hpool hroom ord _
    refine ⟨hplaced, fun hslots hdata env op hop => ?_⟩
    obtain ⟨rec, hhas, hrec⟩ := RunWith.holdsPolicy trivial hrun hfits hdurable hslots rfl hlast hdata
    refine step_ne_unplaceable hrun.membered (fun rec' hfind => ?_) (hplaced env.ord) hop
    obtain rfl := Option.some.inj (Res.ok.inj (hhas.getInode_eq.symm.trans (findInode_eq_ok hfind)))
    exact hrec
  · intro hcontested ord hplaced i slot hslot
    obtain ⟨seq, hkey⟩ := hcontested i slot hslot
    obtain ⟨ids, hids⟩ := hplaced seq
    exact room_of_place hpool hids hslot hkey

/-- A pool of two flash disks and another that was just formatted. -/
def onThreeDisks : World × Pool :=
  let out := formatWithClasses (Env.healthy MetaStore.listOrder) (World.blank 0) 3 [.ssd, .ssd, .hdd] 0
  (out.2.1, out.2.2.getD ⟨poolMapOf [], ∅, freshStore 3⟩)

theorem run_onThreeDisks :
    Run 3 onThreeDisks.1 onThreeDisks.2 [.format (Env.healthy MetaStore.listOrder) (World.blank 0) 3 0] := by
  have h : formatWithClasses (Env.healthy MetaStore.listOrder) (World.blank 0) 3 [.ssd, .ssd, .hdd] 0 =
      (.ok (), onThreeDisks.1, some onThreeDisks.2) := rfl
  exact .format _ h

/-- A file is created on it and appended to. -/
def flashSession : List Event × World × Pool :=
  play (Env.healthy MetaStore.listOrder) [creation "a", .append 2 [1, 2, 3]] onThreeDisks

/-- The file is given two slots that share the flash disks, the less particular one first. -/
def overlapping : List ReplicaSlot := [.anyOfClass none, .anyOfClass (some .ssd)]

def flashPolicy : Res PoolError PoolVal × World × Pool :=
  step (Env.healthy MetaStore.listOrder) (.setRedundancy 2 (.replicated overlapping)) flashSession.2

/-- And it is appended to again. -/
def flashAppend : Res PoolError PoolVal × World × Pool :=
  step (Env.healthy MetaStore.listOrder) (.append 2 [4]) flashPolicy.2

def flashBefore : List Event := [.format (Env.healthy MetaStore.listOrder) (World.blank 0) 3 0] ++ flashSession.1

def flashAfter : List Event :=
  [.call (Env.healthy MetaStore.listOrder) flashPolicy.2.1 flashPolicy.2.2 (.append 2 [4]) (.ok .unit)]

theorem step_eq_of_fst {s : World × Pool} {out : Res PoolError PoolVal × World × Pool} (h : step env op s = out)
    (hres : out.1 = res) : step env op (s.1, s.2) = (res, out.2.1, out.2.2) := by
  subst hres
  exact h

/-- The theorem there: the slots are not in the order that would always do, but each has room. -/
theorem placeable_of_roomy_overlapping : flashPolicy.1 = .ok .unit ∧ flashAppend.1 = .ok .unit ∧
    flashSession.2.2.poolMap.Roomy overlapping ∧ (∀ ord, Placed ord flashAppend.2.2 2 overlapping) ∧
    ∀ env payload, (step env (.append 2 payload) (flashAppend.2.1, flashAppend.2.2)).1 ≠ .err .unplaceable := by
  have hset : flashPolicy.1 = .ok .unit := by decide +kernel
  have happend : flashAppend.1 = .ok .unit := by decide +kernel
  have hroom : flashSession.2.2.poolMap.Roomy overlapping := by decide +kernel
  have hpolicy : step (Env.healthy MetaStore.listOrder) (.setRedundancy 2 (.replicated overlapping)) flashSession.2 =
      flashPolicy := rfl
  have hlast : step (Env.healthy MetaStore.listOrder) (.append 2 [4]) flashPolicy.2 = flashAppend := rfl
  have hpolicy := step_eq_of_fst hpolicy hset
  have hlast := step_eq_of_fst hlast happend
  have hplay : play (Env.healthy MetaStore.listOrder) [creation "a", .append 2 [1, 2, 3]] onThreeDisks = flashSession := rfl
  have hrun : AnyRun 3 flashAppend.2.1 flashAppend.2.2 (flashBefore ++ .call (Env.healthy MetaStore.listOrder)
      flashSession.2.1 flashSession.2.2 (.setRedundancy 2 (.replicated overlapping)) (.ok .unit) :: flashAfter) := by
    rw [List.append_cons]
    exact ((run_onThreeDisks.any.play hplay (by decide +kernel)).call _ _ hpolicy (by simp)).call _ _ hlast (by simp)
  have hsession : ∀ e ∈ flashBefore, e.InSession := play_inSession MetaStore.listOrder (World.blank 0) 3 0 _ onThreeDisks
  have hdurable : ReopenedDurable (flashBefore ++ .call (Env.healthy MetaStore.listOrder) flashSession.2.1
      flashSession.2.2 (.setRedundancy 2 (.replicated overlapping)) (.ok .unit) :: flashAfter) := by
    rw [List.append_cons]
    exact (beforeReopens_of_inSession hsession).call.call
  have hmap : flashAppend.2.2.poolMap = flashSession.2.2.poolMap :=
    (poolMap_step hlast (by simp)).trans (poolMap_step hpolicy (by simp))
  have hcheck : ((flashSession.2.2.getInode 2).getD none).all fun rec => rec.Replicated := by decide +kernel
  have hdata : ∀ rec, flashSession.2.2.getInode 2 = .ok (some rec) → rec.Replicated := by
    intro rec hget
    rw [hget] at hcheck
    exact of_decide_eq_true hcheck
  obtain ⟨hplaced, hcalls⟩ := (placeable_of_roomy hrun (by decide +kernel) hdurable
    (List.forall_mem_singleton.mpr id) hmap (by decide +kernel)).1 hroom
  exact ⟨hset, happend, hroom, hplaced, fun env payload => hcalls (List.cons_ne_nil _ _) hdata env (.append 2 payload) rfl⟩

/-- **A pool without flash accepts a policy that asks for it.** The policy is placed for no key, and the next write of the
    file fails. -/
theorem unsatisfiable_policy_accepted : ∃ w p w' p', Run 1 w p sampleEvents ∧
    step (Env.healthy MetaStore.listOrder) (.setRedundancy 2 (.replicated [.anyOfClass (some .ssd)])) (w, p) =
      (.ok .unit, w', p') ∧ p'.poolMap = p.poolMap ∧
    (∀ ord seq, ¬∃ ids, p'.place ord (.replicated [.anyOfClass (some .ssd)]) (placementKey 2 seq) = .ok ids) ∧
    (step (Env.healthy MetaStore.listOrder) (.write 2 0 [7]) (w', p')).1 = .err .unplaceable := by
  have hrun := run_sample
  have hres : (step (Env.healthy MetaStore.listOrder) (.setRedundancy 2 (.replicated [.anyOfClass (some .ssd)]))
      (sampleSession.2.1, sampleSession.2.2)).1 = .ok .unit := by decide +kernel
  have hwrite : (step (Env.healthy MetaStore.listOrder) (.write 2 0 [7]) (step (Env.healthy MetaStore.listOrder)
      (.setRedundancy 2 (.replicated [.anyOfClass (some .ssd)])) (sampleSession.2.1, sampleSession.2.2)).2).1 =
        .err .unplaceable := by decide +kernel
  have hpool : sampleSession.2.2.poolMap.disks.size = 1 := by decide +kernel
  have hdisks : (sampleSession.2.2.poolMap.disksFor (.anyOfClass (some .ssd))).length = 0 := by decide +kernel
  refine ⟨sampleSession.2.1, sampleSession.2.2, ?_⟩
  generalize sampleSession.2.1 = w at *
  generalize sampleSession.2.2 = p at *
  generalize hset : step (Env.healthy MetaStore.listOrder) (.setRedundancy 2 (.replicated [.anyOfClass (some .ssd)])) (w, p) =
    out at hres hwrite
  obtain ⟨res, w', p'⟩ := out
  obtain rfl : res = .ok .unit := hres
  obtain ⟨s', -, hp'⟩ := setRedundancy_eq_ok hset
  have hmap : p'.poolMap = p.poolMap := by rw [hp']
  refine ⟨w', p', hrun, rfl, hmap, ?_, hwrite⟩
  rintro ord seq ⟨ids, hplace⟩
  rw [← hmap] at hpool hdisks
  have hroom := room_of_place (i := 0) (by omega) hplace rfl (Or.inl fun s hs => absurd hs (List.not_mem_nil))
  rw [hdisks] at hroom
  exact Nat.not_lt_zero _ hroom

end Pool

end Tartine
