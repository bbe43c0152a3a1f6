import Tartine.Kcore.PlacementGreedy

/-!
# `Kcore.PlacementGuarantees` — what callers of `place_redundancy` rely on

Read off the greedy run of `Kcore.PlacementGreedy`:

* `placeRedundancy_sound_maximal` — every entry is the best remaining disk its slot accepts, and a slot is left
  unplaced only when no disk remains for it;
* `placeRedundancy_complete` — a policy is placed for every key if each slot has more candidates than rivals before
  it; `roomy_of_satisfiable` finds this room in satisfiable policies whose narrow slots come first, and
  `placeRedundancy_misses_satisfiable` shows that the order matters;
* `placeRedundancy_minimal_disruption` — one more disk changes the selected set by at most one replacement.
-/

namespace Tartine.Kcore

open Basis

variable {candidates : List DiskCandidate} {key : UInt64} {slots : List ReplicaSlotSpec} {out : List UInt32}

/-! ## From buffer entries to outcomes -/

/-- Each slot walked has an outcome, and the buffer holds it. -/
theorem entry_outcome (candidates : List DiskCandidate) (key : UInt64) {i : Nat} (hi : i < walked slots out) :
    ∃ o, (outcomes candidates key (slots.take (walked slots out)) [])[i]? = some o ∧
      (placeRedundancy candidates key slots out).2[i]? = some (o.getD unplaced) := by
  have hlen : (outcomes candidates key (slots.take (walked slots out)) []).length = walked slots out := by
    rw [length_outcomes, List.length_take]; unfold walked; omega
  have hlt : i < (outcomes candidates key (slots.take (walked slots out)) []).length := by omega
  refine ⟨_, List.getElem?_eq_getElem hlt, ?_⟩
  rw [placeRedundancy_snd, List.getElem?_append_left (by rw [List.length_map]; exact hlt), List.getElem?_map,
    List.getElem?_eq_getElem hlt]
  rfl

/-- A candidate's index stands in the buffer exactly where it is the outcome. -/
theorem entry_eq_index_iff (hwl : WellListed candidates) {i j : Nat} (hi : i < walked slots out)
    (hj : j < candidates.length) :
    (placeRedundancy candidates key slots out).2[i]? = some (UInt32.ofNat j) ↔
      ((outcomes candidates key (slots.take (walked slots out)) []).map
        (Option.map UInt32.toNat))[i]? = some (some j) := by
  obtain ⟨o, ho, hbuf⟩ := entry_outcome candidates key hi
  have hidx : (UInt32.ofNat j).toNat = j := toNat_ofNat_index (by have := hwl.short; omega)
  rw [hbuf, List.getElem?_map, ho]
  cases o with
  | none =>
      have hne : unplaced ≠ UInt32.ofNat j := by
        intro he
        rw [← he] at hidx
        have hun : unplaced.toNat = 2 ^ 32 - 1 := by decide
        have := hwl.short
        omega
      simpa using hne
  | some u =>
      simp only [Option.getD_some, Option.map_some, Option.some.injEq]
      constructor
      · rintro rfl; exact hidx
      · rintro rfl; exact UInt32.ofNat_toNat.symm

/-- Candidate `j` was taken before slot `i` exactly when its index stands before position `i`. -/
theorem mem_takings_iff (hwl : WellListed candidates) {i j : Nat} (hi : i ≤ walked slots out)
    (hj : j < candidates.length) :
    j ∈ takings ∅ (((outcomes candidates key (slots.take (walked slots out)) []).map
        (Option.map UInt32.toNat)).take i) ↔
      ∃ i' < i, (placeRedundancy candidates key slots out).2[i']? = some (UInt32.ofNat j) := by
  have hunf : ∀ l : List (Option Nat), j ∈ takings ∅ l ↔ some j ∈ l := by
    intro l; simp [takings]
  rw [hunf, List.mem_iff_getElem?]
  constructor
  · rintro ⟨i', hi'⟩
    have hlt : i' < i := by
      have := (List.getElem?_eq_some_iff.mp hi').1
      rw [List.length_take] at this
      omega
    rw [List.getElem?_take_of_lt hlt] at hi'
    exact ⟨i', hlt, (entry_eq_index_iff hwl (by omega) hj).mpr hi'⟩
  · rintro ⟨i', hlt, hbuf⟩
    refine ⟨i', ?_⟩
    rw [List.getElem?_take_of_lt hlt]
    exact (entry_eq_index_iff hwl (by omega) hj).mp hbuf

/-! ## Soundness and greedy maximality -/

/-- The guarantee for one slot `i` holding the buffer entry `u`. -/
structure SlotPlaced (candidates : List DiskCandidate) (key : UInt64) (buf : List UInt32) (i : Nat)
    (slot : ReplicaSlotSpec) (u : UInt32) : Prop where
  /-- A placed entry is the index of an active candidate the slot accepts: the pinned disk, or one of the
      required class. -/
  placed : u ≠ unplaced → ∃ c, candidates[u.toNat]? = some c ∧ c.active ≠ 0 ∧
    (slot.pinned ≠ 0 → c.id = (slot.pinnedIdHi, slot.pinnedIdLo)) ∧
    (slot.pinned = 0 → slot.requiredClass = classAny ∨ c.cls = slot.requiredClass)
  /-- Among the active candidates of the class that no earlier slot used, it has the greatest rank. -/
  greatest : u ≠ unplaced → slot.pinned = 0 → ∀ c, candidates[u.toNat]? = some c →
    ∀ j c', candidates[j]? = some c' → c'.active ≠ 0 →
      (slot.requiredClass = classAny ∨ c'.cls = slot.requiredClass) →
      (∀ i' < i, buf[i']? ≠ some (UInt32.ofNat j)) → j ≠ u.toNat → rankKey key c' < rankKey key c
  /-- The slot is unplaced exactly when every active candidate it accepts was used by an earlier slot. -/
  unplaced_iff : u = unplaced ↔ ∀ j c, candidates[j]? = some c → c.active ≠ 0 → slot.Accepts c →
    ∃ i' < i, buf[i']? = some (UInt32.ofNat j)

/-- A placed entry is the outcome of its slot. -/
theorem outcome_of_placed {i : Nat} {u : UInt32} (hi : i < walked slots out)
    (hiu : (placeRedundancy candidates key slots out).2[i]? = some u) (hne : u ≠ unplaced) :
    ((outcomes candidates key (slots.take (walked slots out)) []).map
      (Option.map UInt32.toNat))[i]? = some (some u.toNat) := by
  obtain ⟨o, ho, hbuf⟩ := entry_outcome candidates key hi
  rw [hiu] at hbuf
  cases o with
  | none => exact absurd (Option.some.inj hbuf) hne
  | some v =>
      obtain rfl : u = v := Option.some.inj hbuf
      rw [List.getElem?_map, ho]
      rfl

section Picked

variable {buf : List UInt32} {used : Set Nat} {i : Nat} {slot : ReplicaSlotSpec}

/-- The slot that receives nothing: all it accepts is used. -/
theorem slotPlaced_unplaced
    (hused : ∀ {j c}, candidates[j]? = some c → (j ∈ used ↔ ∃ i' < i, buf[i']? = some (UInt32.ofNat j)))
    (hpick : Picks (rankAt key candidates) (pool candidates) used (slotAt candidates slot) none) :
    SlotPlaced candidates key buf i slot unplaced where
  placed h := absurd rfl h
  greatest h := absurd rfl h
  unplaced_iff := by
    constructor
    · intro _ j c hc hact hacc
      exact (hused hc).mp (hpick j ⟨c, hc, hact⟩ ⟨c, hc, hacc⟩)
    · intro _
      rfl

/-- The slot that receives `u`: its class or pin is what it accepts, and the ranks of two candidates differ. -/
theorem slotPlaced_of_picks (hwl : WellListed candidates) {u : UInt32} (hne : u ≠ unplaced)
    (hused : ∀ {j c}, candidates[j]? = some c → (j ∈ used ↔ ∃ i' < i, buf[i']? = some (UInt32.ofNat j)))
    (hpick : Picks (rankAt key candidates) (pool candidates) used (slotAt candidates slot) (some u.toNat)) :
    SlotPlaced candidates key buf i slot u := by
  obtain ⟨⟨c, hc, hact⟩, ⟨c', hc', hacc⟩, hfree, hmax⟩ := hpick
  obtain rfl : c = c' := by
    rw [hc] at hc'
    exact Option.some.inj hc'
  refine ⟨fun _ => ⟨c, hc, hact, ?_, ?_⟩, ?_, fun h => absurd h hne, ?_⟩
  · intro hpin
    rwa [ReplicaSlotSpec.Accepts, if_pos hpin] at hacc
  · intro hpin
    rwa [ReplicaSlotSpec.Accepts, if_neg (by simpa using hpin)] at hacc
  · intro _ hpin d hd j c'' hc'' hact'' hcls hnot hju
    obtain rfl : c = d := by
      rw [hc] at hd
      exact Option.some.inj hd
    have hacc'' : slot.Accepts c'' := by
      rw [ReplicaSlotSpec.Accepts, if_neg (by simpa using hpin)]
      exact hcls
    have hju' : j ∉ used := by
      intro hm
      obtain ⟨i', hlt, heq⟩ := (hused hc'').mp hm
      exact hnot i' hlt heq
    have hle := hmax j ⟨c'', hc'', hact''⟩ ⟨c'', hc'', hacc''⟩ hju'
    rw [rankAt_eq hc, rankAt_eq hc''] at hle
    refine lt_of_le_of_ne hle ?_
    intro heq
    exact hju (hwl.index_inj hc'' hc (rankKey_inj heq))
  · intro hall
    obtain ⟨i', hlt, heq⟩ := hall u.toNat c hc hact hacc
    exact absurd ((hused hc).mpr ⟨i', hlt, heq⟩) hfree

end Picked

/-- **`place_redundancy` is sound and greedily maximal.** It writes `min(slots, out, 16)` entries and leaves the
    rest of the buffer alone; placed entries are pairwise distinct; every slot gets what `SlotPlaced` says. -/
theorem placeRedundancy_sound_maximal (hlen : candidates.length < 2 ^ 32 - 1)
    (hids : candidates.Pairwise (fun a b => a.id ≠ b.id)) :
    (placeRedundancy candidates key slots out).1 = min slots.length (min out.length 16) ∧
    (placeRedundancy candidates key slots out).2.length = out.length ∧
    (∀ i, min slots.length (min out.length 16) ≤ i →
      (placeRedundancy candidates key slots out).2[i]? = out[i]?) ∧
    (∀ i j u, i < min slots.length (min out.length 16) → j < min slots.length (min out.length 16) →
      (placeRedundancy candidates key slots out).2[i]? = some u →
      (placeRedundancy candidates key slots out).2[j]? = some u → u ≠ unplaced → i = j) ∧
    (∀ i slot, i < min slots.length (min out.length 16) → slots[i]? = some slot →
      ∃ u, (placeRedundancy candidates key slots out).2[i]? = some u ∧
        SlotPlaced candidates key (placeRedundancy candidates key slots out).2 i slot u) := by
  have hwl : WellListed candidates := ⟨hlen, hids⟩
  have hn : walked slots out = min slots.length (min out.length 16) := rfl
  rw [← hn]
  have hol : (outcomes candidates key (slots.take (walked slots out)) []).length = walked slots out := by
    rw [length_outcomes, List.length_take]; unfold walked; omega
  have hout : walked slots out ≤ out.length := by unfold walked; omega
  have hg := outcomes_greedy hwl key (slots.take (walked slots out)) [] ∅ (by simp)
  refine ⟨rfl, ?_, ?_, ?_, ?_⟩
  · rw [placeRedundancy_snd, List.length_append, List.length_map, hol, List.length_drop]
    omega
  · intro i hi
    rw [placeRedundancy_snd, List.getElem?_append_right (by rw [List.length_map, hol]; exact hi),
      List.length_map, hol, List.getElem?_drop]
    congr 1; omega
  · intro i j u hi hj hiu hju hne
    -- a placed entry is an outcome, and no outcome is handed out twice
    exact hg.getElem?_inj (outcome_of_placed hi hiu hne) (outcome_of_placed hj hju hne)
  · intro i slot hi hslot
    obtain ⟨o, ho, hbuf⟩ := entry_outcome candidates key hi
    refine ⟨o.getD unplaced, hbuf, ?_⟩
    have hp : ((slots.take (walked slots out)).map (slotAt candidates))[i]? =
        some (slotAt candidates slot) := by
      rw [List.getElem?_map, List.getElem?_take_of_lt hi, hslot]
      rfl
    have hos : ((outcomes candidates key (slots.take (walked slots out)) []).map
        (Option.map UInt32.toNat))[i]? = some (o.map UInt32.toNat) := by
      rw [List.getElem?_map, ho]
      rfl
    have hpick := hg.picks_getElem? hp hos
    have hused : ∀ {j : Nat} {c : DiskCandidate}, candidates[j]? = some c →
        (j ∈ takings ∅ (((outcomes candidates key (slots.take (walked slots out)) []).map
          (Option.map UInt32.toNat)).take i) ↔
        ∃ i' < i, (placeRedundancy candidates key slots out).2[i']? = some (UInt32.ofNat j)) :=
      fun hc => mem_takings_iff hwl hi.le (List.getElem?_eq_some_iff.mp hc).1
    cases o with
    | none => exact slotPlaced_unplaced hused hpick
    | some u => exact slotPlaced_of_picks hwl (outcomes_ne_unplaced hwl (List.mem_of_getElem? ho)) hused hpick

/-- Two HDDs and an SSD. -/
def threeDisks : List DiskCandidate :=
  [⟨0, 1, 1000, 1, classHdd⟩, ⟨0, 2, 1000, 1, classHdd⟩, ⟨0, 3, 1000, 1, classSsd⟩]

/-- An SSD slot, a slot pinned to disk 1, and an unconstrained one. -/
def threeSlots : List ReplicaSlotSpec := [⟨classSsd, 0, 0, 0⟩, ⟨classAny, 1, 0, 1⟩, ⟨classAny, 0, 0, 0⟩]

theorem placeRedundancy_sound_maximal_threeDisks :
    ∃ u, (placeRedundancy threeDisks 7 threeSlots [0, 0, 0]).2[0]? = some u ∧
      SlotPlaced threeDisks 7 (placeRedundancy threeDisks 7 threeSlots [0, 0, 0]).2 0 ⟨classSsd, 0, 0, 0⟩ u :=
  (placeRedundancy_sound_maximal (by decide) (by decide)).2.2.2.2 0 ⟨classSsd, 0, 0, 0⟩ (by decide) rfl

/-! ## The disks selected -/

/-- The disks a call selected, slot by slot (`none` for an unplaced slot). -/
def placedDisks (candidates : List DiskCandidate) (r : Nat × List UInt32) : List (Option DiskCandidate) :=
  (r.2.take r.1).map (fun u => if u = unplaced then none else candidates[u.toNat]?)

/-- The set of disks a call selected. -/
def selectedDisks (candidates : List DiskCandidate) (r : Nat × List UInt32) : Set DiskCandidate :=
  {c | some c ∈ placedDisks candidates r}

/-- The number of slots a call left unplaced. -/
def unplacedSlots (r : Nat × List UInt32) : Nat := (r.2.take r.1).count unplaced

/-- The active candidates, as a set. -/
def activeDisks (candidates : List DiskCandidate) : Set DiskCandidate :=
  {c | c ∈ candidates ∧ c.active ≠ 0}

/-- The candidate at an index. -/
def diskAt (candidates : List DiskCandidate) (i : Nat) : DiskCandidate := candidates[i]?.getD ⟨0, 0, 0, 0, 0⟩

theorem diskAt_eq {i : Nat} {c : DiskCandidate} (h : candidates[i]? = some c) : diskAt candidates i = c := by
  rw [diskAt, h, Option.getD_some]

theorem image_diskAt_pool : diskAt candidates '' pool candidates = activeDisks candidates := by
  ext c
  constructor
  · rintro ⟨i, ⟨c', hc', hact⟩, rfl⟩
    rw [diskAt_eq hc']
    exact ⟨List.mem_of_getElem? hc', hact⟩
  · rintro ⟨hmem, hact⟩
    obtain ⟨i, hi⟩ := List.mem_iff_getElem?.mp hmem
    exact ⟨i, ⟨c, hi, hact⟩, diskAt_eq hi⟩

/-- The index a slot was served with is that of a listed candidate. -/
theorem exists_of_mem_outcomes (hwl : WellListed candidates) {slots : List ReplicaSlotSpec} {u : UInt32}
    (hu : some u ∈ outcomes candidates key slots []) : ∃ c, candidates[u.toNat]? = some c := by
  have hg := outcomes_greedy hwl key slots [] ∅ (by simp)
  obtain ⟨i, hi⟩ := List.mem_iff_getElem?.mp
    (List.mem_map.mpr ⟨some u, hu, rfl⟩ :
      some u.toNat ∈ (outcomes candidates key slots []).map (Option.map UInt32.toNat))
  obtain ⟨_, _, ⟨c, hc, -⟩, -⟩ := hg.mem_pool hi
  exact ⟨c, hc⟩

/-- The disks the slots are served with, slot by slot. -/
def outcomeDisks (candidates : List DiskCandidate) (key : UInt64) (slots : List ReplicaSlotSpec) :
    List (Option DiskCandidate) :=
  ((outcomes candidates key slots []).map (Option.map UInt32.toNat)).map (Option.map (diskAt candidates))

/-- **Serving the slots is a greedy run over the candidates themselves**, wherever they are listed. -/
theorem outcomeDisks_greedy (hwl : WellListed candidates) (key : UInt64) (slots : List ReplicaSlotSpec) :
    Greedy (rankKey key) (activeDisks candidates) ∅ (slots.map ReplicaSlotSpec.Accepts)
      (outcomeDisks candidates key slots) := by
  have hg := outcomes_greedy hwl key slots [] ∅ (by simp)
  rw [outcomeDisks, ← image_diskAt_pool, ← Set.image_empty (diskAt candidates)]
  refine hg.map ?_ ?_ (Set.empty_subset _) ?_
  · rintro i ⟨c, hc, -⟩ j ⟨c', hc', -⟩ h
    rw [diskAt_eq hc, diskAt_eq hc'] at h
    exact hwl.index_inj hc hc' (by rw [h])
  · rintro i ⟨c, hc, -⟩
    rw [diskAt_eq hc, rankAt_eq hc]
  · rw [List.forall₂_map_left_iff, List.forall₂_map_right_iff, List.forall₂_same]
    rintro slot - i ⟨c, hc, -⟩
    rw [diskAt_eq hc]
    constructor
    · intro hacc; exact ⟨c, hc, hacc⟩
    · rintro ⟨c', hc', hacc⟩
      obtain rfl : c = c' := by rw [hc] at hc'; exact Option.some.inj hc'
      exact hacc

/-- The selected disks, from the outcomes. -/
theorem placedDisks_eq (hwl : WellListed candidates) :
    placedDisks candidates (placeRedundancy candidates key slots out) =
      outcomeDisks candidates key (slots.take (walked slots out)) := by
  rw [placedDisks, placeRedundancy_fst, take_placeRedundancy, outcomeDisks, List.map_map, List.map_map]
  apply List.map_congr_left
  intro o ho
  cases o with
  | none => simp
  | some u =>
      have hne : u ≠ unplaced := outcomes_ne_unplaced hwl ho
      obtain ⟨c, hc⟩ := exists_of_mem_outcomes hwl ho
      simp [hne, hc, diskAt_eq hc]

/-- **The selected disks are a greedy run over the candidates themselves.** -/
theorem placedDisks_greedy (hwl : WellListed candidates) (key : UInt64) (slots : List ReplicaSlotSpec)
    (out : List UInt32) :
    Greedy (rankKey key) (activeDisks candidates) ∅
      ((slots.take (walked slots out)).map ReplicaSlotSpec.Accepts)
      (placedDisks candidates (placeRedundancy candidates key slots out)) := by
  rw [placedDisks_eq hwl]
  exact outcomeDisks_greedy hwl key (slots.take (walked slots out))

/-- Unplaced slots are the unserved requests. -/
theorem unserved_placedDisks (hwl : WellListed candidates) :
    unserved (placedDisks candidates (placeRedundancy candidates key slots out)) =
      unplacedSlots (placeRedundancy candidates key slots out) := by
  rw [placedDisks_eq hwl, unplacedSlots, placeRedundancy_fst, take_placeRedundancy, outcomeDisks, unserved,
    List.count, List.countP_map, List.countP_map, List.countP_map]
  apply List.countP_congr
  intro o ho
  cases o with
  | none => simp
  | some u => simpa using outcomes_ne_unplaced hwl ho

/-- Two listed disks with the same id are the same disk. -/
theorem WellListed.eq_of_id (hwl : WellListed candidates) {a b : DiskCandidate} (ha : a ∈ candidates)
    (hb : b ∈ candidates) (hid : a.id = b.id) : a = b := by
  obtain ⟨i, hi⟩ := List.mem_iff_getElem?.mp ha
  obtain ⟨j, hj⟩ := List.mem_iff_getElem?.mp hb
  obtain rfl := hwl.index_inj hi hj hid
  rw [hi] at hj
  exact Option.some.inj hj

/-- Two listed disks with the same rank are the same disk. -/
theorem WellListed.rankKey_injOn (hwl : WellListed candidates) (key : UInt64) :
    Set.InjOn (rankKey key) (activeDisks candidates) := fun _ ha _ hb h => hwl.eq_of_id ha.1 hb.1 (rankKey_inj h)

/-! ## Which policies are always placed -/

/-- Some injective assignment of active candidates meets every slot. -/
def Satisfiable (candidates : List DiskCandidate) (slots : List ReplicaSlotSpec) : Prop :=
  ∃ assign : Fin slots.length → Nat, Function.Injective assign ∧
    ∀ i, ∃ c, candidates[assign i]? = some c ∧ c.active ≠ 0 ∧ slots[i].Accepts c

/-- The active candidates a slot accepts. -/
def acceptedDisks (candidates : List DiskCandidate) (slot : ReplicaSlotSpec) : List DiskCandidate :=
  candidates.filter fun c => c.active ≠ 0 ∧ slot.Accepts c

/-- The slots among `earlier` that accept one of the same active candidates. -/
def slotRivals (candidates : List DiskCandidate) (earlier : List ReplicaSlotSpec) (slot : ReplicaSlotSpec) : Nat :=
  earlier.countP fun s => (acceptedDisks candidates slot).any fun c => s.Accepts c

/-- Every slot accepts more active candidates than it has rivals before it. -/
def SlotsRoomy (candidates : List DiskCandidate) (slots : List ReplicaSlotSpec) : Prop :=
  ∀ i slot, slots[i]? = some slot →
    slotRivals candidates (slots.take i) slot < (acceptedDisks candidates slot).length

/-- Every slot was placed. -/
def AllPlaced (slots : List ReplicaSlotSpec) (r : Nat × List UInt32) : Prop :=
  r.1 = slots.length ∧ ∀ u ∈ r.2.take slots.length, u ≠ unplaced

/-- For this key, the slots before the `i`-th reach into its candidates: those that share one accept no others, or the
    slot's candidates rank above all others. -/
def Reached (candidates : List DiskCandidate) (key : UInt64) (slots : List ReplicaSlotSpec) (i : Nat)
    (slot : ReplicaSlotSpec) : Prop :=
  (∀ s ∈ slots.take i, (∃ c ∈ acceptedDisks candidates slot, s.Accepts c) →
    ∀ c ∈ acceptedDisks candidates s, slot.Accepts c) ∨
  ∀ c ∈ acceptedDisks candidates slot, ∀ c' ∈ activeDisks candidates, ¬slot.Accepts c' → rankKey key c' < rankKey key c

instance (candidates : List DiskCandidate) (key : UInt64) (slots : List ReplicaSlotSpec) (i : Nat) (slot : ReplicaSlotSpec) :
    Decidable (Reached candidates key slots i slot) :=
  decidable_of_iff
    ((∀ s ∈ slots.take i, (∃ c ∈ acceptedDisks candidates slot, s.Accepts c) →
        ∀ c ∈ acceptedDisks candidates s, slot.Accepts c) ∨
      ∀ c ∈ acceptedDisks candidates slot, ∀ c' ∈ candidates, c'.active ≠ 0 → ¬slot.Accepts c' →
        rankKey key c' < rankKey key c)
    (by simp only [Reached, activeDisks, Set.mem_ofPred_eq, and_imp])

theorem mem_acceptedDisks {slot : ReplicaSlotSpec} {c : DiskCandidate} :
    c ∈ acceptedDisks candidates slot ↔ c ∈ activeDisks candidates ∧ slot.Accepts c := by
  simp [acceptedDisks, activeDisks, and_assoc]

theorem card_acceptedDisks (hwl : WellListed candidates) (slot : ReplicaSlotSpec) :
    (acceptedDisks candidates slot).toFinset.card = (acceptedDisks candidates slot).length := by
  refine List.toFinset_card_of_nodup (List.Nodup.filter _ ?_)
  exact hwl.distinct.imp fun hid heq => hid (congrArg DiskCandidate.id heq)

/-- The rivals of a slot, as those of the request it makes. -/
theorem card_slotRivals {i : Nat} (slot : ReplicaSlotSpec) (hi : i ≤ slots.length) :
    (rivals (slots.map ReplicaSlotSpec.Accepts) (acceptedDisks candidates slot).toFinset i).card =
      slotRivals candidates (slots.take i) slot := by
  refine card_rivals_map (fun s => ?_) hi
  simp [List.any_eq_true]

/-- Two slots with an active candidate in common: one of them accepts all the other does. -/
theorem accepts_nested (hwl : WellListed candidates) {s t : ReplicaSlotSpec} {c : DiskCandidate}
    (hc : c ∈ activeDisks candidates) (hs : s.Accepts c) (ht : t.Accepts c) :
    (∀ d ∈ activeDisks candidates, s.Accepts d → t.Accepts d) ∨
    (∀ d ∈ activeDisks candidates, t.Accepts d → s.Accepts d) := by
  -- a pinned slot accepts one candidate, the common one
  have hpin : ∀ {s t : ReplicaSlotSpec}, s.pinned ≠ 0 → s.Accepts c → t.Accepts c →
      ∀ d ∈ activeDisks candidates, s.Accepts d → t.Accepts d := by
    intro s t hp hs ht d hd hsd
    rw [ReplicaSlotSpec.Accepts, if_pos hp] at hs hsd
    obtain rfl : d = c := hwl.eq_of_id hd.1 hc.1 (hsd.trans hs.symm)
    exact ht
  by_cases hps : s.pinned = 0
  · by_cases hpt : t.pinned = 0
    · simp only [ReplicaSlotSpec.Accepts, hps, hpt, ne_eq, not_true_eq_false, if_false] at hs ht ⊢
      rcases hs with hs | hs
      · exact Or.inr fun _ _ _ => Or.inl hs
      · rcases ht with ht | ht
        · exact Or.inl fun _ _ _ => Or.inl ht
        · rw [← hs, ← ht]
          exact Or.inl fun _ _ hd => hd
    · exact Or.inr (hpin hpt ht hs)
  · exact Or.inl (hpin hps hs ht)

/-- All slots are placed exactly if the run serves all of them. -/
theorem allPlaced_iff (hwl : WellListed candidates) (hslots : slots.length ≤ 16) (hout : slots.length ≤ out.length) :
    AllPlaced slots (placeRedundancy candidates key slots out) ↔ ∀ o ∈ outcomeDisks candidates key slots, o ≠ none := by
  have hn : walked slots out = slots.length := by
    unfold walked maxSelect
    omega
  have htake : (placeRedundancy candidates key slots out).2.take slots.length =
      (outcomes candidates key slots []).map (·.getD unplaced) := by
    have h := take_placeRedundancy key candidates slots out
    rwa [hn, List.take_length] at h
  unfold AllPlaced outcomeDisks
  rw [placeRedundancy_fst, hn, htake]
  simp only [true_and, List.forall_mem_map]
  constructor
  · intro h o ho hnone
    refine h o ho ?_
    cases o with
    | none => rfl
    | some u => simp at hnone
  · intro h o ho
    cases o with
    | none => exact absurd rfl (h none ho)
    | some u => exact outcomes_ne_unplaced hwl ho

/-- The request a slot makes. -/
theorem getElem?_requests {i : Nat} {slot : ReplicaSlotSpec} (hslot : slots[i]? = some slot) :
    (slots.map ReplicaSlotSpec.Accepts)[i]? = some slot.Accepts := by
  rw [List.getElem?_map, hslot]
  rfl

/-- With room every slot is placed, whatever the key. -/
theorem SlotsRoomy.allPlaced (hroom : SlotsRoomy candidates slots) (hwl : WellListed candidates)
    (hslots : slots.length ≤ 16) (hout : slots.length ≤ out.length) (key : UInt64) :
    AllPlaced slots (placeRedundancy candidates key slots out) := by
  refine (allPlaced_iff hwl hslots hout).mpr ?_
  rintro o ho rfl
  have hg := outcomeDisks_greedy hwl key slots
  obtain ⟨i, hi⟩ := List.mem_iff_getElem?.mp ho
  have hlt := (List.getElem?_eq_some_iff.mp hi).1
  rw [hg.length_eq, List.length_map] at hlt
  have hslot := List.getElem?_eq_getElem hlt
  refine hg.serves_of_room (getElem?_requests hslot) (T := (acceptedDisks candidates slots[i]).toFinset) ?_ ?_ hi
  · exact fun c hc => mem_acceptedDisks.mp (List.mem_toFinset.mp hc)
  · rw [card_slotRivals _ hlt.le, card_acceptedDisks hwl]
    exact hroom i _ hslot

/-- A slot that is placed for a key that reaches it has room: each rival before it takes one of its candidates, for want
    of others or because they rank first. -/
theorem room_of_reached (hwl : WellListed candidates) {i : Nat} {slot : ReplicaSlotSpec} (hslot : slots[i]? = some slot)
    (hreach : Reached candidates key slots i slot) (hall : ∀ o ∈ outcomeDisks candidates key slots, o ≠ none) :
    slotRivals candidates (slots.take i) slot < (acceptedDisks candidates slot).length := by
  have hi := (List.getElem?_eq_some_iff.mp hslot).1
  rw [← card_slotRivals _ hi.le, ← card_acceptedDisks hwl]
  refine (outcomeDisks_greedy hwl key slots).room_of_served hall (getElem?_requests hslot) (fun c => ?_) ?_
  · rw [List.mem_toFinset, mem_acceptedDisks]
  · rintro j hj q hq ⟨c, hc, hqc⟩
    rw [List.getElem?_map] at hq
    obtain ⟨s, hs, rfl⟩ := Option.map_eq_some_iff.mp hq
    have hmem := List.mem_toFinset.mp hc
    obtain ⟨hactive, hacc⟩ := mem_acceptedDisks.mp hmem
    rcases accepts_nested hwl hactive hqc hacc with hnarrow | hwide
    · exact Or.inl hnarrow
    · rcases hreach with hnested | hfirst
      · refine Or.inl fun d hd hsd => hnested s ?_ ⟨c, hmem, hqc⟩ d (mem_acceptedDisks.mpr ⟨hd, hsd⟩)
        exact List.mem_of_getElem? (by rw [List.getElem?_take_of_lt hj]; exact hs)
      · refine Or.inr ⟨hwide, fun d hd d' hd' hacc hno => ?_⟩
        exact hfirst d (mem_acceptedDisks.mpr ⟨hd, hacc⟩) d' hd' hno

/-- **With room every slot is placed, whatever the key**; and where the earlier slots reach into the candidates of each
    slot, for some key, nothing less will do. -/
theorem placeRedundancy_complete (hlen : candidates.length < 2 ^ 32 - 1)
    (hids : candidates.Pairwise (fun a b => a.id ≠ b.id)) (hslots : slots.length ≤ 16) (hout : slots.length ≤ out.length) :
    (SlotsRoomy candidates slots → ∀ key, AllPlaced slots (placeRedundancy candidates key slots out)) ∧
    ((∀ i slot, slots[i]? = some slot → ∃ key, Reached candidates key slots i slot) →
      (∀ key, AllPlaced slots (placeRedundancy candidates key slots out)) → SlotsRoomy candidates slots) := by
  have hwl : WellListed candidates := ⟨hlen, hids⟩
  refine ⟨fun hroom key => hroom.allPlaced hwl hslots hout key, fun hreached hplaced i slot hslot => ?_⟩
  obtain ⟨key, hreach⟩ := hreached i slot hslot
  exact room_of_reached hwl hslot hreach ((allPlaced_iff hwl hslots hout).mp (hplaced key))

/-- No slot precedes a narrower one it overlaps: the active disks an earlier slot accepts are all accepted by a
    later slot, or none of them is. Pinned slots first, then class slots, then unconstrained ones is such an
    order. -/
def SlotsNarrowFirst (candidates : List DiskCandidate) (slots : List ReplicaSlotSpec) : Prop :=
  ∀ (i j : Nat) (s t : ReplicaSlotSpec), i < j → slots[i]? = some s → slots[j]? = some t →
    (∀ c ∈ candidates, c.active ≠ 0 → s.Accepts c → t.Accepts c) ∨
    (∀ c ∈ candidates, c.active ≠ 0 → s.Accepts c → ¬t.Accepts c)

/-- **A satisfiable policy whose narrow slots come first has room.** -/
theorem roomy_of_satisfiable (hwl : WellListed candidates) (hord : SlotsNarrowFirst candidates slots)
    (hsat : Satisfiable candidates slots) : SlotsRoomy candidates slots := by
  intro i slot hslot
  obtain ⟨assign, hinj, hserves⟩ := hsat
  have hi := (List.getElem?_eq_some_iff.mp hslot).1
  rw [← card_slotRivals _ hi.le, ← card_acceptedDisks hwl]
  have hnarrow : NarrowFirst (activeDisks candidates) (slots.map ReplicaSlotSpec.Accepts) := by
    intro j k p q hjk hp hq
    rw [List.getElem?_map, Option.map_eq_some_iff] at hp hq
    obtain ⟨s, hs, rfl⟩ := hp
    obtain ⟨t, ht, rfl⟩ := hq
    exact (hord j k s t hjk hs ht).imp (fun h c hc => h c hc.1 hc.2) (fun h c hc => h c hc.1 hc.2)
  refine room_of_narrowFirst hnarrow
    (fun j => if hj : j < slots.length then diskAt candidates (assign ⟨j, hj⟩) else diskAt candidates 0) ?_ ?_
    (getElem?_requests hslot) (fun c => ?_)
  · intro j hj k hk h
    rw [Set.mem_ofPred_eq, List.length_map] at hj hk
    simp only [dif_pos hj, dif_pos hk] at h
    obtain ⟨c, hc, -⟩ := hserves ⟨j, hj⟩
    obtain ⟨d, hd, -⟩ := hserves ⟨k, hk⟩
    rw [diskAt_eq hc, diskAt_eq hd] at h
    exact congrArg Fin.val (hinj (hwl.index_inj hc hd (congrArg DiskCandidate.id h)))
  · intro j q hq
    rw [List.getElem?_map, Option.map_eq_some_iff] at hq
    obtain ⟨s, hs, rfl⟩ := hq
    obtain ⟨hj, rfl⟩ := List.getElem?_eq_some_iff.mp hs
    obtain ⟨c, hc, hact, hacc⟩ := hserves ⟨j, hj⟩
    rw [dif_pos hj, diskAt_eq hc]
    exact ⟨⟨List.mem_of_getElem? hc, hact⟩, hacc⟩
  · rw [List.mem_toFinset, mem_acceptedDisks]

/-- An unconstrained slot before an SSD slot: two SSDs leave room for both, and one does not, since key 0 ranks it
    first. -/
theorem placeRedundancy_complete_twoSsds :
    AllPlaced [⟨classAny, 0, 0, 0⟩, ⟨classSsd, 0, 0, 0⟩]
        (placeRedundancy [⟨0, 1, 1000, 1, classSsd⟩, ⟨0, 2, 1000, 1, classHdd⟩, ⟨0, 3, 1000, 1, classSsd⟩] 0
          [⟨classAny, 0, 0, 0⟩, ⟨classSsd, 0, 0, 0⟩] [0, 0]) ∧
      ¬∀ key, AllPlaced [⟨classAny, 0, 0, 0⟩, ⟨classSsd, 0, 0, 0⟩]
        (placeRedundancy [⟨0, 1, 1000, 1, classHdd⟩, ⟨0, 2, 1000, 1, classSsd⟩] key
          [⟨classAny, 0, 0, 0⟩, ⟨classSsd, 0, 0, 0⟩] [0, 0]) := by
  constructor
  · refine (placeRedundancy_complete (by decide) (by decide) (by decide) (by decide)).1 ?_ 0
    intro i slot hslot
    match i with
    | 0 =>
        obtain rfl := Option.some.inj hslot
        decide
    | 1 =>
        obtain rfl := Option.some.inj hslot
        decide
    | i + 2 => cases hslot
  · intro hall
    have hroom := (placeRedundancy_complete (by decide) (by decide) (by decide) (by decide)).2 ?_ hall
    · exact absurd (hroom 1 _ rfl) (by decide)
    · intro i slot hslot
      match i with
      | 0 =>
          obtain rfl := Option.some.inj hslot
          exact ⟨0, by decide +kernel⟩
      | 1 =>
          obtain rfl := Option.some.inj hslot
          exact ⟨0, by decide +kernel⟩
      | i + 2 => cases hslot

/-- **Order matters.** Two disks, an unconstrained slot followed by one pinned to disk 2: assigning disk 1 to
    the first slot satisfies the policy, but for key 0 the first slot takes disk 2 and the second is left
    `unplaced`. -/
theorem placeRedundancy_misses_satisfiable :
    ¬∀ (candidates : List DiskCandidate) (key : UInt64) (slots : List ReplicaSlotSpec) (out : List UInt32),
      candidates.Pairwise (fun a b => a.id ≠ b.id) → slots.length ≤ 16 → slots.length ≤ out.length →
      Satisfiable candidates slots →
      ∀ u ∈ (placeRedundancy candidates key slots out).2.take slots.length, u ≠ unplaced := by
  intro h
  have hsat : Satisfiable [⟨0, 1, 1000, 1, classHdd⟩, ⟨0, 2, 1000, 1, classHdd⟩]
      [⟨classAny, 0, 0, 0⟩, ⟨classAny, 1, 0, 2⟩] :=
    ⟨fun i => i.val, by decide, by decide⟩
  have hall := h [⟨0, 1, 1000, 1, classHdd⟩, ⟨0, 2, 1000, 1, classHdd⟩] 0
    [⟨classAny, 0, 0, 0⟩, ⟨classAny, 1, 0, 2⟩] [0, 0] (by decide) (by decide) (by decide) hsat
  exact hall unplaced (by decide +kernel) rfl

/-! ## Minimal disruption -/

/-- **Minimal disruption.** Inserting one active disk `d` anywhere in the candidate list changes the set of
    selected disks `P` to `P`, to `P` plus `d`, or to `P` plus `d` minus exactly one disk of `P`; and no more
    slots are left unplaced. -/
theorem placeRedundancy_minimal_disruption {before after : List DiskCandidate} {d : DiskCandidate}
    (hlen : (before ++ d :: after).length < 2 ^ 32 - 1)
    (hids : (before ++ d :: after).Pairwise (fun a b => a.id ≠ b.id)) (hact : d.active ≠ 0) :
    (selectedDisks (before ++ d :: after) (placeRedundancy (before ++ d :: after) key slots out) =
        selectedDisks (before ++ after) (placeRedundancy (before ++ after) key slots out) ∨
      selectedDisks (before ++ d :: after) (placeRedundancy (before ++ d :: after) key slots out) =
        insert d (selectedDisks (before ++ after) (placeRedundancy (before ++ after) key slots out)) ∨
      ∃ x ∈ selectedDisks (before ++ after) (placeRedundancy (before ++ after) key slots out),
        selectedDisks (before ++ d :: after) (placeRedundancy (before ++ d :: after) key slots out) =
          insert d (selectedDisks (before ++ after) (placeRedundancy (before ++ after) key slots out) \ {x})) ∧
    unplacedSlots (placeRedundancy (before ++ d :: after) key slots out) ≤
      unplacedSlots (placeRedundancy (before ++ after) key slots out) := by
  have hsub : (before ++ after).Sublist (before ++ d :: after) :=
    (List.sublist_cons_self d after).append_left before
  have hwl' : WellListed (before ++ d :: after) := ⟨hlen, hids⟩
  have hwl : WellListed (before ++ after) := ⟨lt_of_le_of_lt hsub.length_le hlen, hids.sublist hsub⟩
  have hperm : (d :: (before ++ after)).Perm (before ++ d :: after) := List.perm_middle.symm
  -- the larger listing has one active disk more, and the two walks are greedy runs over these sets
  have hactive : activeDisks (before ++ d :: after) = insert d (activeDisks (before ++ after)) := by
    ext c
    simp only [activeDisks, Set.mem_ofPred_eq, Set.mem_insert_iff, ← hperm.mem_iff, List.mem_cons]
    constructor
    · rintro ⟨rfl | hmem, hc⟩
      · exact Or.inl rfl
      · exact Or.inr ⟨hmem, hc⟩
    · rintro (rfl | ⟨hmem, hc⟩)
      · exact ⟨Or.inl rfl, hact⟩
      · exact ⟨Or.inr hmem, hc⟩
  have hnew : d ∉ activeDisks (before ++ after) := by
    rintro ⟨hmem, -⟩
    have hpw : (d :: (before ++ after)).Pairwise (fun a b => a.id ≠ b.id) :=
      hids.perm hperm.symm (fun h => Ne.symm h)
    exact (List.pairwise_cons.mp hpw).1 d hmem rfl
  have hinj := hwl'.rankKey_injOn key
  have hg := placedDisks_greedy hwl key slots out
  have hg' := placedDisks_greedy hwl' key slots out
  rw [hactive] at hinj hg'
  obtain ⟨hdisp, hcount⟩ := hg.insert_pool hnew hinj hg' (Set.empty_subset _) (.same rfl)
  rw [unserved_placedDisks hwl, unserved_placedDisks hwl'] at hcount
  have htake : ∀ l : List (Option DiskCandidate), takings ∅ l = {c | some c ∈ l} := by
    intro l; ext c; simp [takings]
  rw [htake, htake] at hdisp
  refine ⟨?_, hcount⟩
  cases hdisp with
  | same heq => exact Or.inl heq
  | added heq => exact Or.inr (Or.inl heq)
  | swapped x hx heq => exact Or.inr (Or.inr ⟨x, hx, heq⟩)

/-- Disk 2 joins disks 1 and 3. -/
theorem placeRedundancy_minimal_disruption_threeDisks :
    unplacedSlots (placeRedundancy threeDisks 7 threeSlots [0, 0, 0]) ≤
      unplacedSlots (placeRedundancy [⟨0, 1, 1000, 1, classHdd⟩, ⟨0, 3, 1000, 1, classSsd⟩] 7 threeSlots
        [0, 0, 0]) := by
  have hlen : ([⟨0, 1, 1000, 1, classHdd⟩] ++ ⟨0, 2, 1000, 1, classHdd⟩ :: [⟨0, 3, 1000, 1, classSsd⟩] :
      List DiskCandidate).length < 2 ^ 32 - 1 := by decide
  exact (placeRedundancy_minimal_disruption hlen (by decide) (by decide)).2

end Tartine.Kcore
