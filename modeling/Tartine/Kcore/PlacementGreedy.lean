import Tartine.Kcore.Placement
import Tartine.Basis.Greedy

/-!
# `Kcore.PlacementGreedy` — `place_redundancy` is the greedy process

The code walks a slot list with a `u32` scratch array; the abstract process (`Basis.Greedy`) serves requests
from a ranked pool. This module connects the two; `Kcore.PlacementGuarantees` reads the guarantees off the abstract side.

* `chooseSlot_picks` — one slot's choice is the best active, unused candidate it accepts;
* `outcomes_greedy` — the whole walk is a greedy run over candidate *indices*;
* `placeRedundancy_snd` — and its outcomes are what the buffer holds.

Throughout, candidate lists have fewer than `2^32 - 1` entries (the source relies on it: an index is stored as
`u32` and `u32::MAX` is the `UNPLACED` sentinel) and pairwise distinct ids.
-/

namespace Tartine.Kcore

open Basis

/-! ## The inner loop keeps the best eligible candidate -/

/-- The candidates the selection loop does not skip. -/
def Eligible (excluded : List UInt32) (requiredClass : UInt8) (ci : DiskCandidate × Nat) : Prop :=
  ci.1.active ≠ 0 ∧ UInt32.ofNat ci.2 ∉ excluded ∧ (requiredClass = classAny ∨ ci.1.cls = requiredClass)

/-- The loop invariant: `best` is the highest-ranked eligible candidate seen so far. -/
def BestOf (key : UInt64) (excluded : List UInt32) (requiredClass : UInt8)
    (seen : List (DiskCandidate × Nat)) : Option Ranked → Prop
  | none   => ∀ ci ∈ seen, ¬Eligible excluded requiredClass ci
  | some b => ∃ ci ∈ seen, Eligible excluded requiredClass ci ∧ b = rank key ci.2 ci.1 ∧
      ∀ ci' ∈ seen, Eligible excluded requiredClass ci' → rankKey key ci'.1 ≤ rankKey key ci.1

variable {key : UInt64} {excluded : List UInt32} {requiredClass : UInt8}

/-- An ineligible candidate leaves the best one in place. -/
theorem selectStep_skip {best : Option Ranked} {ci : DiskCandidate × Nat}
    (h : ¬Eligible excluded requiredClass ci) : selectStep key excluded requiredClass best ci = best := by
  unfold selectStep
  by_cases hact : ci.1.active = 0
  · rw [if_pos hact]
  · rw [if_neg hact]
    by_cases hex : excluded.contains (UInt32.ofNat ci.2) = true
    · rw [if_pos hex]
    · rw [if_neg hex]
      have hcls : requiredClass ≠ classAny ∧ ci.1.cls ≠ requiredClass := by
        by_contra hc
        apply h
        refine ⟨hact, by simpa using hex, ?_⟩
        by_cases hany : requiredClass = classAny
        · exact Or.inl hany
        · exact Or.inr (by_contra fun hne => hc ⟨hany, hne⟩)
      rw [if_pos hcls]

/-- An eligible candidate is compared with the best one. -/
theorem selectStep_eligible {best : Option Ranked} {ci : DiskCandidate × Nat}
    (h : Eligible excluded requiredClass ci) :
    selectStep key excluded requiredClass best ci =
      match best with
      | none   => some (rank key ci.2 ci.1)
      | some b => if beats (rank key ci.2 ci.1) b then some (rank key ci.2 ci.1) else some b := by
  obtain ⟨hact, hex, hcls⟩ := h
  have hex' : ¬excluded.contains (UInt32.ofNat ci.2) = true := by simpa using hex
  have hcls' : ¬(requiredClass ≠ classAny ∧ ci.1.cls ≠ requiredClass) := by
    rintro ⟨hne, hne'⟩
    rcases hcls with h | h
    · exact hne h
    · exact hne' h
  exact (if_neg hact).trans ((if_neg hex').trans (if_neg hcls'))

/-- **One turn of the loop keeps the invariant.** -/
theorem BestOf.step {seen : List (DiskCandidate × Nat)} {best : Option Ranked}
    (h : BestOf key excluded requiredClass seen best) (ci : DiskCandidate × Nat) :
    BestOf key excluded requiredClass (seen ++ [ci]) (selectStep key excluded requiredClass best ci) := by
  by_cases hel : Eligible excluded requiredClass ci
  · rw [selectStep_eligible hel]
    cases best with
    | none =>
        refine ⟨ci, by simp, hel, rfl, ?_⟩
        intro ci' hci' hel'
        rcases List.mem_append.mp hci' with hold | hnew
        · exact absurd hel' (h ci' hold)
        · rw [List.mem_singleton.mp hnew]
    | some b =>
        obtain ⟨cb, hcb, helb, rfl, hmax⟩ := h
        by_cases hbeat : beats (rank key ci.2 ci.1) (rank key cb.2 cb.1) = true
        · simp only [hbeat, if_true]
          have hlt : rankKey key cb.1 < rankKey key ci.1 := beats_iff.mp hbeat
          refine ⟨ci, by simp, hel, rfl, ?_⟩
          intro ci' hci' hel'
          rcases List.mem_append.mp hci' with hold | hnew
          · exact le_trans (hmax ci' hold hel') hlt.le
          · rw [List.mem_singleton.mp hnew]
        · simp only [hbeat]
          have hle : rankKey key ci.1 ≤ rankKey key cb.1 := not_lt.mp (mt beats_iff.mpr hbeat)
          refine ⟨cb, List.mem_append_left _ hcb, helb, rfl, ?_⟩
          intro ci' hci' hel'
          rcases List.mem_append.mp hci' with hold | hnew
          · exact hmax ci' hold hel'
          · rw [List.mem_singleton.mp hnew]; exact hle
  · rw [selectStep_skip hel]
    cases best with
    | none =>
        intro ci' hci'
        rcases List.mem_append.mp hci' with hold | hnew
        · exact h ci' hold
        · rw [List.mem_singleton.mp hnew]; exact hel
    | some b =>
        obtain ⟨cb, hcb, helb, hb, hmax⟩ := h
        refine ⟨cb, List.mem_append_left _ hcb, helb, hb, ?_⟩
        intro ci' hci' hel'
        rcases List.mem_append.mp hci' with hold | hnew
        · exact hmax ci' hold hel'
        · rw [List.mem_singleton.mp hnew] at hel'; exact absurd hel' hel

/-- The whole loop, from any invariant state. -/
theorem BestOf.foldl {seen : List (DiskCandidate × Nat)} {best : Option Ranked}
    (h : BestOf key excluded requiredClass seen best) (rest : List (DiskCandidate × Nat)) :
    BestOf key excluded requiredClass (seen ++ rest)
      (rest.foldl (selectStep key excluded requiredClass) best) := by
  induction rest generalizing seen best with
  | nil => simpa using h
  | cons ci rest ih =>
      have := ih (h.step ci)
      rwa [List.append_assoc] at this

/-! ## One slot: the abstract pick -/

/-- The pool: indices of active candidates. -/
def pool (candidates : List DiskCandidate) : Set Nat :=
  {i | ∃ c, candidates[i]? = some c ∧ c.active ≠ 0}

/-- The rank of the candidate at an index. -/
def rankAt (key : UInt64) (candidates : List DiskCandidate) (i : Nat) : ℕ ×ₗ ℕ ×ₗ ℕ ×ₗ ℕ :=
  rankKey key (candidates[i]?.getD ⟨0, 0, 0, 0, 0⟩)

/-- The request a slot makes, on candidate indices. -/
def slotAt (candidates : List DiskCandidate) (slot : ReplicaSlotSpec) (i : Nat) : Prop :=
  ∃ c, candidates[i]? = some c ∧ slot.Accepts c

/-- Candidate lists the source expects: short enough for `u32` indices, ids pairwise distinct. -/
structure WellListed (candidates : List DiskCandidate) : Prop where
  short : candidates.length < 2 ^ 32 - 1
  distinct : candidates.Pairwise (fun a b => a.id ≠ b.id)

variable {candidates : List DiskCandidate}

theorem rankAt_eq {i : Nat} {c : DiskCandidate} (h : candidates[i]? = some c) :
    rankAt key candidates i = rankKey key c := by
  rw [rankAt, h, Option.getD_some]

theorem WellListed.index_lt (hwl : WellListed candidates) {i : Nat} {c : DiskCandidate}
    (h : candidates[i]? = some c) : i < 2 ^ 32 - 1 := by
  have := (List.getElem?_eq_some_iff.mp h).1
  have := hwl.short
  omega

/-- In range, the `u32` image of an index gives the index back. -/
theorem toNat_ofNat_index {i : Nat} (h : i < 2 ^ 32 - 1) : (UInt32.ofNat i).toNat = i := by
  rw [UInt32.toNat_ofNat']
  omega

/-- Two candidates with the same id are the same entry of the list. -/
theorem index_inj_of_distinct (hdistinct : candidates.Pairwise (fun a b => a.id ≠ b.id)) {i j : Nat}
    {c c' : DiskCandidate} (hi : candidates[i]? = some c) (hj : candidates[j]? = some c') (hid : c.id = c'.id) : i = j := by
  obtain ⟨hil, rfl⟩ := List.getElem?_eq_some_iff.mp hi
  obtain ⟨hjl, rfl⟩ := List.getElem?_eq_some_iff.mp hj
  rcases Nat.lt_trichotomy i j with hlt | heq | hgt
  · exact absurd hid (List.pairwise_iff_getElem.mp hdistinct i j hil hjl hlt)
  · exact heq
  · exact absurd hid.symm (List.pairwise_iff_getElem.mp hdistinct j i hjl hil hgt)

theorem WellListed.index_inj (hwl : WellListed candidates) {i j : Nat} {c c' : DiskCandidate}
    (hi : candidates[i]? = some c) (hj : candidates[j]? = some c') (hid : c.id = c'.id) : i = j :=
  index_inj_of_distinct hwl.distinct hi hj hid

theorem hrwSelectOne_picks (hwl : WellListed candidates) {slot : ReplicaSlotSpec} {used : Set Nat}
    (hp : slot.pinned = 0) (hused : ∀ i, i < candidates.length → (UInt32.ofNat i ∈ excluded ↔ i ∈ used)) :
    Picks (rankAt key candidates) (pool candidates) used (slotAt candidates slot)
      ((hrwSelectOne candidates key excluded slot.requiredClass).map UInt32.toNat) := by
  have hacc : ∀ c : DiskCandidate,
      slot.Accepts c ↔ slot.requiredClass = classAny ∨ c.cls = slot.requiredClass := by
    intro c
    rw [ReplicaSlotSpec.Accepts, if_neg (by simpa using hp)]
  -- an index is eligible exactly when it is available and its candidate accepted
  have hel : ∀ {i : Nat} {c : DiskCandidate}, candidates[i]? = some c →
      (Eligible excluded slot.requiredClass (c, i) ↔ c.active ≠ 0 ∧ i ∉ used ∧ slot.Accepts c) := by
    intro i c hic
    have hlt := (List.getElem?_eq_some_iff.mp hic).1
    simp only [Eligible, hused i hlt, hacc]
  have hbest : BestOf key excluded slot.requiredClass candidates.zipIdx
      (candidates.zipIdx.foldl (selectStep key excluded slot.requiredClass) none) := by
    have hnil : BestOf key excluded slot.requiredClass [] none := by intro ci hci; simp at hci
    have := hnil.foldl candidates.zipIdx
    rwa [List.nil_append] at this
  unfold hrwSelectOne
  cases hfold : candidates.zipIdx.foldl (selectStep key excluded slot.requiredClass) none with
  | none =>
      rw [hfold] at hbest
      rintro i ⟨c, hc, hact⟩ ⟨c', hc', hcls⟩
      obtain rfl : c = c' := by rw [hc] at hc'; exact Option.some.inj hc'
      by_contra hiu
      exact hbest (c, i) (List.mk_mem_zipIdx_iff_getElem?.mpr hc) ((hel hc).mpr ⟨hact, hiu, hcls⟩)
  | some b =>
      rw [hfold] at hbest
      obtain ⟨⟨c, i⟩, hmem, helig, rfl, hmax⟩ := hbest
      have hc := List.mk_mem_zipIdx_iff_getElem?.mp hmem
      obtain ⟨hact, hiu, hcls⟩ := (hel hc).mp helig
      have hidx : (UInt32.ofNat i).toNat = i := toNat_ofNat_index (hwl.index_lt hc)
      simp only [Option.map_some, rank_idx, hidx]
      refine ⟨⟨c, hc, hact⟩, ⟨c, hc, hcls⟩, hiu, ?_⟩
      rintro j ⟨c', hc', hact'⟩ ⟨c'', hc'', hcls'⟩ hju
      obtain rfl : c' = c'' := by rw [hc'] at hc''; exact Option.some.inj hc''
      rw [rankAt_eq hc, rankAt_eq hc']
      exact hmax (c', j) (List.mk_mem_zipIdx_iff_getElem?.mpr hc') ((hel hc').mpr ⟨hact', hju, hcls'⟩)

theorem findPinned_picks (hwl : WellListed candidates) {slot : ReplicaSlotSpec} {used : Set Nat}
    (hp : slot.pinned ≠ 0) (hused : ∀ i, i < candidates.length → (UInt32.ofNat i ∈ excluded ↔ i ∈ used)) :
    Picks (rankAt key candidates) (pool candidates) used (slotAt candidates slot)
      ((findPinned candidates excluded slot).map UInt32.toNat) := by
  have hacc : ∀ c : DiskCandidate, slot.Accepts c ↔ c.id = (slot.pinnedIdHi, slot.pinnedIdLo) := by
    intro c
    rw [ReplicaSlotSpec.Accepts, if_pos hp]
  unfold findPinned
  cases hfind : candidates.zipIdx.findSome? _ with
  | none =>
      rw [List.findSome?_eq_none_iff] at hfind
      rintro i ⟨c, hc, hact⟩ ⟨c', hc', hcls⟩
      obtain rfl : c = c' := by rw [hc] at hc'; exact Option.some.inj hc'
      by_contra hiu
      have hnone := hfind (c, i) (List.mk_mem_zipIdx_iff_getElem?.mpr hc)
      have hid := (hacc c).mp hcls
      have hlt := (List.getElem?_eq_some_iff.mp hc).1
      have hex : ¬excluded.contains (UInt32.ofNat i) = true := by
        simpa using mt (hused i hlt).mp hiu
      rw [if_pos ⟨hact, hex, congrArg Prod.fst hid, congrArg Prod.snd hid⟩] at hnone
      exact absurd hnone (by simp)
  | some u =>
      obtain ⟨⟨c, i⟩, hmem, hu⟩ := List.exists_of_findSome?_eq_some hfind
      have hc := List.mk_mem_zipIdx_iff_getElem?.mp hmem
      have hlt := (List.getElem?_eq_some_iff.mp hc).1
      split at hu
      · rename_i hcond
        obtain ⟨hact, hex, hhi, hlo⟩ := hcond
        have hid : c.id = (slot.pinnedIdHi, slot.pinnedIdLo) := Prod.ext hhi hlo
        obtain rfl := Option.some.inj hu
        have hidx : (UInt32.ofNat i).toNat = i := toNat_ofNat_index (hwl.index_lt hc)
        simp only [Option.map_some, hidx]
        have hiu : i ∉ used := mt (hused i hlt).mpr (by simpa using hex)
        refine ⟨⟨c, hc, hact⟩, ⟨c, hc, (hacc c).mpr hid⟩, hiu, ?_⟩
        -- ids are distinct: the pinned disk is the only one accepted
        rintro j ⟨c', hc', -⟩ ⟨c'', hc'', hcls'⟩ -
        obtain rfl : c' = c'' := by rw [hc'] at hc''; exact Option.some.inj hc''
        have hij : i = j := hwl.index_inj hc hc' (hid.trans ((hacc c').mp hcls').symm)
        rw [hij]
      · exact absurd hu (by simp)

/-- **One slot's choice is the abstract pick.** -/
theorem chooseSlot_picks (hwl : WellListed candidates) (key : UInt64) (slot : ReplicaSlotSpec) {used : Set Nat}
    (hused : ∀ i, i < candidates.length → (UInt32.ofNat i ∈ excluded ↔ i ∈ used)) :
    Picks (rankAt key candidates) (pool candidates) used (slotAt candidates slot)
      ((chooseSlot candidates key excluded slot).map UInt32.toNat) := by
  unfold chooseSlot
  by_cases hp : slot.pinned = 0
  · rw [if_neg (by simpa using hp)]
    exact hrwSelectOne_picks hwl hp hused
  · rw [if_pos hp]
    exact findPinned_picks hwl hp hused

/-! ## The slot loop, and the whole walk as a greedy run -/

/-- The outcomes of the slot loop: one choice per slot, each excluding the ones before it. -/
def outcomes (candidates : List DiskCandidate) (key : UInt64) :
    List ReplicaSlotSpec → List UInt32 → List (Option UInt32)
  | [],            _        => []
  | slot :: slots, excluded =>
      let o := chooseSlot candidates key excluded slot
      o :: outcomes candidates key slots (excluded ++ o.toList)

theorem length_outcomes (slots : List ReplicaSlotSpec) (excluded : List UInt32) :
    (outcomes candidates key slots excluded).length = slots.length := by
  induction slots generalizing excluded with
  | nil => rfl
  | cons slot slots ih => simp [outcomes, ih]

/-- The loop overwrites exactly the positions of its slots, with the outcomes. The scratch array never
    overflows: at most `maxSelect` slots are walked. -/
theorem placeLoop_eq (slots : List ReplicaSlotSpec) :
    ∀ (i : Nat) (excluded out : List UInt32), i + slots.length ≤ out.length →
      excluded.length + slots.length ≤ maxSelect →
      placeLoop candidates key slots i excluded out =
        out.take i ++ (outcomes candidates key slots excluded).map (·.getD unplaced) ++
          out.drop (i + slots.length) := by
  induction slots with
  | nil =>
      intro i excluded out _ _
      simp [placeLoop, outcomes]
  | cons slot slots ih =>
      intro i excluded out hout hcap
      rw [List.length_cons] at hout hcap
      have hi : i < out.length := by omega
      -- the turn writes entry `i`: the prefix grows by it, and the rest of the buffer is untouched
      have hset : ∀ v : UInt32,
          (out.set i v).take (i + 1) = out.take i ++ [v] ∧
          (out.set i v).drop (i + 1 + slots.length) = out.drop (i + (slots.length + 1)) := by
        intro v
        constructor
        · rw [List.set_eq_take_append_cons_drop, if_pos hi, List.take_append, List.length_take,
            Nat.min_eq_left hi.le, Nat.add_sub_cancel_left]
          simp
        · rw [List.drop_set_of_lt (by omega)]
          congr 1; omega
      unfold placeLoop outcomes
      cases ho : chooseSlot candidates key excluded slot with
      | none =>
          simp only [Option.toList_none, List.append_nil]
          rw [ih (i + 1) excluded (out.set i unplaced) (by simp; omega) (by omega), (hset unplaced).1,
            (hset unplaced).2]
          simp
      | some idx =>
          have hroom : excluded.length < maxSelect := by omega
          simp only [Option.toList_some, if_pos hroom]
          rw [ih (i + 1) (excluded ++ [idx]) (out.set i idx) (by simp; omega) (by simp; omega),
            (hset idx).1, (hset idx).2]
          simp

/-- The outcomes are a greedy run over candidate indices. -/
theorem outcomes_greedy (hwl : WellListed candidates) (key : UInt64) (slots : List ReplicaSlotSpec) :
    ∀ (excluded : List UInt32) (used : Set Nat),
      (∀ i, i < candidates.length → (UInt32.ofNat i ∈ excluded ↔ i ∈ used)) →
      Greedy (rankAt key candidates) (pool candidates) used (slots.map (slotAt candidates))
        ((outcomes candidates key slots excluded).map (Option.map UInt32.toNat)) := by
  induction slots with
  | nil => intro excluded used _; exact .nil
  | cons slot slots ih =>
      intro excluded used hused
      have hpick := chooseSlot_picks hwl key slot hused
      unfold outcomes
      refine .cons hpick (ih _ _ ?_)
      intro i hi
      rw [List.mem_append, hused i hi]
      cases ho : chooseSlot candidates key excluded slot with
      | none => simp
      | some u =>
          have hiu : UInt32.ofNat i = u ↔ u.toNat = i := by
            have hidx : (UInt32.ofNat i).toNat = i := toNat_ofNat_index (by have := hwl.short; omega)
            constructor
            · rintro rfl; exact hidx
            · rintro rfl; exact UInt32.ofNat_toNat
          simp only [Option.toList_some, List.mem_singleton, hiu, Option.map_some, taking_some,
            Set.mem_insert_iff]
          rw [or_comm, @eq_comm _ i]

/-- The choice for a slot is the index of a candidate, cut to 32 bits. -/
theorem chooseSlot_index {excluded : List UInt32} {slot : ReplicaSlotSpec} {u : UInt32}
    (h : chooseSlot candidates key excluded slot = some u) : ∃ i < candidates.length, u = UInt32.ofNat i := by
  have hmem : ∀ ci ∈ candidates.zipIdx, ci.2 < candidates.length := by
    intro ci hci
    obtain ⟨c, i⟩ := ci
    exact (List.getElem?_eq_some_iff.mp (List.mk_mem_zipIdx_iff_getElem?.mp hci)).1
  unfold chooseSlot at h
  split at h
  · obtain ⟨_, ci, _, hsplit, hci, -⟩ := List.findSome?_eq_some_iff.mp h
    split at hci
    · refine ⟨ci.2, hmem ci ?_, (Option.some.inj hci).symm⟩
      rw [hsplit]
      exact List.mem_append_right _ List.mem_cons_self
    · cases hci
  · obtain ⟨b, hb, rfl⟩ := Option.map_eq_some_iff.mp h
    have hbest : BestOf key excluded slot.requiredClass [] none := by simp [BestOf]
    have hbest := hbest.foldl candidates.zipIdx
    rw [hb] at hbest
    obtain ⟨ci, hci, -, rfl, -⟩ := hbest
    exact ⟨ci.2, hmem ci (by simpa using hci), rfl⟩

theorem outcomes_index {slots : List ReplicaSlotSpec} {excluded : List UInt32} {u : UInt32}
    (h : some u ∈ outcomes candidates key slots excluded) : ∃ i < candidates.length, u = UInt32.ofNat i := by
  induction slots generalizing excluded with
  | nil => cases h
  | cons slot slots ih =>
      rcases List.mem_cons.mp h with hfirst | hrest
      · exact chooseSlot_index hfirst.symm
      · exact ih hrest

/-- A chosen index is never the `unplaced` sentinel. -/
theorem outcomes_ne_unplaced (hwl : WellListed candidates) {slots : List ReplicaSlotSpec} {u : UInt32}
    (hu : some u ∈ outcomes candidates key slots []) : u ≠ unplaced := by
  have hg := outcomes_greedy hwl key slots [] ∅ (by simp)
  obtain ⟨i, hi⟩ := List.mem_iff_getElem?.mp hu
  have hi' : ((outcomes candidates key slots []).map (Option.map UInt32.toNat))[i]? = some (some u.toNat) := by
    rw [List.getElem?_map, hi]; rfl
  obtain ⟨_, _, ⟨c, hc, -⟩, -⟩ := hg.mem_pool hi'
  have hlt := hwl.index_lt hc
  rintro rfl
  exact absurd hlt (by decide)

section Walk

variable (candidates key) (slots : List ReplicaSlotSpec) (out : List UInt32)

/-- The number of slots walked. -/
def walked : Nat := min slots.length (min out.length maxSelect)

theorem placeRedundancy_fst : (placeRedundancy candidates key slots out).1 = walked slots out := rfl

/-- The buffer after the call: the outcomes of the slots walked, then what was there. -/
theorem placeRedundancy_snd :
    (placeRedundancy candidates key slots out).2 =
      (outcomes candidates key (slots.take (walked slots out)) []).map (·.getD unplaced) ++
        out.drop (walked slots out) := by
  have hlen : (slots.take (walked slots out)).length = walked slots out := by
    rw [List.length_take]; unfold walked; omega
  have hout : walked slots out ≤ out.length := by unfold walked; omega
  have hcap : walked slots out ≤ maxSelect := by unfold walked; omega
  show placeLoop candidates key (slots.take (walked slots out)) 0 [] out = _
  rw [placeLoop_eq _ 0 [] out (by omega) (by simp; omega), hlen]
  simp

/-- The entries written, as outcomes. -/
theorem take_placeRedundancy :
    (placeRedundancy candidates key slots out).2.take (walked slots out) =
      (outcomes candidates key (slots.take (walked slots out)) []).map (·.getD unplaced) := by
  have hlen : ((outcomes candidates key (slots.take (walked slots out)) []).map
      (·.getD unplaced)).length = walked slots out := by
    rw [List.length_map, length_outcomes, List.length_take]; unfold walked; omega
  rw [placeRedundancy_snd, List.take_append_of_le_length (by omega), List.take_of_length_le (by omega)]

end Walk

end Tartine.Kcore
