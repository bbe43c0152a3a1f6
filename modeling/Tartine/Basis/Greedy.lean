import Mathlib.Data.Set.Insert
import Mathlib.Data.Set.Function
import Mathlib.Data.Set.Finite.Basic
import Mathlib.Data.Finset.Card
import Mathlib.Order.Basic
import Mathlib.Data.Fintype.Card

/-!
# `Basis.Greedy` — serving a list of requests greedily from a ranked pool

Requests are served in order. Each is a predicate on the pool's elements; it receives the element of highest
`key` that satisfies it and is not yet taken, or nothing. `Greedy key S used ps os` is that process as a
relation: from pool `S` with `used` already taken, the requests `ps` receive `os`.

* `Greedy.unique` — an injective key leaves no choice;
* `Greedy.top` — requests that anything satisfies are served from the top of the ranking;
* `Greedy.insert_pool` — one element more in the pool moves the set of elements taken by at most one
  replacement, and serves at least as many requests;
* `Greedy.serves_of_room`, `Greedy.room_of_served` — a request is served under every ranking if it accepts more elements
  than it has rivals before it, and if the rivals reach into its elements, only then;
* `room_of_narrowFirst` — so it is if some assignment serves every request and none comes before a narrower one that
  overlaps it.
-/

namespace Basis

variable {α β : Type} [LinearOrder β]

/-- `o` is what the request `p` receives from the pool `S` when the elements of `used` are taken. -/
def Picks (key : α → β) (S used : Set α) (p : α → Prop) : Option α → Prop
  | none   => ∀ a ∈ S, p a → a ∈ used
  | some a => a ∈ S ∧ p a ∧ a ∉ used ∧ ∀ b ∈ S, p b → b ∉ used → key b ≤ key a

/-- `used` once the outcome `o` is taken too. -/
def taking (used : Set α) (o : Option α) : Set α := {a | a ∈ used ∨ o = some a}

/-- Everything taken after the outcomes `os`. -/
def takings (used : Set α) (os : List (Option α)) : Set α := {a | a ∈ used ∨ some a ∈ os}

/-- Serving the requests `ps` in order from the pool `S`. -/
inductive Greedy (key : α → β) (S : Set α) : Set α → List (α → Prop) → List (Option α) → Prop where
  | nil {used} : Greedy key S used [] []
  | cons {used p ps o os} : Picks key S used p o → Greedy key S (taking used o) ps os →
      Greedy key S used (p :: ps) (o :: os)

variable {key : α → β} {S used used' : Set α} {p : α → Prop} {ps : List (α → Prop)}

@[simp] theorem taking_none : taking used none = used := by
  ext a; simp [taking]

@[simp] theorem taking_some (a : α) : taking used (some a) = insert a used := by
  ext b; simp [taking, or_comm, eq_comm]

@[simp] theorem takings_nil : takings used [] = used := by
  ext a; simp [takings]

theorem takings_cons (o : Option α) (os : List (Option α)) :
    takings used (o :: os) = takings (taking used o) os := by
  ext a
  simp only [takings, taking, Set.mem_ofPred_eq, List.mem_cons, or_assoc, @eq_comm _ (some a) o]

/-! ## One request -/

theorem Picks.unique (hinj : Set.InjOn key S) {o o' : Option α} (h : Picks key S used p o)
    (h' : Picks key S used p o') : o = o' := by
  cases o with
  | none =>
      cases o' with
      | none => rfl
      | some b => exact absurd (h b h'.1 h'.2.1) h'.2.2.1
  | some a =>
      cases o' with
      | none => exact absurd (h' a h.1 h.2.1) h.2.2.1
      | some b =>
          obtain ⟨haS, hpa, hau, hamax⟩ := h
          obtain ⟨hbS, hpb, hbu, hbmax⟩ := h'
          have hkey : key a = key b := le_antisymm (hbmax a haS hpa hau) (hamax b hbS hpb hbu)
          rw [hinj haS hbS hkey]

/-- The outcome depends only on which elements are available. -/
theorem Picks.congr {S' : Set α} {o : Option α} (h : Picks key S used p o)
    (hav : ∀ a, p a → (a ∈ S ∧ a ∉ used ↔ a ∈ S' ∧ a ∉ used')) : Picks key S' used' p o := by
  cases o with
  | none =>
      intro a haS hpa
      by_contra hau
      obtain ⟨hS, hu⟩ := (hav a hpa).mpr ⟨haS, hau⟩
      exact hu (h a hS hpa)
  | some a =>
      obtain ⟨haS, hpa, hau, hmax⟩ := h
      obtain ⟨haS', hau'⟩ := (hav a hpa).mp ⟨haS, hau⟩
      refine ⟨haS', hpa, hau', fun b hbS hpb hbu => ?_⟩
      obtain ⟨hS, hu⟩ := (hav b hpb).mpr ⟨hbS, hbu⟩
      exact hmax b hS hpb hu

/-- An element that was available but not picked can be removed without changing the outcome. -/
theorem Picks.of_larger {S' : Set α} {d : α} {o : Option α} (h : Picks key S' used' p o) (hne : o ≠ some d)
    (hav : ∀ a, a ≠ d → (a ∈ S ∧ a ∉ used ↔ a ∈ S' ∧ a ∉ used')) (hd : ¬(d ∈ S ∧ d ∉ used)) :
    Picks key S used p o := by
  cases o with
  | none =>
      intro a haS hpa
      by_contra hau
      have had : a ≠ d := by rintro rfl; exact hd ⟨haS, hau⟩
      obtain ⟨hS, hu⟩ := (hav a had).mp ⟨haS, hau⟩
      exact hu (h a hS hpa)
  | some a =>
      obtain ⟨haS, hpa, hau, hmax⟩ := h
      have had : a ≠ d := fun he => hne (by rw [he])
      obtain ⟨haS', hau'⟩ := (hav a had).mpr ⟨haS, hau⟩
      refine ⟨haS', hpa, hau', fun b hbS hpb hbu => ?_⟩
      have hbd : b ≠ d := by rintro rfl; exact hd ⟨hbS, hbu⟩
      obtain ⟨hS, hu⟩ := (hav b hbd).mp ⟨hbS, hbu⟩
      exact hmax b hS hpb hu

/-! ## A list of requests -/

theorem Greedy.length_eq {os : List (Option α)} (h : Greedy key S used ps os) : os.length = ps.length := by
  induction h with
  | nil => rfl
  | cons _ _ ih => simp [ih]

/-- **An injective key leaves no choice.** -/
theorem Greedy.unique (hinj : Set.InjOn key S) {os os' : List (Option α)} (h : Greedy key S used ps os)
    (h' : Greedy key S used ps os') : os = os' := by
  induction h generalizing os' with
  | nil => cases h'; rfl
  | cons hp _ ih =>
      cases h' with
      | cons hp' htail' =>
          obtain rfl := hp.unique hinj hp'
          rw [ih htail']

/-- **Requests that anything satisfies are served from the top of the ranking.** `l` lists what is available, best first. -/
theorem Greedy.top {l : List α} (hsorted : l.Pairwise (fun a b => key b < key a))
    (hmem : ∀ a, a ∈ S ∧ a ∉ used ↔ a ∈ l) (hany : ∀ p ∈ ps, ∀ a ∈ S, p a) :
    Greedy key S used ps ((l.take ps.length).map some ++ List.replicate (ps.length - l.length) none) := by
  induction ps generalizing l used with
  | nil => simpa using Greedy.nil
  | cons p ps ih =>
      obtain ⟨hp, hps⟩ := List.forall_mem_cons.mp hany
      cases l with
      | nil =>
          have hpick : Picks key S used p none := by
            intro a haS _
            by_contra hau
            exact List.not_mem_nil ((hmem a).mp ⟨haS, hau⟩)
          have hrest := ih (l := []) .nil (by simpa using hmem) hps
          simpa [List.replicate_succ] using Greedy.cons hpick (by simpa using hrest)
      | cons a l =>
          obtain ⟨hlower, hsorted⟩ := List.pairwise_cons.mp hsorted
          obtain ⟨haS, hau⟩ := (hmem a).mpr List.mem_cons_self
          have hpick : Picks key S used p (some a) := by
            refine ⟨haS, hp a haS, hau, fun b hbS _ hbu => ?_⟩
            rcases List.mem_cons.mp ((hmem b).mp ⟨hbS, hbu⟩) with rfl | hb
            · exact le_rfl
            · exact (hlower b hb).le
          -- what is left once the first of the list is taken is the rest of the list
          have hmem' : ∀ b, b ∈ S ∧ b ∉ insert a used ↔ b ∈ l := by
            intro b
            rw [Set.mem_insert_iff, not_or]
            constructor
            · rintro ⟨hbS, hne, hbu⟩
              exact (List.mem_cons.mp ((hmem b).mp ⟨hbS, hbu⟩)).resolve_left hne
            · intro hb
              obtain ⟨hbS, hbu⟩ := (hmem b).mpr (List.mem_cons_of_mem _ hb)
              refine ⟨hbS, ?_, hbu⟩
              rintro rfl
              exact lt_irrefl _ (hlower b hb)
          have hrest := ih hsorted hmem' hps
          simpa using Greedy.cons hpick (by simpa using hrest)

/-- The first `i` outcomes serve the first `i` requests; the `i`-th request picks after them. -/
theorem Greedy.picks_getElem? {os : List (Option α)} (h : Greedy key S used ps os) {i : Nat}
    {p : α → Prop} {o : Option α} (hp : ps[i]? = some p) (ho : os[i]? = some o) :
    Picks key S (takings used (os.take i)) p o := by
  induction h generalizing i with
  | nil => simp at hp
  | @cons used q qs q' os hq _ ih =>
      cases i with
      | zero =>
          simp only [List.getElem?_cons_zero, Option.some.injEq] at hp ho
          subst hp; subst ho
          simpa using hq
      | succ i =>
          simp only [List.getElem?_cons_succ] at hp ho
          rw [List.take_succ_cons, takings_cons]
          exact ih hp ho

/-- No element is handed out twice. -/
theorem Greedy.getElem?_inj {os : List (Option α)} (h : Greedy key S used ps os) {i j : Nat} {a : α}
    (hi : os[i]? = some (some a)) (hj : os[j]? = some (some a)) : i = j := by
  -- of two positions holding `a`, the later one was picked while `a` was already taken
  have later : ∀ {i j : Nat}, i < j → os[i]? = some (some a) → os[j]? = some (some a) → False := by
    intro i j hij hi hj
    have hjlt : j < ps.length := by
      rw [← h.length_eq]; exact (List.getElem?_eq_some_iff.mp hj).1
    have hpick := h.picks_getElem? (List.getElem?_eq_getElem hjlt) hj
    apply hpick.2.2.1
    right
    have htake : (os.take j)[i]? = some (some a) := by rw [List.getElem?_take_of_lt hij, hi]
    exact List.mem_of_getElem? htake
  rcases Nat.lt_trichotomy i j with hlt | heq | hgt
  · exact absurd hj (fun hj => later hlt hi hj)
  · exact heq
  · exact absurd hi (fun hi => later hgt hj hi)

/-- Every element handed out belongs to the pool and is asked for by its request. -/
theorem Greedy.mem_pool {os : List (Option α)} (h : Greedy key S used ps os) {i : Nat} {a : α}
    (hi : os[i]? = some (some a)) : ∃ p, ps[i]? = some p ∧ a ∈ S ∧ p a := by
  have hlt : i < ps.length := by
    rw [← h.length_eq]; exact (List.getElem?_eq_some_iff.mp hi).1
  have hp := List.getElem?_eq_getElem hlt
  have hpick := h.picks_getElem? hp hi
  exact ⟨ps[i], hp, hpick.1, hpick.2.1⟩

/-- Greedy runs transport along an injective renaming of the pool. -/
theorem Greedy.map {γ : Type} {f : α → γ} {key' : γ → β} (hinj : Set.InjOn f S)
    (hkey : ∀ a ∈ S, key' (f a) = key a) {os : List (Option α)} (h : Greedy key S used ps os)
    (hused : used ⊆ S) {qs : List (γ → Prop)}
    (hpq : List.Forall₂ (fun p q => ∀ a ∈ S, (q (f a) ↔ p a)) ps qs) :
    Greedy key' (f '' S) (f '' used) qs (os.map (Option.map f)) := by
  induction h generalizing qs with
  | nil => cases hpq; exact .nil
  | @cons used p ps o os hp htail ih =>
      cases hpq with
      | @cons _ q _ qs hpq1 hpq =>
          -- `f` reflects availability, so the picked element is still the best one
          have hmem : ∀ a ∈ S, (f a ∈ f '' used ↔ a ∈ used) :=
            fun a ha => hinj.mem_image_iff hused ha
          refine .cons ?_ ?_
          · cases o with
            | none =>
                rintro _ ⟨a, ha, rfl⟩ hq
                exact (hmem a ha).mpr (hp a ha ((hpq1 a ha).mp hq))
            | some a =>
                obtain ⟨ha, hpa, hau, hmax⟩ := hp
                refine ⟨⟨a, ha, rfl⟩, (hpq1 a ha).mpr hpa, mt (hmem a ha).mp hau, ?_⟩
                rintro _ ⟨b, hb, rfl⟩ hqb hbu
                rw [hkey a ha, hkey b hb]
                exact hmax b hb ((hpq1 b hb).mp hqb) (mt (hmem b hb).mpr hbu)
          · have htake : taking (f '' used) (Option.map f o) = f '' taking used o := by
              cases o with
              | none => simp
              | some a => simp [Set.image_insert_eq]
            rw [htake]
            refine ih ?_ hpq
            cases o with
            | none => simpa using hused
            | some a => simpa using Set.insert_subset hp.1 hused

/-! ## One more element in the pool -/

/-- How the elements taken with `d` in the pool (`used'`) differ from those taken without it (`used`): not at
    all, by `d` alone, or by `d` in place of exactly one other element. -/
inductive Displaced (d : α) (used used' : Set α) : Prop where
  | same (heq : used' = used)
  | added (heq : used' = insert d used)
  | swapped (x : α) (hx : x ∈ used) (heq : used' = insert d (used \ {x}))

/-- The number of requests left with nothing. -/
def unserved (os : List (Option α)) : Nat := os.countP Option.isNone

section OneMore

variable {d : α} {o o' : Option α}

/-- Both runs stand alike: the new element wins the request, or both serve it alike. -/
theorem Picks.insert_pool_same (hd : d ∉ S) (hinj : Set.InjOn key S) (hp : Picks key S used p o)
    (hp' : Picks key (insert d S) used p o') :
    Displaced d (taking used o) (taking used o') ∧ (o'.isNone → o.isNone) := by
  by_cases hod : o' = some d
  · -- the old winner, if any, is displaced
    subst hod
    refine ⟨?_, by simp⟩
    cases o with
    | none => exact .added (by simp)
    | some x =>
        refine .swapped x (by simp) ?_
        have hxu : x ∉ used := hp.2.2.1
        rw [taking_some, taking_some, Set.insert_sdiff_self_of_notMem hxu]
  · have hpS : Picks key S used p o' := by
      refine hp'.of_larger hod ?_ (fun hc => hd hc.1)
      intro a had
      simp [Set.mem_insert_iff, had]
    obtain rfl := hp.unique hinj hpS
    exact ⟨.same rfl, id⟩

/-- The new element is taken already: both runs serve the request alike. -/
theorem Picks.insert_pool_added (hd : d ∉ S) (hinj : Set.InjOn key S) (hp : Picks key S used p o)
    (hp' : Picks key (insert d S) (insert d used) p o') :
    Displaced d (taking used o) (taking (insert d used) o') ∧ (o'.isNone → o.isNone) := by
  have hpS : Picks key S used p o' := by
    refine hp'.congr ?_
    intro a _
    by_cases had : a = d
    · subst had; simp [hd]
    · simp [Set.mem_insert_iff, had]
  obtain rfl := hp.unique hinj hpS
  refine ⟨.added ?_, id⟩
  cases o with
  | none => simp
  | some a => rw [taking_some, taking_some, Set.insert_comm]

/-- The displaced element is free: it wins the request, or both runs serve it alike. -/
theorem Picks.insert_pool_swapped (hd : d ∉ S) (hinj : Set.InjOn key S) (hdu : d ∉ used) {x : α} (hx : x ∈ used)
    (hp : Picks key S used p o) (hp' : Picks key (insert d S) (insert d (used \ {x})) p o') :
    Displaced d (taking used o) (taking (insert d (used \ {x})) o') ∧ (o'.isNone → o.isNone) := by
  have hxd : x ≠ d := by rintro rfl; exact hdu hx
  by_cases hox : o' = some x
  · -- it is back, and displaces this request's old winner in turn
    subst hox
    refine ⟨?_, by simp⟩
    have hback : insert x (insert d (used \ {x})) = insert d used := by
      rw [Set.insert_comm, Set.insert_sdiff_singleton, Set.insert_eq_of_mem hx]
    cases o with
    | none => exact .added (by rw [taking_some, taking_none, hback])
    | some y =>
        refine .swapped y (by simp) ?_
        rw [taking_some, taking_some, hback, Set.insert_sdiff_self_of_notMem hp.2.2.1]
  · have hpS : Picks key S used p o' := by
      refine hp'.of_larger hox ?_ (fun hc => hc.2 hx)
      intro a hax
      by_cases had : a = d
      · subst had; simp [hd]
      · simp [Set.mem_insert_iff, had, hax]
    obtain rfl := hp.unique hinj hpS
    refine ⟨?_, id⟩
    cases o with
    | none => exact .swapped x (by simpa using hx) (by simp)
    | some a =>
        have hax : a ≠ x := by rintro rfl; exact hp.2.2.1 hx
        refine .swapped x (by simp [hx]) ?_
        rw [taking_some, taking_some, Set.insert_comm, Set.insert_sdiff_of_notMem]
        simpa using hax

/-- One request: the two runs still differ as in `Displaced`, and the larger pool serves it if the smaller does. -/
theorem Displaced.step (hd : d ∉ S) (hinj : Set.InjOn key S) (hsub : used ⊆ S) (hR : Displaced d used used')
    (hp : Picks key S used p o) (hp' : Picks key (insert d S) used' p o') :
    Displaced d (taking used o) (taking used' o') ∧ (o'.isNone → o.isNone) := by
  cases hR with
  | same heq =>
      subst heq
      exact hp.insert_pool_same hd hinj hp'
  | added heq =>
      subst heq
      exact hp.insert_pool_added hd hinj hp'
  | swapped x hx heq =>
      subst heq
      exact hp.insert_pool_swapped hd hinj (fun hm => hd (hsub hm)) hx hp'

theorem unserved_cons_le {os os' : List (Option α)} (ho : o'.isNone → o.isNone) (hle : unserved os' ≤ unserved os) :
    unserved (o' :: os') ≤ unserved (o :: os) := by
  have hfirst : (if o'.isNone then 1 else 0) ≤ (if o.isNone then 1 else 0) := by
    by_cases hn : o'.isNone = true
    · rw [if_pos hn, if_pos (ho hn)]
    · rw [if_neg hn]; exact Nat.zero_le _
  unfold unserved at hle ⊢
  rw [List.countP_cons, List.countP_cons]
  exact Nat.add_le_add hle hfirst

/-- **Adding one element disturbs at most one other.** Two greedy runs on the same requests, the second with
    one more element `d` in the pool: the elements taken differ as in `Displaced`, and the second run leaves no
    more requests unserved. -/
theorem Greedy.insert_pool (hd : d ∉ S) (hinj : Set.InjOn key (insert d S))
    {os os' : List (Option α)} (h : Greedy key S used ps os) (h' : Greedy key (insert d S) used' ps os')
    (hsub : used ⊆ S) (hR : Displaced d used used') :
    Displaced d (takings used os) (takings used' os') ∧ unserved os' ≤ unserved os := by
  have hinjS : Set.InjOn key S := hinj.mono (Set.subset_insert d S)
  induction h generalizing used' os' with
  | nil =>
      cases h'
      rw [takings_nil, takings_nil]
      exact ⟨hR, Nat.le_refl _⟩
  | @cons used p ps o os hp htail ih =>
      cases h' with
      | @cons _ _ _ o' os' hp' htail' =>
          have hsub' : taking used o ⊆ S := by
            cases o with
            | none => simpa using hsub
            | some a => simpa using Set.insert_subset hp.1 hsub
          obtain ⟨hR', ho⟩ := hR.step hd hinjS hsub hp hp'
          obtain ⟨hrest, hcount⟩ := ih htail' hsub' hR'
          rw [takings_cons, takings_cons]
          exact ⟨hrest, unserved_cons_le ho hcount⟩

end OneMore

/-! ## When greedy serves every request -/

/-- What a request left with nothing would take, an earlier one holds. -/
theorem Greedy.held_of_none {os : List (Option α)} (h : Greedy key S ∅ ps os) {i : Nat} (hp : ps[i]? = some p)
    (hnone : os[i]? = some none) : ∀ a ∈ S, p a → ∃ j < i, os[j]? = some (some a) := by
  intro a ha hpa
  rcases h.picks_getElem? hp hnone a ha hpa with hemp | hmem
  · exact absurd hemp (by simp)
  · obtain ⟨j, hj⟩ := List.mem_iff_getElem?.mp hmem
    have hji : j < i := by
      have := (List.getElem?_eq_some_iff.mp hj).1
      rw [List.length_take] at this
      omega
    rw [List.getElem?_take_of_lt hji] at hj
    exact ⟨j, hji, hj⟩

/-! ## Room for every request -/

section Room

open Classical in
/-- The requests before the `i`-th that accept an element of `T`. -/
noncomputable def rivals (ps : List (α → Prop)) (T : Finset α) (i : Nat) : Finset Nat :=
  (Finset.range i).filter fun j => ∃ q, ps[j]? = some q ∧ ∃ a ∈ T, q a

theorem mem_rivals {T : Finset α} {i j : Nat} :
    j ∈ rivals ps T i ↔ j < i ∧ ∃ q, ps[j]? = some q ∧ ∃ a ∈ T, q a := by
  simp only [rivals, Finset.mem_filter, Finset.mem_range]

variable {os : List (Option α)} {i : Nat} {T : Finset α}

/-- **A request with room is served**, whatever the ranking: it accepts more elements than it has rivals. -/
theorem Greedy.serves_of_room (h : Greedy key S ∅ ps os) (hp : ps[i]? = some p) (hT : ∀ a ∈ T, a ∈ S ∧ p a)
    (hroom : (rivals ps T i).card < T.card) : os[i]? ≠ some none := by
  intro hnone
  have hheld : ∀ a ∈ T, ∃ j ∈ rivals ps T i, os[j]? = some (some a) := by
    intro a ha
    obtain ⟨haS, hpa⟩ := hT a ha
    obtain ⟨j, hji, hj⟩ := h.held_of_none hp hnone a haS hpa
    obtain ⟨q, hq, -, hqa⟩ := h.mem_pool hj
    exact ⟨j, mem_rivals.mpr ⟨hji, q, hq, a, ha, hqa⟩, hj⟩
  choose! holder hrival hholds using hheld
  -- a rival holds one element, so there are no more elements than rivals
  have hle : T.card ≤ (rivals ps T i).card := by
    refine Finset.card_le_card_of_injOn holder hrival fun a ha b hb hab => ?_
    have hsame := hholds a ha
    rw [hab, hholds b hb] at hsame
    exact (Option.some.inj (Option.some.inj hsame)).symm
  omega

/-- **Where the rivals of a request reach into its elements, room is needed**: each rival accepts nothing else, or accepts
    all of them and they are ranked above the rest. -/
theorem Greedy.room_of_served (h : Greedy key S ∅ ps os) (hall : ∀ o ∈ os, o ≠ none) (hp : ps[i]? = some p)
    (hT : ∀ a, a ∈ T ↔ a ∈ S ∧ p a)
    (hreach : ∀ j < i, ∀ q, ps[j]? = some q → (∃ a ∈ T, q a) → (∀ a ∈ S, q a → p a) ∨
      ((∀ a ∈ S, p a → q a) ∧ ∀ a ∈ S, ∀ b ∈ S, p a → ¬p b → key b < key a)) :
    (rivals ps T i).card < T.card := by
  classical
  have hserved : ∀ {j : Nat} {q : α → Prop}, ps[j]? = some q → ∃ a, os[j]? = some (some a) := by
    intro j q hq
    have hlt : j < os.length := by
      rw [h.length_eq]
      exact (List.getElem?_eq_some_iff.mp hq).1
    obtain ⟨a, ha⟩ := Option.ne_none_iff_exists'.mp (hall _ (List.getElem_mem hlt))
    exact ⟨a, by rw [List.getElem?_eq_getElem hlt, ha]⟩
  obtain ⟨a, ha⟩ := hserved hp
  obtain ⟨haS, hpa, hafree, -⟩ := h.picks_getElem? hp ha
  -- the element of request `i` was free for each rival, so each took one of `T` as well
  have htakes : ∀ j ∈ rivals ps T i, ∃ b ∈ T.erase a, os[j]? = some (some b) := by
    intro j hj
    obtain ⟨hji, q, hq, hmeet⟩ := mem_rivals.mp hj
    obtain ⟨b, hb⟩ := hserved hq
    obtain ⟨hbS, hqb, -, hbest⟩ := h.picks_getElem? hq hb
    have hne : b ≠ a := by
      rintro rfl
      exact absurd (h.getElem?_inj hb ha) (Nat.ne_of_lt hji)
    refine ⟨b, Finset.mem_erase.mpr ⟨hne, (hT b).mpr ⟨hbS, ?_⟩⟩, hb⟩
    rcases hreach j hji q hq hmeet with hnarrow | ⟨hwide, htop⟩
    · exact hnarrow b hbS hqb
    · by_contra hpb
      have hfree : a ∉ takings ∅ (os.take j) := by
        rintro (hemp | hmem)
        · exact absurd hemp (by simp)
        · refine hafree (Or.inr ?_)
          rw [← List.take_append_drop j (os.take i), List.take_take, Nat.min_eq_left hji.le]
          exact List.mem_append_left _ hmem
      exact absurd (hbest a haS (hwide a haS hpa) hfree) (not_le.mpr (htop a haS b hbS hpa hpb))
  have : Nonempty α := ⟨a⟩
  choose! taken htaken htakes using htakes
  have hle : (rivals ps T i).card ≤ (T.erase a).card := by
    refine Finset.card_le_card_of_injOn taken htaken fun j hj k hk hjk => ?_
    have hsame := htakes j hj
    rw [hjk] at hsame
    exact h.getElem?_inj hsame (htakes k hk)
  have haT : a ∈ T := (hT a).mpr ⟨haS, hpa⟩
  have hpos := Finset.card_pos.mpr ⟨a, haT⟩
  rw [Finset.card_erase_of_mem haT] at hle
  omega

/-- The rivals, where the requests are made from a list, by their number in it. -/
theorem card_rivals_map {γ : Type} {l : List γ} {f : γ → α → Prop} {P : γ → Bool} (hP : ∀ c, P c = true ↔ ∃ a ∈ T, f c a)
    (hi : i ≤ l.length) : (rivals (l.map f) T i).card = (l.take i).countP P := by
  have hcount : ∀ k ≤ l.length, (l.take k).countP P = ((Finset.range k).filter fun j => (l[j]?).any P = true).card := by
    intro k hk
    induction k with
    | zero => rfl
    | succ k ih =>
        rw [List.take_add_one, List.countP_append, ih (by omega), Finset.range_add_one, Finset.filter_insert]
        rw [List.getElem?_eq_getElem (show k < l.length from hk)]
        by_cases hp : P l[k] = true
        · rw [Option.any_some, if_pos hp, Finset.card_insert_of_notMem (by simp)]
          simp [hp]
        · rw [Option.any_some, if_neg hp]
          simp [hp]
  rw [hcount i hi]
  congr 1
  ext j
  rw [mem_rivals, Finset.mem_filter, Finset.mem_range, List.getElem?_map, Option.any_eq_true]
  refine and_congr_right fun _ => ⟨?_, ?_⟩
  · rintro ⟨q, hq, hmeet⟩
    obtain ⟨c, hc, rfl⟩ := Option.map_eq_some_iff.mp hq
    exact ⟨c, hc, (hP c).mpr hmeet⟩
  · rintro ⟨c, hc, hcount⟩
    exact ⟨f c, Option.map_eq_some_iff.mpr ⟨c, hc, rfl⟩, (hP c).mp hcount⟩

/-- No request comes before a narrower one it overlaps: on the pool, an earlier request either implies a later
    one or excludes it. -/
def NarrowFirst (S : Set α) (ps : List (α → Prop)) : Prop :=
  ∀ (i j : Nat) (p q : α → Prop), i < j → ps[i]? = some p → ps[j]? = some q →
    (∀ a ∈ S, p a → q a) ∨ (∀ a ∈ S, p a → ¬q a)

/-- **Narrow-first requests that can be served at all have room**: each rival of a request is narrower, so the assignment
    puts it, and the request itself, among the elements that the request accepts. -/
theorem room_of_narrowFirst (hnf : NarrowFirst S ps) (assign : Nat → α) (hinj : Set.InjOn assign {j | j < ps.length})
    (hserves : ∀ j q, ps[j]? = some q → assign j ∈ S ∧ q (assign j)) (hp : ps[i]? = some p)
    (hT : ∀ a, a ∈ T ↔ a ∈ S ∧ p a) : (rivals ps T i).card < T.card := by
  have hmem : ∀ j ∈ insert i (rivals ps T i), j < ps.length ∧ assign j ∈ T := by
    intro j hj
    rcases Finset.mem_insert.mp hj with rfl | hj
    · exact ⟨(List.getElem?_eq_some_iff.mp hp).1, (hT _).mpr (hserves j p hp)⟩
    · obtain ⟨hji, q, hq, a, ha, hqa⟩ := mem_rivals.mp hj
      obtain ⟨haS, hpa⟩ := (hT a).mp ha
      obtain ⟨hS, hserved⟩ := hserves j q hq
      refine ⟨(List.getElem?_eq_some_iff.mp hq).1, (hT _).mpr ⟨hS, ?_⟩⟩
      rcases hnf j i q p hji hq hp with hin | hout
      · exact hin _ hS hserved
      · exact absurd hpa (hout a haS hqa)
  have hnot : i ∉ rivals ps T i := fun h => absurd (mem_rivals.mp h).1 (Nat.lt_irrefl i)
  have hle : (insert i (rivals ps T i)).card ≤ T.card :=
    Finset.card_le_card_of_injOn assign (fun j hj => (hmem j hj).2)
      fun j hj k hk h => hinj (hmem j hj).1 (hmem k hk).1 h
  rw [Finset.card_insert_of_notMem hnot] at hle
  omega

end Room

end Basis
