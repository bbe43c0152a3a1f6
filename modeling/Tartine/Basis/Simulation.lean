import Mathlib.Tactic.TypeStar

/-!
# `Basis.Simulation` — labelled machines, their runs, and forward simulation

A machine is given by where it starts and what it does under a label; a run is what it has done so far. What every step
keeps, every run keeps (`Run.rule`). `Simulates` relates a machine to a more abstract one, under two restrictions that
real machines need: a condition on the states reached (resources that last), which may be lost for good, and one on the
labels (requests inside the limits).

* `Simulates.history`, `Simulates.run` — the labels of such a run are those of a run of the abstract machine.
-/

namespace Basis

variable {σ τ ℓ : Type*}

/-- A machine: the states it may start in, and its labelled steps. -/
structure Machine (σ ℓ : Type*) where
  start : σ → Prop
  step : σ → ℓ → σ → Prop

namespace Machine

/-- A run: its labels in order, and where it ends. -/
inductive Run (M : Machine σ ℓ) : List ℓ → σ → Prop where
  | start {s} (h : M.start s) : Run M [] s
  | snoc {ls s l s'} (hrun : Run M ls s) (h : M.step s l s') : Run M (ls ++ [l]) s'

variable {M : Machine σ ℓ} {N : Machine τ ℓ} {ls : List ℓ} {s : σ}

/-- **The invariant rule.** -/
theorem Run.rule {I : σ → Prop} (hrun : M.Run ls s) (hstart : ∀ s, M.start s → I s)
    (hstep : ∀ s l s', I s → M.step s l s' → I s') : I s := by
  induction hrun with
  | start h => exact hstart _ h
  | snoc _ h ih => exact hstep _ _ _ ih h

/-- A machine that may start where another does, and can step as it does, has its runs. -/
theorem Run.mono {N : Machine σ ℓ} (hrun : M.Run ls s) (hstart : ∀ s, M.start s → N.start s)
    (hstep : ∀ s l s', M.step s l s' → N.step s l s') : N.Run ls s := by
  induction hrun with
  | start h => exact .start (hstart _ h)
  | snoc _ h ih => exact ih.snoc (hstep _ _ _ h)

theorem Run.of_snoc {l : ℓ} {s' : σ} (hrun : M.Run (ls ++ [l]) s') : ∃ s, M.Run ls s ∧ M.step s l s' := by
  generalize hls : ls ++ [l] = labels at hrun
  cases hrun with
  | start h => simp at hls
  | snoc hrun hstep =>
      obtain ⟨rfl, hl⟩ := List.append_inj' hls rfl
      obtain rfl := List.singleton_inj.mp hl
      exact ⟨_, hrun, hstep⟩

/-! ## Forward simulation -/

/-- `N` can follow every step of `M` that is labelled as `P` says and ends in a state that is `Ok`, and `R` relates the
    states they are in. -/
structure Simulates (M : Machine σ ℓ) (N : Machine τ ℓ) (Ok : σ → Prop) (P : ℓ → Prop) (R : σ → τ → Prop) : Prop where
  start : ∀ s, M.start s → Ok s → ∃ t, N.start t ∧ R s t
  step : ∀ s t l s', R s t → M.step s l s' → Ok s' → P l → ∃ t', N.step t l t' ∧ R s' t'

variable {Ok : σ → Prop} {P : ℓ → Prop} {R : σ → τ → Prop}

/-- **Run lemma**, with what the labels so far say of where the run is. `Ok` is never regained, so a run that ends in an
    `Ok` state has been in no other. -/
theorem Simulates.history {I : List ℓ → τ → Prop} (h : Simulates M N Ok P R)
    (hback : ∀ ls s l s', M.Run ls s → M.step s l s' → Ok s' → Ok s) (hstart : ∀ t, N.start t → I [] t)
    (hstep : ∀ ls s t l t', R s t → I ls t → N.step t l t' → P l → I (ls ++ [l]) t') (hrun : M.Run ls s) (hok : Ok s)
    (hlabels : ∀ l ∈ ls, P l) : ∃ t, N.Run ls t ∧ R s t ∧ I ls t := by
  induction hrun with
  | start hs =>
      obtain ⟨t, ht, hR⟩ := h.start _ hs hok
      exact ⟨t, .start ht, hR, hstart t ht⟩
  | @snoc ls s l s' hrun hM ih =>
      obtain ⟨hbefore, hlast⟩ := List.forall_mem_append.mp hlabels
      have hl := List.forall_mem_singleton.mp hlast
      obtain ⟨t, hrun', hR, hI⟩ := ih (hback ls s l s' hrun hM hok) hbefore
      obtain ⟨t', hN, hR'⟩ := h.step s t l s' hR hM hok hl
      exact ⟨t', hrun'.snoc hN, hR', hstep ls s t l t' hR hI hN hl⟩

theorem Simulates.run (h : Simulates M N Ok P R)
    (hback : ∀ ls s l s', M.Run ls s → M.step s l s' → Ok s' → Ok s) (hrun : M.Run ls s) (hok : Ok s)
    (hlabels : ∀ l ∈ ls, P l) : ∃ t, N.Run ls t ∧ R s t := by
  have hhistory := h.history (I := fun _ _ => True) hback (fun _ _ => trivial) (fun _ _ _ _ _ _ _ _ _ => trivial) hrun hok
    hlabels
  obtain ⟨t, hrun', hR, -⟩ := hhistory
  exact ⟨t, hrun', hR⟩

end Machine

end Basis
