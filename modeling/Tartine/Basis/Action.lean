import Mathlib.Algebra.Group.Nat.Defs
import Mathlib.Data.List.Forall2

/-!
# `Basis.Action` — programs that pass a state along and may fail or panic

`Res ε α` is the result of a fallible operation: a value, an error, or a panic. An `Action σ ε α` is a program over a
state `σ` with such a result; sequencing stops at the first error or panic and keeps the state reached there, as early
returns do.

* `Res.bind_eq_ok`, `Action.bind_eq_ok` — a sequence succeeds exactly when its parts do;
* `Action.bind_cases` — every way a sequence can end;
* `Action.Keeps` — a transitive relation kept by the parts is kept by the whole, however it ends.
-/

namespace Basis

/-- The result of an operation that may return an error or panic. -/
inductive Res (ε α : Type) where
  | ok (a : α)
  | err (e : ε)
  | panic
  deriving DecidableEq

namespace Res

variable {ε α β : Type}

instance : Monad (Res ε) where
  pure := .ok
  bind x f :=
    match x with
    | .ok a  => f a
    | .err e => .err e
    | .panic => .panic

instance : LawfulMonad (Res ε) :=
  LawfulMonad.mk' (Res ε) (fun x => by cases x <;> rfl) (fun _ _ => rfl) (fun x _ _ => by cases x <;> rfl)

@[simp] theorem ok_bind (a : α) (f : α → Res ε β) : (Res.ok a >>= f) = f a := rfl
@[simp] theorem err_bind (e : ε) (f : α → Res ε β) : (Res.err e >>= f) = .err e := rfl
@[simp] theorem panic_bind (f : α → Res ε β) : ((Res.panic : Res ε α) >>= f) = .panic := rfl
@[simp] theorem pure_eq (a : α) : (pure a : Res ε α) = .ok a := rfl

/-- A sequence succeeds exactly when both of its parts do. -/
theorem bind_eq_ok {x : Res ε α} {f : α → Res ε β} {b : β} :
    (x >>= f) = .ok b ↔ ∃ a, x = .ok a ∧ f a = .ok b := by
  cases x with
  | ok a => simp
  | err e => simp
  | panic => simp

/-- A sequence fails where one of its parts does. -/
theorem bind_eq_err {x : Res ε α} {f : α → Res ε β} {e : ε} :
    (x >>= f) = .err e ↔ x = .err e ∨ ∃ a, x = .ok a ∧ f a = .err e := by
  cases x with
  | ok a => simp
  | err e => simp
  | panic => simp

/-- `?` on a result whose error type converts. -/
def mapErr {ε' : Type} (g : ε → ε') : Res ε α → Res ε' α
  | .ok a  => .ok a
  | .err e => .err (g e)
  | .panic => .panic

theorem mapErr_eq_ok {ε' : Type} {g : ε → ε'} {x : Res ε α} {a : α} : x.mapErr g = .ok a ↔ x = .ok a := by
  cases x <;> simp [mapErr]

theorem mapErr_eq_err {ε' : Type} {g : ε → ε'} {x : Res ε α} {e' : ε'} :
    x.mapErr g = .err e' ↔ ∃ e, x = .err e ∧ g e = e' := by
  cases x <;> simp [mapErr]

def isOk : Res ε α → Bool
  | .ok _ => true
  | _     => false

/-- The value of a result, or another one. -/
def getD (x : Res ε α) (other : α) : α :=
  match x with
  | .ok a => a
  | _     => other

theorem eq_ok_getD {x : Res ε α} (other : α) (h : x.isOk = true) : x = .ok (x.getD other) := by
  cases x with
  | ok a => rfl
  | err e => cases h
  | panic => cases h

/-- `u64` addition: overflow panics. -/
def checkedAdd (a b : UInt64) : Res ε UInt64 :=
  if a.toNat + b.toNat < 2 ^ 64 then .ok (a + b) else .panic

theorem checkedAdd_of_lt {a b : UInt64} (h : a.toNat + b.toNat < 2 ^ 64) : (checkedAdd a b : Res ε UInt64) = .ok (a + b) :=
  if_pos h

theorem checkedAdd_eq_ok {a b c : UInt64} :
    (checkedAdd a b : Res ε UInt64) = .ok c ↔ c.toNat = a.toNat + b.toNat := by
  unfold checkedAdd
  have hc := c.toNat_lt
  split
  · rename_i h
    rw [Res.ok.injEq, ← UInt64.toNat_inj, UInt64.toNat_add, Nat.mod_eq_of_lt h]
    exact eq_comm
  · constructor
    · intro h
      cases h
    · intro h
      omega

/-- What a sequence of lookups returns, element by element. -/
theorem forall₂_of_mapM {f : α → Res ε β} {l : List α} {r : List β} (h : l.mapM f = .ok r) :
    List.Forall₂ (fun a b => f a = .ok b) l r := by
  induction l generalizing r with
  | nil =>
      obtain rfl := Res.ok.inj (h : (Res.ok [] : Res ε (List β)) = .ok r)
      exact .nil
  | cons a l ih =>
      rw [List.mapM_cons] at h
      obtain ⟨b, hb, h⟩ := Res.bind_eq_ok.mp h
      obtain ⟨bs, hbs, h⟩ := Res.bind_eq_ok.mp h
      obtain rfl := Res.ok.inj h
      exact .cons hb (ih hbs)

/-- Lookups that succeed element by element succeed in sequence. -/
theorem mapM_of_forall₂ {f : α → Res ε β} {l : List α} {r : List β} (h : List.Forall₂ (fun a b => f a = .ok b) l r) :
    l.mapM f = .ok r := by
  induction h with
  | nil => rfl
  | cons hb _ ih =>
      rw [List.mapM_cons, hb, ok_bind, ih]
      rfl

/-- The results of a sequence of lookups, as a set. -/
theorem mem_of_mapM {f : α → Res ε β} {l : List α} {r : List β} (h : l.mapM f = .ok r) {b : β} :
    b ∈ r ↔ ∃ a ∈ l, f a = .ok b := by
  induction l generalizing r with
  | nil =>
      obtain rfl := Res.ok.inj (h : (Res.ok [] : Res ε (List β)) = .ok r)
      simp
  | cons a l ih =>
      rw [List.mapM_cons] at h
      obtain ⟨b', hb', h⟩ := Res.bind_eq_ok.mp h
      obtain ⟨bs, hbs, h⟩ := Res.bind_eq_ok.mp h
      obtain rfl := Res.ok.inj h
      simp [ih hbs, hb', eq_comm]

/-- Lookups that all succeed succeed in sequence. -/
theorem exists_mapM {f : α → Res ε β} {l : List α} (h : ∀ a ∈ l, ∃ b, f a = .ok b) : ∃ r, l.mapM f = .ok r := by
  induction l with
  | nil => exact ⟨[], rfl⟩
  | cons a l ih =>
      obtain ⟨⟨b, hb⟩, hl⟩ := List.forall_mem_cons.mp h
      obtain ⟨r, hr⟩ := ih hl
      refine ⟨b :: r, ?_⟩
      rw [List.mapM_cons, hb, ok_bind, hr]
      rfl

/-! ### Errors that are not reported -/

/-- What succeeds on every element is a plain map. -/
theorem mapM_eq_map {f : α → Res ε β} {g : α → β} {l : List α} (h : ∀ a ∈ l, f a = .ok (g a)) :
    l.mapM f = .ok (l.map g) := by
  refine mapM_of_forall₂ ?_
  rw [List.forall₂_map_right_iff, List.forall₂_same]
  exact h

theorem bind_ne_err {x : Res ε α} {f : α → Res ε β} {e : ε} (hx : x ≠ .err e) (hf : ∀ a, x = .ok a → f a ≠ .err e) :
    (x >>= f) ≠ .err e := by
  intro h
  rcases bind_eq_err.mp h with hxe | ⟨a, hxa, hfa⟩
  · exact hx hxe
  · exact hf a hxa hfa

theorem foldlM_ne_err {f : β → α → Res ε β} {l : List α} {e : ε} (h : ∀ b, ∀ a ∈ l, f b a ≠ .err e) {b : β} :
    l.foldlM f b ≠ .err e := by
  induction l generalizing b with
  | nil => exact fun he => by cases he
  | cons a l ih =>
      rw [List.foldlM_cons]
      exact bind_ne_err (h b a List.mem_cons_self) fun b' _ => ih fun b a ha => h b a (List.mem_cons_of_mem _ ha)

/-! ### Results that are no panics -/

theorem bind_ne_panic {x : Res ε α} {f : α → Res ε β} (hx : x ≠ .panic) (hf : ∀ a, x = .ok a → f a ≠ .panic) :
    (x >>= f) ≠ .panic := by
  cases x with
  | ok a => exact hf a rfl
  | err e => exact fun h => by cases h
  | panic => exact absurd rfl hx

theorem mapM_ne_panic {f : α → Res ε β} {l : List α} (h : ∀ a ∈ l, f a ≠ .panic) : l.mapM f ≠ .panic := by
  induction l with
  | nil => exact fun h => by cases h
  | cons a l ih =>
      obtain ⟨ha, hl⟩ := List.forall_mem_cons.mp h
      rw [List.mapM_cons]
      exact bind_ne_panic ha fun b _ => bind_ne_panic (ih hl) fun bs _ h => by cases h

theorem mapErr_ne_panic {ε' : Type} {g : ε → ε'} {x : Res ε α} (h : x ≠ .panic) : x.mapErr g ≠ .panic := by
  cases x with
  | ok a => exact fun h => by cases h
  | err e => exact fun h => by cases h
  | panic => exact absurd rfl h

end Res

/-! ## Lookups that may find nothing -/

section Lookups

variable {α β : Type} {f g : α → Option β} {l : List α} {r : List β}

theorem forall₂_of_mapM_some (h : l.mapM f = some r) :
    List.Forall₂ (fun a b => f a = some b) l r := by
  induction l generalizing r with
  | nil =>
      obtain rfl := Option.some.inj (h : some [] = some r)
      exact .nil
  | cons a l ih =>
      rw [List.mapM_cons] at h
      obtain ⟨b, hb, h⟩ := Option.bind_eq_some_iff.mp h
      obtain ⟨bs, hbs, h⟩ := Option.bind_eq_some_iff.mp h
      obtain rfl := Option.some.inj h
      exact .cons hb (ih hbs)

theorem mapM_some_of_forall₂ (h : List.Forall₂ (fun a b => f a = some b) l r) : l.mapM f = some r := by
  induction h with
  | nil => rfl
  | cons ha _ ih =>
      rw [List.mapM_cons, ha, ih]
      rfl

/-- A sequence of lookups finds nothing as soon as one does. -/
theorem mapM_eq_none_iff : l.mapM f = none ↔ ∃ a ∈ l, f a = none := by
  induction l with
  | nil => simp
  | cons a l ih =>
      rw [List.mapM_cons]
      cases ha : f a with
      | none => simp [ha]
      | some b =>
          cases hl : l.mapM f with
          | none => simpa [ha] using ih.mp hl
          | some bs =>
              have hrest : ¬∃ a ∈ l, f a = none := by
                rw [← ih, hl]
                simp
              simpa [ha] using hrest

theorem mapM_congr_mem (h : ∀ a ∈ l, f a = g a) : l.mapM f = l.mapM g := by
  induction l with
  | nil => rfl
  | cons a l ih =>
      obtain ⟨ha, hl⟩ := List.forall_mem_cons.mp h
      rw [List.mapM_cons, List.mapM_cons, ha, ih hl]

end Lookups

/-- A program over a state, with early returns. -/
def Action (σ ε α : Type) : Type := σ → Res ε α × σ

namespace Action

variable {σ ε α β : Type}

instance : Monad (Action σ ε) where
  pure a := fun s => (.ok a, s)
  bind x f := fun s =>
    match x s with
    | (.ok a, s)  => f a s
    | (.err e, s) => (.err e, s)
    | (.panic, s) => (.panic, s)

/-- A computation that only looks at the state. -/
def reads (f : σ → Res ε α) : Action σ ε α := fun s => (f s, s)

theorem reads_eq_ok {f : σ → Res ε α} {s s' : σ} {a : α} : reads f s = (.ok a, s') ↔ f s = .ok a ∧ s' = s := by
  show (f s, s) = (Res.ok a, s') ↔ _
  rw [Prod.mk.injEq]
  exact and_congr_right (fun _ => eq_comm)

theorem reads_eq_err {f : σ → Res ε α} {s s' : σ} {e : ε} : reads f s = (.err e, s') ↔ f s = .err e ∧ s' = s := by
  show (f s, s) = (Res.err e, s') ↔ _
  rw [Prod.mk.injEq]
  exact and_congr_right (fun _ => eq_comm)

theorem state_of_reads {f : σ → Res ε α} {s s' : σ} {r : Res ε α} (h : reads f s = (r, s')) : s' = s :=
  (Prod.mk.inj h).2.symm

theorem pure_eq_ok {s s' : σ} {a b : α} : (pure a : Action σ ε α) s = (.ok b, s') ↔ b = a ∧ s' = s := by
  show (Res.ok a, s) = (Res.ok b, s') ↔ _
  rw [Prod.mk.injEq, Res.ok.injEq]
  exact and_congr eq_comm eq_comm

/-- **Every way a sequence can end**: in its second part, or early in its first. -/
theorem bind_cases {x : Action σ ε α} {f : α → Action σ ε β} {s s' : σ} {r : Res ε β}
    (h : (x >>= f) s = (r, s')) :
    (∃ a s₁, x s = (.ok a, s₁) ∧ f a s₁ = (r, s')) ∨ (∃ e, x s = (.err e, s') ∧ r = .err e) ∨
      (x s = (.panic, s') ∧ r = .panic) := by
  change (match x s with
    | (.ok a, s)  => f a s
    | (.err e, s) => (.err e, s)
    | (.panic, s) => (.panic, s)) = (r, s') at h
  generalize x s = out at h ⊢
  obtain ⟨q, s₁⟩ := out
  cases q with
  | ok a => exact Or.inl ⟨a, s₁, rfl, h⟩
  | err e =>
      obtain ⟨rfl, rfl⟩ := Prod.mk.inj h
      exact Or.inr (Or.inl ⟨e, rfl, rfl⟩)
  | panic =>
      obtain ⟨rfl, rfl⟩ := Prod.mk.inj h
      exact Or.inr (Or.inr ⟨rfl, rfl⟩)

theorem bind_eq_ok {x : Action σ ε α} {f : α → Action σ ε β} {s s' : σ} {b : β} :
    (x >>= f) s = (.ok b, s') ↔ ∃ a s₁, x s = (.ok a, s₁) ∧ f a s₁ = (.ok b, s') := by
  constructor
  · intro h
    rcases bind_cases h with hok | ⟨e, -, he⟩ | ⟨-, he⟩
    · exact hok
    · cases he
    · cases he
  · rintro ⟨a, s₁, hx, hf⟩
    show (match x s with
      | (.ok a, s)  => f a s
      | (.err e, s) => (.err e, s)
      | (.panic, s) => (.panic, s)) = (.ok b, s')
    rw [hx]
    exact hf

theorem bind_of_ok {x : Action σ ε α} {f : α → Action σ ε β} {s s' : σ} {a : α} (h : x s = (.ok a, s')) :
    (x >>= f) s = f a s' := by
  show (match x s with
    | (.ok a, s)  => f a s
    | (.err e, s) => (.err e, s)
    | (.panic, s) => (.panic, s)) = f a s'
  rw [h]

theorem bind_of_err {x : Action σ ε α} {f : α → Action σ ε β} {s s' : σ} {e : ε} (h : x s = (.err e, s')) :
    (x >>= f) s = (.err e, s') := by
  show (match x s with
    | (.ok a, s)  => f a s
    | (.err e, s) => (.err e, s)
    | (.panic, s) => (.panic, s)) = (.err e, s')
  rw [h]

/-- An error of the first part is the sequence's. -/
theorem err_of_bind_err {x : Action σ ε α} {f : α → Action σ ε β} {s : σ} {e : ε} (h : (x s).1 = .err e) :
    ((x >>= f) s).1 = .err e := by
  have hx : x s = (.err e, (x s).2) := Prod.ext h rfl
  rw [bind_of_err hx]

/-- Only what the first part does in the state at hand matters. -/
theorem bind_congr {x y : Action σ ε α} {f : α → Action σ ε β} {s : σ} (h : x s = y s) : (x >>= f) s = (y >>= f) s := by
  show (match x s with
    | (.ok a, s)  => f a s
    | (.err e, s) => (.err e, s)
    | (.panic, s) => (.panic, s)) = _
  rw [h]
  rfl

/-- A sequence whose first part fails ends where that part left off. -/
theorem state_bind_of_fail {x : Action σ ε α} {f : α → Action σ ε β} {s : σ} (h : ∀ a, (x s).1 ≠ .ok a) :
    ((x >>= f) s).2 = (x s).2 := by
  show (match x s with
    | (.ok a, s)  => f a s
    | (.err e, s) => (.err e, s)
    | (.panic, s) => (.panic, s)).2 = _
  generalize x s = out at h ⊢
  obtain ⟨r, s'⟩ := out
  cases r with
  | ok a => exact absurd rfl (h a)
  | err e => rfl
  | panic => rfl

/-- A sequence whose second part only looks at the state ends where the first left off. -/
theorem state_bind_of_looks {x : Action σ ε α} {f : α → Action σ ε β} {s : σ} (hf : ∀ a s', (f a s').2 = s') :
    ((x >>= f) s).2 = (x s).2 := by
  show (match x s with
    | (.ok a, s)  => f a s
    | (.err e, s) => (.err e, s)
    | (.panic, s) => (.panic, s) : Res ε β × σ).2 = _
  obtain ⟨r, s'⟩ := x s
  cases r with
  | ok a => exact hf a s'
  | err e => rfl
  | panic => rfl

/-- A program that only dresses up the value of another ends in the state the other ends in. -/
theorem state_returns {x : Action σ ε α} {f : α → β} {s : σ} : ((x >>= fun a => pure (f a)) s).2 = (x s).2 :=
  state_bind_of_looks fun _ _ => rfl

theorem returns_cases {x : Action σ ε α} {f : α → β} {s s' : σ} {r : Res ε β}
    (h : (x >>= fun a => pure (f a)) s = (r, s')) (hr : r ≠ .panic) :
    (∃ a, x s = (.ok a, s') ∧ r = .ok (f a)) ∨ ∃ e, x s = (.err e, s') ∧ r = .err e := by
  rcases bind_cases h with ⟨a, s₁, hx, hpure⟩ | herr | ⟨-, rfl⟩
  · obtain ⟨rfl, rfl⟩ := Prod.mk.inj hpure
    exact Or.inl ⟨a, hx, rfl⟩
  · exact Or.inr herr
  · exact absurd rfl hr

/-- A program whose errors are reported as others. -/
def mapErr {ε' : Type} (g : ε → ε') (x : Action σ ε α) : Action σ ε' α := fun s => ((x s).1.mapErr g, (x s).2)

/-- **Every way it can end** is a way of the program itself. -/
theorem mapErr_cases {ε' : Type} {g : ε → ε'} {x : Action σ ε α} {s s' : σ} {r : Res ε' α}
    (h : mapErr g x s = (r, s')) :
    ∃ q, x s = (q, s') ∧ ((∃ a, q = .ok a ∧ r = .ok a) ∨ (∃ e, q = .err e ∧ r = .err (g e)) ∨
      (q = .panic ∧ r = .panic)) := by
  obtain ⟨hr, hs⟩ := Prod.mk.inj h
  refine ⟨(x s).1, Prod.ext rfl hs, ?_⟩
  rw [← hr]
  cases (x s).1 with
  | ok a => exact Or.inl ⟨a, rfl, rfl⟩
  | err e => exact Or.inr (Or.inl ⟨e, rfl, rfl⟩)
  | panic => exact Or.inr (Or.inr ⟨rfl, rfl⟩)

theorem mapErr_eq_ok {ε' : Type} {g : ε → ε'} {x : Action σ ε α} {s s' : σ} {a : α} :
    mapErr g x s = (.ok a, s') ↔ x s = (.ok a, s') := by
  constructor
  · intro h
    obtain ⟨q, hx, ⟨b, rfl, hb⟩ | ⟨e, -, he⟩ | ⟨-, he⟩⟩ := mapErr_cases h
    · obtain rfl := Res.ok.inj hb
      exact hx
    · cases he
    · cases he
  · intro h
    show ((x s).1.mapErr g, (x s).2) = _
    rw [h]
    rfl

theorem mapErr_eq_err {ε' : Type} {g : ε → ε'} {x : Action σ ε α} {s s' : σ} {e' : ε'} :
    mapErr g x s = (.err e', s') ↔ ∃ e, x s = (.err e, s') ∧ e' = g e := by
  constructor
  · intro h
    obtain ⟨q, hx, ⟨b, -, hb⟩ | ⟨e, rfl, he⟩ | ⟨-, he⟩⟩ := mapErr_cases h
    · cases hb
    · exact ⟨e, hx, Res.err.inj he⟩
    · cases he
  · rintro ⟨e, h, rfl⟩
    show ((x s).1.mapErr g, (x s).2) = _
    rw [h]
    rfl

/-! ## Relations between the state before and the state after -/

/-- However the program ends, the state it leaves is related to the state it found. -/
def Keeps (R : σ → σ → Prop) (x : Action σ ε α) : Prop := ∀ s, R s (x s).2

variable {R : σ → σ → Prop}

theorem keeps_pure (hrefl : ∀ s, R s s) (a : α) : Keeps R (pure a : Action σ ε α) := fun s => hrefl s

theorem keeps_reads (hrefl : ∀ s, R s s) (f : σ → Res ε α) : Keeps R (reads f) := fun s => hrefl s

/-- **Rule of sequencing.** -/
theorem Keeps.bind {x : Action σ ε α} {f : α → Action σ ε β} (htrans : ∀ a b c, R a b → R b c → R a c)
    (hx : Keeps R x) (hf : ∀ a, Keeps R (f a)) : Keeps R (x >>= f) := by
  intro s
  have hfirst := hx s
  generalize hout : (x >>= f) s = out
  obtain ⟨r, s'⟩ := out
  rcases bind_cases hout with ⟨a, s₁, hxs, hfs⟩ | ⟨e, hxs, -⟩ | ⟨hxs, -⟩
  · rw [hxs] at hfirst
    have hsecond := hf a s₁
    rw [hfs] at hsecond
    exact htrans _ _ _ hfirst hsecond
  · rw [hxs] at hfirst; exact hfirst
  · rw [hxs] at hfirst; exact hfirst

/-- **Rule of sequencing**, for the state a program ends in, however it ends. -/
theorem bind_ends {x : Action σ ε α} {f : α → Action σ ε β} {s : σ} {Q : σ → Prop} (hx : Q (x s).2)
    (hf : ∀ a s', x s = (.ok a, s') → Q (f a s').2) : Q ((x >>= f) s).2 := by
  generalize hout : (x >>= f) s = out
  obtain ⟨r, s'⟩ := out
  rcases bind_cases hout with ⟨a, s₁, hxs, hfs⟩ | ⟨e, hxs, -⟩ | ⟨hxs, -⟩
  · have hend := hf a s₁ hxs
    rwa [hfs] at hend
  · rwa [hxs] at hx
  · rwa [hxs] at hx

/-! ## Programs that do not panic -/

/-- A panic ends the program. -/
theorem bind_of_panic {x : Action σ ε α} {f : α → Action σ ε β} {s : σ} (h : (x s).1 = .panic) : ((x >>= f) s).1 = .panic := by
  generalize hout : (x >>= f) s = out
  obtain ⟨r, s'⟩ := out
  rcases bind_cases hout with ⟨a, s₁, hxs, -⟩ | ⟨e, hxs, -⟩ | ⟨-, rfl⟩
  · rw [hxs] at h
    cases h
  · rw [hxs] at h
    cases h
  · rfl

theorem bind_ne_panic {x : Action σ ε α} {f : α → Action σ ε β} {s : σ} (hx : (x s).1 ≠ .panic)
    (hf : ∀ a s', x s = (.ok a, s') → (f a s').1 ≠ .panic) : ((x >>= f) s).1 ≠ .panic := by
  intro h
  rcases bind_cases (Prod.ext h rfl : (x >>= f) s = (.panic, ((x >>= f) s).2)) with ⟨a, s₁, hxs, hfs⟩ | ⟨e, -, he⟩ | ⟨hxs, -⟩
  · exact hf a s₁ hxs (congrArg Prod.fst hfs)
  · cases he
  · exact hx (congrArg Prod.fst hxs)

/-- A sequence does not return an error that neither of its parts returns. -/
theorem bind_ne_err {x : Action σ ε α} {f : α → Action σ ε β} {s : σ} {e : ε} (hx : (x s).1 ≠ .err e)
    (hf : ∀ a s', x s = (.ok a, s') → (f a s').1 ≠ .err e) : ((x >>= f) s).1 ≠ .err e := by
  intro h
  rcases bind_cases (Prod.ext h rfl : (x >>= f) s = (.err e, ((x >>= f) s).2)) with ⟨a, s₁, hxs, hfs⟩ | ⟨e', hxs, he⟩ | ⟨-, he⟩
  · exact hf a s₁ hxs (congrArg Prod.fst hfs)
  · obtain rfl := Res.err.inj he
    exact hx (congrArg Prod.fst hxs)
  · cases he

/-! ## The errors a program may report -/

/-- Every error of the program is one of these. -/
def Raises (E : ε → Prop) (x : Action σ ε α) : Prop := ∀ s e s', x s = (.err e, s') → E e

variable {E : ε → Prop}

theorem raises_pure (a : α) : Raises E (pure a : Action σ ε α) := by
  intro s e s' h
  cases (Prod.mk.inj h).1

/-- **Rule of sequencing.** -/
theorem Raises.bind {x : Action σ ε α} {f : α → Action σ ε β} (hx : Raises E x) (hf : ∀ a, Raises E (f a)) :
    Raises E (x >>= f) := by
  intro s e s' h
  rcases bind_cases h with ⟨a, s₁, -, hfs⟩ | ⟨e', hxs, he⟩ | ⟨-, he⟩
  · exact hf a s₁ e s' hfs
  · obtain rfl := Res.err.inj he
    exact hx s e s' hxs
  · cases he

end Action

end Basis
