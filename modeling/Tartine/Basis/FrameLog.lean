import Mathlib.Data.List.Basic
import Mathlib.Data.List.Infix

/-!
# `Basis.FrameLog` — reading back an append-only log of variable-length entries

A log reader is a `probe`: at an offset it finds an entry and its size, the end of the log, or a corrupt
entry. `scanFrom` follows entries from an offset until the probe refuses; a log *writer* keeps a `Chain`, the
relation that the probe finds exactly the entries written, one after another.

* `scan_of_chain` — a chain that ends where the probe stops is recovered exactly, with the resume offset;
* `prefix_scan` — whatever lies past a chain, the chain's entries are a prefix of what is recovered;
* `scanFrom_isChain` — conversely, what a scan returns is a chain.

The loop carries fuel; `Bounded` (entries are non-empty and end below the capacity) makes it enough.

The usual probe reads a fixed-size header that announces a payload and checks the payload against it: a
`Framing` says how, `Framing.probe` is the reader, and `Framing.probe_eq_entry_iff` what it accepts.
-/

namespace Basis

variable {α : Type}

/-- What a log reader finds at an offset. -/
inductive Probe (α : Type) where
  | entry (a : α) (size : Nat)
  | stop
  | corrupt

/-- What a recovery scan reports. -/
@[ext] structure ScanResult (α : Type) where
  entries : List α
  resumeAt : Nat
  corruptionAt : Option Nat
  deriving DecidableEq

/-- The scan loop: follow entries from offset `c` until the probe refuses (or the fuel runs out). -/
def scanFrom (probe : Nat → Probe α) : Nat → Nat → ScanResult α
  | 0,     c => ⟨[], c, none⟩
  | k + 1, c =>
      match probe c with
      | .stop         => ⟨[], c, none⟩
      | .corrupt      => ⟨[], c, some c⟩
      | .entry a size =>
          let r := scanFrom probe k (c + size)
          ⟨a :: r.entries, r.resumeAt, r.corruptionAt⟩

/-- The probe finds the entries `as`, one after another, from offset `c` to offset `e`. -/
inductive Chain (probe : Nat → Probe α) : Nat → List α → Nat → Prop where
  | nil {c} : Chain probe c [] c
  | cons {c a n as e} : probe c = .entry a n → Chain probe (c + n) as e → Chain probe c (a :: as) e

/-- Every entry is non-empty and ends at or below `cap`. -/
def Bounded (probe : Nat → Probe α) (cap : Nat) : Prop :=
  ∀ c a n, probe c = .entry a n → 0 < n ∧ c + n ≤ cap

section Chains

variable {probe : Nat → Probe α} {cap : Nat}

/-! ## Chains -/

theorem Chain.append {c m e : Nat} {as bs : List α} (h : Chain probe c as m) (h' : Chain probe m bs e) :
    Chain probe c (as ++ bs) e := by
  induction h with
  | nil => exact h'
  | cons hp _ ih => exact .cons hp (ih h')

theorem Chain.snoc {c m n : Nat} {as : List α} {a : α} (h : Chain probe c as m)
    (hp : probe m = .entry a n) : Chain probe c (as ++ [a]) (m + n) :=
  h.append (.cons hp .nil)

theorem Chain.le {c e : Nat} {as : List α} (h : Chain probe c as e) : c ≤ e := by
  induction h with
  | nil => exact Nat.le_refl _
  | cons _ _ ih => exact Nat.le_trans (Nat.le_add_right _ _) ih

/-- A bounded chain has no more entries than bytes. -/
theorem Chain.length_le (hb : Bounded probe cap) {c e : Nat} {as : List α} (h : Chain probe c as e) :
    c + as.length ≤ e := by
  induction h with
  | nil => simp
  | cons hp _ ih =>
      have := (hb _ _ _ hp).1
      simp only [List.length_cons]
      omega

/-- A non-empty bounded chain ends within the capacity. -/
theorem Chain.end_le (hb : Bounded probe cap) {c e : Nat} {as : List α} (h : Chain probe c as e)
    (hc : c ≤ cap) : e ≤ cap := by
  induction h with
  | nil => exact hc
  | cons hp _ ih => exact ih (hb _ _ _ hp).2

/-- A probe that agrees with another below the end of a chain follows the same chain. -/
theorem Chain.congr {probe' : Nat → Probe α} {c e : Nat} {as : List α} (h : Chain probe c as e)
    (hag : ∀ x a n, c ≤ x → probe x = .entry a n → x + n ≤ e → probe' x = .entry a n) :
    Chain probe' c as e := by
  induction h with
  | nil => exact .nil
  | @cons c a n as e hp htail ih =>
      refine .cons (hag c a n (Nat.le_refl _) hp htail.le) (ih ?_)
      intro x a' n' hx
      exact hag x a' n' (by omega)

/-! ## Scanning along a chain -/

/-- With enough fuel, a scan first returns the entries of a chain, then continues at its end. -/
theorem scanFrom_chain {c e : Nat} {as : List α} (h : Chain probe c as e) (k : Nat) :
    (scanFrom probe (as.length + k) c).entries = as ++ (scanFrom probe k e).entries ∧
    (scanFrom probe (as.length + k) c).resumeAt = (scanFrom probe k e).resumeAt ∧
    (scanFrom probe (as.length + k) c).corruptionAt = (scanFrom probe k e).corruptionAt := by
  induction h with
  | nil => simp
  | @cons c a n as e hp _ ih =>
      rw [List.length_cons, Nat.add_right_comm]
      simp only [scanFrom, hp, List.cons_append, List.cons.injEq, true_and]
      exact ih

/-- The recovery scan over a region of `cap` bytes. -/
def scan (probe : Nat → Probe α) (cap : Nat) : ScanResult α := scanFrom probe (cap + 1) 0

/-- The fuel of `scan` outlasts any bounded chain. -/
theorem scan_chain_split (hb : Bounded probe cap) {e : Nat} {as : List α} (h : Chain probe 0 as e) :
    ∃ k, (scan probe cap).entries = as ++ (scanFrom probe (k + 1) e).entries ∧
      (scan probe cap).resumeAt = (scanFrom probe (k + 1) e).resumeAt ∧
      (scan probe cap).corruptionAt = (scanFrom probe (k + 1) e).corruptionAt := by
  have hlen := h.length_le hb
  have hend := h.end_le hb (Nat.zero_le cap)
  refine ⟨cap - as.length, ?_⟩
  have hfuel : cap + 1 = as.length + (cap - as.length + 1) := by omega
  unfold scan
  rw [hfuel]
  exact scanFrom_chain h _

/-- **A chain that ends where the probe stops is recovered exactly.** -/
theorem scan_of_chain (hb : Bounded probe cap) {e : Nat} {as : List α} (h : Chain probe 0 as e)
    (hstop : probe e = .stop) : scan probe cap = ⟨as, e, none⟩ := by
  obtain ⟨k, hent, hres, hcor⟩ := scan_chain_split hb h
  simp only [scanFrom, hstop, List.append_nil] at hent hres hcor
  exact ScanResult.ext hent hres hcor

/-- **A chain that ends at a corrupt entry is recovered up to it**, and the corruption is reported. -/
theorem scan_of_chain_corrupt (hb : Bounded probe cap) {e : Nat} {as : List α} (h : Chain probe 0 as e)
    (hcorrupt : probe e = .corrupt) : scan probe cap = ⟨as, e, some e⟩ := by
  obtain ⟨k, hent, hres, hcor⟩ := scan_chain_split hb h
  simp only [scanFrom, hcorrupt, List.append_nil] at hent hres hcor
  exact ScanResult.ext hent hres hcor

/-- **Whatever lies past a chain, its entries are a prefix of what is recovered.** -/
theorem prefix_scan (hb : Bounded probe cap) {e : Nat} {as : List α} (h : Chain probe 0 as e) :
    as <+: (scan probe cap).entries := by
  obtain ⟨k, hent, -, -⟩ := scan_chain_split hb h
  rw [hent]
  exact List.prefix_append _ _

/-- **A chain is all that is recovered** exactly if the reader finds no entry at its end. -/
theorem scan_eq_chain_iff (hb : Bounded probe cap) {e : Nat} {as : List α} (h : Chain probe 0 as e) :
    ((scan probe cap).entries = as ∧ (scan probe cap).resumeAt = e) ↔ ∀ a n, probe e ≠ .entry a n := by
  obtain ⟨k, hent, hres, -⟩ := scan_chain_split hb h
  rw [hent, hres]
  cases hp : probe e with
  | stop => simp [scanFrom, hp]
  | corrupt => simp [scanFrom, hp]
  | entry a n => simp [scanFrom, hp]

/-- What the loop returns is a chain from where it started to where it says to resume. -/
theorem scanFrom_isChain (probe : Nat → Probe α) (k c : Nat) :
    Chain probe c (scanFrom probe k c).entries (scanFrom probe k c).resumeAt := by
  induction k generalizing c with
  | zero => exact .nil
  | succ k ih =>
      cases hp : probe c with
      | stop => simp only [scanFrom, hp]; exact .nil
      | corrupt => simp only [scanFrom, hp]; exact .nil
      | entry a n => simp only [scanFrom, hp]; exact .cons hp (ih (c + n))

end Chains

/-! ## Framed entries: a header announces and checks a payload -/

/-- How entries are framed: a header of fixed size, or not a header at all; from it the payload's length and
    what the payload is checked against. -/
structure Framing (κ α : Type) where
  headerLen : Nat
  header : List UInt8 → Option (κ × Nat)
  accept : κ → List UInt8 → Option α

namespace Framing

variable {κ : Type} (F : Framing κ α)

/-- The reader of a framed log over a region of `cap` bytes; `read off n` fails past the end of the storage. -/
def probe (read : Nat → Nat → Option (List UInt8)) (cap c : Nat) : Probe α :=
  if cap < c + F.headerLen then .stop
  else
    match read c F.headerLen with
    | none   => .stop
    | some h =>
        match F.header h with
        | none          => .stop
        | some (k, len) =>
            if cap < c + F.headerLen + len then .stop
            else
              match read (c + F.headerLen) len with
              | none   => .stop
              | some p =>
                  match F.accept k p with
                  | none   => .corrupt
                  | some a => .entry a (F.headerLen + len)

variable {F} {read read' : Nat → Nat → Option (List UInt8)} {cap c : Nat}

/-- **An entry is found exactly on a frame**: a header, a payload of the announced length, within the region,
    that passes the check. -/
theorem probe_eq_entry_iff {a : α} {n : Nat} : F.probe read cap c = .entry a n ↔
    ∃ h k len p, read c F.headerLen = some h ∧ F.header h = some (k, len) ∧ n = F.headerLen + len ∧
      c + n ≤ cap ∧ read (c + F.headerLen) len = some p ∧ F.accept k p = some a := by
  unfold probe
  constructor
  · intro hp
    split at hp
    · cases hp
    · split at hp
      · cases hp
      · rename_i h hread
        split at hp
        · cases hp
        · rename_i k len hhead
          split at hp
          · cases hp
          · split at hp
            · cases hp
            · rename_i p hpay
              split at hp
              · cases hp
              · rename_i hacc
                cases hp
                exact ⟨h, k, len, p, hread, hhead, rfl, by omega, hpay, hacc⟩
  · rintro ⟨h, k, len, p, hread, hhead, rfl, hcap, hpay, hacc⟩
    rw [if_neg (by omega), hread]
    simp only [hhead]
    rw [if_neg (by omega), hpay]
    simp only [hacc]

/-- A frame whose payload fails the check is corrupt. -/
theorem probe_of_rejected {h p : List UInt8} {k : κ} {len : Nat} (hread : read c F.headerLen = some h)
    (hhead : F.header h = some (k, len)) (hcap : c + F.headerLen + len ≤ cap)
    (hpay : read (c + F.headerLen) len = some p) (hacc : F.accept k p = none) : F.probe read cap c = .corrupt := by
  unfold probe
  rw [if_neg (by omega), hread]
  simp only [hhead]
  rw [if_neg (by omega), hpay]
  simp only [hacc]

/-- A probe that finds no header stops. -/
theorem probe_of_no_header (h : ∀ bs, read c F.headerLen = some bs → F.header bs = none) :
    F.probe read cap c = .stop := by
  unfold probe
  split
  · rfl
  · split
    · rfl
    · rename_i bs hread
      rw [h bs hread]

/-- A frame that announces more than the region holds ends the log. -/
theorem probe_of_too_long (h : ∀ bs, read c F.headerLen = some bs →
    ∃ k len, F.header bs = some (k, len) ∧ cap < c + F.headerLen + len) : F.probe read cap c = .stop := by
  unfold probe
  by_cases hc : cap < c + F.headerLen
  · rw [if_pos hc]
  · rw [if_neg hc]
    cases hread : read c F.headerLen with
    | none => rfl
    | some bs =>
        obtain ⟨k, len, hhead, hlong⟩ := h bs hread
        simp only [hhead, if_pos hlong]

theorem probe_bounded (hpos : 0 < F.headerLen) : Bounded (F.probe read cap) cap := by
  intro c a n hp
  obtain ⟨h, k, len, p, -, -, rfl, hcap, -, -⟩ := probe_eq_entry_iff.mp hp
  exact ⟨by omega, hcap⟩

/-- A reader that still sees everything below `e` still follows a chain that ends at `e`. -/
theorem chain_mono {as : List α} {e : Nat} (h : Chain (F.probe read cap) c as e)
    (hread : ∀ off n bs, off + n ≤ e → read off n = some bs → read' off n = some bs) :
    Chain (F.probe read' cap) c as e := by
  refine h.congr ?_
  intro x a n _ hp hxe
  obtain ⟨h, k, len, p, hh, hhead, rfl, hcap, hpay, hacc⟩ := probe_eq_entry_iff.mp hp
  exact probe_eq_entry_iff.mpr
    ⟨h, k, len, p, hread _ _ _ (by omega) hh, hhead, rfl, hcap, hread _ _ _ (by omega) hpay, hacc⟩

/-- Readers that agree on the region find the same entries. -/
theorem probe_congr (hread : ∀ off n, off + n ≤ cap → read off n = read' off n) (c : Nat) :
    F.probe read cap c = F.probe read' cap c := by
  unfold probe
  by_cases hc : cap < c + F.headerLen
  · rw [if_pos hc, if_pos hc]
  · rw [if_neg hc, if_neg hc, hread _ _ (by omega)]
    cases read' c F.headerLen with
    | none => rfl
    | some h =>
        cases hk : F.header h with
        | none => simp only [hk]
        | some kl =>
            by_cases hl : cap < c + F.headerLen + kl.2
            · simp only [hk, if_pos hl]
            · simp only [hk, if_neg hl, hread _ _ (show c + F.headerLen + kl.2 ≤ cap by omega)]

end Framing

end Basis
