import Tartine.Basis.Action
import Tartine.Basis.Bytes
import Tartine.Basis.FrameLog

/-!
# `Basis.FrameStore` — framed logs on byte storage

`Basis.FrameLog` says how a log is read; here it is also written. A `Coding` of a framing gives the bytes of an entry, and
its laws say that reader and writer mean the same frames. Over a storage of `len` bytes:

* `Coding.probe_eq_entry_iff` — the reader finds an entry exactly where its bytes lie;
* `Coding.chain_iff` — and a chain of entries exactly where their bytes lie one after another;
* `Coding.scan_of_cut` — a log cut anywhere is recovered up to its last whole entry;
* `Coding.scan_of_damage` — a log with one payload that fails its check is recovered up to that entry;
* `Coding.scan_sound` — whatever the storage holds, what is recovered is what lies there.

`loop` is the scan as a program runs it, in 64-bit arithmetic and with no bound on its turns; `loop_eq` says that it ends,
overflows nowhere and returns what `scan` does.
-/

namespace Basis

/-- A storage of `len` bytes: a read past the end fails, an empty read never does. -/
def storage (f : Nat → UInt8) (len off n : Nat) : Option (List UInt8) :=
  if n = 0 ∨ off + n ≤ len then some (slice f off n) else none

theorem storage_eq_some {f : Nat → UInt8} {len off n : Nat} {bs : List UInt8} :
    storage f len off n = some bs ↔ (n = 0 ∨ off + n ≤ len) ∧ slice f off n = bs := by
  unfold storage
  by_cases h : n = 0 ∨ off + n ≤ len
  · simp [h]
  · simp [h]

namespace Framing

variable {κ α : Type}

/-- The writing side of a framing: the header and the payload of an entry. -/
structure Coding (F : Framing κ α) where
  key : α → κ
  head : α → List UInt8
  body : α → List UInt8
  /-- A payload shorter than this has a length that its field can hold. -/
  limit : Nat
  header_pos : 0 < F.headerLen
  length_head : ∀ a, (head a).length = F.headerLen
  header_head : ∀ a, (body a).length < limit → F.header (head a) = some (key a, (body a).length)
  /-- Whatever passes the reader's check is an entry as the writer writes it. -/
  of_accept : ∀ {h p k a}, h.length = F.headerLen → F.header h = some (k, p.length) → F.accept k p = some a →
    head a = h ∧ body a = p ∧ key a = k ∧ p.length < limit

namespace Coding

variable {F : Framing κ α} (C : Coding F)

def encode (a : α) : List UInt8 := C.head a ++ C.body a

/-- An entry that passes the check it is written with. -/
structure Valid (a : α) : Prop where
  accepted : F.accept (C.key a) (C.body a) = some a
  short : (C.body a).length < C.limit

/-- Where entry `j` of a log starts, and entry `j - 1` ends. -/
def start (as : List α) (j : Nat) : Nat := ((as.take j).flatMap C.encode).length

variable {C} {f g : Nat → UInt8} {len cap c e j : Nat} {a : α} {as : List α}

@[simp] theorem length_encode (a : α) : (C.encode a).length = F.headerLen + (C.body a).length := by
  simp [encode, C.length_head]

/-! ## One entry -/

variable (C) in
/-- **The reader finds an entry exactly where its bytes lie**, within the region and the storage. -/
theorem probe_eq_entry_iff {n : Nat} : F.probe (storage f len) cap c = .entry a n ↔
    C.Valid a ∧ n = (C.encode a).length ∧ c + n ≤ cap ∧ c + n ≤ len ∧ Holds f c (C.encode a) := by
  rw [Framing.probe_eq_entry_iff]
  constructor
  · rintro ⟨h, k, m, p, hh, hhead, rfl, hcap, hp, hacc⟩
    obtain ⟨hin, hslice⟩ := storage_eq_some.mp hh
    obtain ⟨hin', hslice'⟩ := storage_eq_some.mp hp
    have hpos := C.header_pos
    obtain rfl : p.length = m := by rw [← hslice', length_slice]
    have hlen : h.length = F.headerLen := by rw [← hslice, length_slice]
    obtain ⟨rfl, rfl, rfl, hshort⟩ := C.of_accept hlen hhead hacc
    refine ⟨⟨hacc, hshort⟩, (length_encode a).symm, hcap, by omega, ?_⟩
    refine holds_append.mpr ⟨?_, ?_⟩
    · unfold Holds
      rw [hlen, hslice]
    · unfold Holds
      rw [hlen, hslice']
  · rintro ⟨hvalid, rfl, hcap, hlen, hold⟩
    obtain ⟨hhead, hbody⟩ := holds_append.mp hold
    unfold Holds at hhead hbody
    rw [C.length_head] at hhead hbody
    rw [length_encode] at hcap hlen ⊢
    refine ⟨C.head a, C.key a, _, C.body a, storage_eq_some.mpr ⟨Or.inr (by omega), hhead⟩,
      C.header_head a hvalid.short, rfl, hcap, storage_eq_some.mpr ⟨Or.inr (by omega), hbody⟩, hvalid.accepted⟩

/-- **An entry that the storage ends inside of is the end of the log.** -/
theorem probe_of_torn (hshort : (C.body a).length < C.limit) (hold : Holds g c (C.encode a))
    (hag : ∀ i, i < len → f i = g i) (htorn : len < c + (C.encode a).length) :
    F.probe (storage f len) cap c = .stop := by
  rw [length_encode] at htorn
  have hpos := C.header_pos
  unfold Framing.probe
  by_cases hregion : cap < c + F.headerLen
  · rw [if_pos hregion]
  · rw [if_neg hregion]
    cases hh : storage f len c F.headerLen with
    | none => rfl
    | some h =>
        -- the header is whole, so it is the entry's, and the payload it announces is not
        obtain ⟨hin, hslice⟩ := storage_eq_some.mp hh
        have hhead : h = C.head a := by
          obtain ⟨hhold, -⟩ := holds_append.mp hold
          unfold Holds at hhold
          rw [C.length_head] at hhold
          rw [← hslice, ← hhold]
          exact slice_congr (fun i _ hi => hag i (by omega))
        have hread : storage f len (c + F.headerLen) (C.body a).length = none := by
          unfold storage
          rw [if_neg (by omega)]
        simp only [hhead, C.header_head a hshort, hread, ite_self]

/-! ## Entries in a row -/

@[simp] theorem start_zero (as : List α) : C.start as 0 = 0 := by simp [start]

variable (C) in
/-- **A chain of entries is their bytes in a row.** -/
theorem chain_iff : Chain (F.probe (storage f len) cap) c as e ↔
    (∀ a ∈ as, C.Valid a) ∧ e = c + (as.flatMap C.encode).length ∧ (as = [] ∨ e ≤ cap) ∧ (as = [] ∨ e ≤ len) ∧
      Holds f c (as.flatMap C.encode) := by
  induction as generalizing c e with
  | nil =>
      constructor
      · intro h
        cases h
        exact ⟨by simp, by simp, Or.inl rfl, Or.inl rfl, rfl⟩
      · rintro ⟨-, rfl, -, -, -⟩
        exact .nil
  | cons a as ih =>
      constructor
      · intro h
        cases h with
        | cons hp htail =>
            obtain ⟨hvalid, rfl, hcap, hlen, hold⟩ := C.probe_eq_entry_iff.mp hp
            obtain ⟨hvalids, rfl, hcap', hlen', hold'⟩ := ih.mp htail
            refine ⟨?_, ?_, Or.inr ?_, Or.inr ?_, ?_⟩
            · exact List.forall_mem_cons.mpr ⟨hvalid, hvalids⟩
            · rw [List.flatMap_cons, List.length_append, Nat.add_assoc]
            · rcases hcap' with rfl | hcap'
              · simpa using hcap
              · exact hcap'
            · rcases hlen' with rfl | hlen'
              · simpa using hlen
              · exact hlen'
            · rw [List.flatMap_cons]
              exact holds_append.mpr ⟨hold, hold'⟩
      · rintro ⟨hvalids, rfl, hcap, hlen, hold⟩
        obtain ⟨hvalid, hvalids⟩ := List.forall_mem_cons.mp hvalids
        rw [List.flatMap_cons] at hold
        obtain ⟨hhead, htail⟩ := holds_append.mp hold
        simp only [List.flatMap_cons, List.length_append, List.cons_ne_nil, false_or] at hcap hlen ⊢
        refine .cons (C.probe_eq_entry_iff.mpr ⟨hvalid, rfl, by omega, by omega, hhead⟩) (ih.mpr ?_)
        exact ⟨hvalids, by omega, Or.inr (by omega), Or.inr (by omega), htail⟩

/-- Entry `j` of a log that lies in `g` lies at its start. -/
theorem holds_start (hold : Holds g 0 (as.flatMap C.encode)) (hj : as[j]? = some a) :
    Holds g (C.start as j) (C.encode a) := by
  obtain ⟨hlt, rfl⟩ := List.getElem?_eq_some_iff.mp hj
  rw [← List.take_append_drop j as, List.flatMap_append] at hold
  obtain ⟨-, hrest⟩ := holds_append.mp hold
  rw [List.drop_eq_getElem_cons hlt, List.flatMap_cons, Nat.zero_add] at hrest
  exact (holds_append.mp hrest).1

theorem start_succ (hj : as[j]? = some a) : C.start as (j + 1) = C.start as j + (C.encode a).length := by
  unfold start
  rw [List.take_add_one, hj]
  simp

theorem start_mono {i : Nat} (h : i ≤ j) : C.start as i ≤ C.start as j := by
  have hcut : as.take j = as.take i ++ (as.take j).drop i := by
    rw [← Nat.min_eq_left h, ← List.take_take, Nat.min_eq_left h, List.take_append_drop]
  unfold start
  rw [hcut, List.flatMap_append, List.length_append]
  exact Nat.le_add_right _ _

/-- The first `n` entries of a log, where their bytes are all there. -/
theorem chain_take {n : Nat} (hvalid : ∀ a ∈ as.take n, C.Valid a) (hold : Holds f 0 ((as.take n).flatMap C.encode))
    (hcap : C.start as n ≤ cap) (hlen : C.start as n ≤ len) :
    Chain (F.probe (storage f len) cap) 0 (as.take n) (C.start as n) :=
  C.chain_iff.mpr ⟨hvalid, (Nat.zero_add _).symm, Or.inr hcap, Or.inr hlen, hold⟩

theorem bounded (C : Coding F) : Bounded (F.probe (storage f len) cap) cap := Framing.probe_bounded C.header_pos

/-! ## Logs that are cut, and logs that are damaged -/

/-- **A log cut anywhere is recovered up to its last whole entry.** The storage keeps the first `len` bytes of a log; it
    holds nothing the reader takes for an entry behind a log that it keeps whole. -/
theorem scan_of_cut (hvalid : ∀ a ∈ as, C.Valid a) (hold : Holds g 0 (as.flatMap C.encode))
    (hag : ∀ i, i < len → f i = g i) (hcap : C.start as as.length ≤ cap)
    (hend : C.start as as.length ≤ len → F.probe (storage f len) cap (C.start as as.length) = .stop) :
    ∃ n ≤ as.length, (∀ j < as.length, j < n ↔ C.start as (j + 1) ≤ len) ∧
      scan (F.probe (storage f len) cap) cap = ⟨as.take n, C.start as n, none⟩ := by
  -- `n` is the number of entries that end within the storage
  obtain ⟨n, hle, hn, hmax⟩ : ∃ n ≤ as.length, C.start as n ≤ len ∧ ∀ j ≤ as.length, n < j → len < C.start as j := by
    refine ⟨Nat.findGreatest (fun j => C.start as j ≤ len) as.length, Nat.findGreatest_le _, ?_, ?_⟩
    · exact Nat.findGreatest_spec (P := fun j => C.start as j ≤ len) (Nat.zero_le _) (by simp)
    · intro j hj hlt
      exact Nat.lt_of_not_le (Nat.findGreatest_is_greatest (P := fun j => C.start as j ≤ len) hlt hj)
  refine ⟨n, hle, ?_, ?_⟩
  · intro j hj
    constructor
    · intro hlt
      exact Nat.le_trans (start_mono hlt) hn
    · intro hfit
      by_contra hge
      have := hmax (j + 1) (by omega) (by omega)
      omega
  · have hprefix : Holds f 0 ((as.take n).flatMap C.encode) := by
      rw [← List.take_append_drop n as, List.flatMap_append] at hold
      refine (holds_append.mp hold).1.congr (fun i _ hi => hag i ?_)
      rw [Nat.zero_add] at hi
      exact Nat.lt_of_lt_of_le hi hn
    have hchain : Chain (F.probe (storage f len) cap) 0 (as.take n) (C.start as n) :=
      chain_take (fun a ha => hvalid a (List.mem_of_mem_take ha)) hprefix (Nat.le_trans (start_mono hle) hcap) hn
    refine scan_of_chain C.bounded hchain ?_
    by_cases hall : n = as.length
    · rw [hall] at hn ⊢
      exact hend hn
    · have hlt : n < as.length := by omega
      have hat : as[n]? = some as[n] := List.getElem?_eq_getElem hlt
      refine probe_of_torn (hvalid _ (List.getElem_mem hlt)).short (holds_start hold hat) hag ?_
      rw [← start_succ hat]
      exact hmax (n + 1) hlt (Nat.lt_succ_self n)

/-- **A log with one payload that fails its check is recovered up to that entry**, and the damage is reported. -/
theorem scan_of_damage (hvalid : ∀ a ∈ as.take (j + 1), C.Valid a) (hat : as[j]? = some a)
    (hold : Holds g 0 ((as.take (j + 1)).flatMap C.encode)) (hcap : C.start as (j + 1) ≤ cap)
    (hlen : C.start as (j + 1) ≤ len)
    (hag : ∀ i, f i ≠ g i → C.start as j + F.headerLen ≤ i ∧ i < C.start as (j + 1))
    (hrejected : F.accept (C.key a) (slice f (C.start as j + F.headerLen) (C.body a).length) = none) :
    scan (F.probe (storage f len) cap) cap = ⟨as.take j, C.start as j, some (C.start as j)⟩ := by
  have hsplit : as.take (j + 1) = as.take j ++ [a] := by rw [List.take_add_one, hat]; rfl
  have hsucc := start_succ (C := C) hat
  rw [length_encode] at hsucc
  rw [hsplit, List.flatMap_append] at hold
  obtain ⟨hbefore, hentry⟩ := holds_append.mp hold
  rw [Nat.zero_add, List.flatMap_singleton] at hentry
  -- the damage starts behind the header, so the header and everything before it read as written
  have hkept : ∀ i, i < C.start as j + F.headerLen → f i = g i := by
    intro i hi
    by_contra hdiff
    have := hag i hdiff
    omega
  refine scan_of_chain_corrupt C.bounded (chain_take ?_ ?_ (by omega) (by omega)) ?_
  · intro b hb
    exact hvalid b (by rw [hsplit]; exact List.mem_append_left _ hb)
  · refine hbefore.congr (fun i _ hi => hkept i ?_)
    rw [Nat.zero_add] at hi
    exact Nat.lt_add_right _ hi
  · have hshort := (hvalid a (by rw [hsplit]; simp)).short
    obtain ⟨hhead, -⟩ := holds_append.mp hentry
    unfold Holds at hhead
    rw [C.length_head] at hhead
    refine Framing.probe_of_rejected (h := C.head a) ?_ (C.header_head a hshort) (by omega) ?_ hrejected
    · refine storage_eq_some.mpr ⟨Or.inr (by omega), ?_⟩
      rw [← hhead]
      exact slice_congr (fun i _ hi => hkept i hi)
    · exact storage_eq_some.mpr ⟨Or.inr (by omega), rfl⟩

/-- **Whatever the storage holds, what is recovered is what lies there**: the bytes up to where to resume are those of the
    entries returned, each of which passes its check. -/
theorem scan_sound (C : Coding F) : let r := scan (F.probe (storage f len) cap) cap
    r.resumeAt ≤ cap ∧ (r.resumeAt = 0 ∨ r.resumeAt ≤ len) ∧
      r.entries.flatMap C.encode = slice f 0 r.resumeAt ∧ ∀ a ∈ r.entries, C.Valid a := by
  intro r
  have hchain : Chain (F.probe (storage f len) cap) 0 r.entries r.resumeAt := scanFrom_isChain _ _ _
  obtain ⟨hvalid, hend, hcap, hlen, hold⟩ := C.chain_iff.mp hchain
  rw [Nat.zero_add] at hend
  refine ⟨hchain.end_le C.bounded (Nat.zero_le _), hlen.imp_left (fun hnil => ?_), ?_, hvalid⟩
  · rw [hend, hnil]
    rfl
  · rw [hend]
    exact hold.symm

end Coding

/-! ## The loop as it runs -/

section Loop

variable {ε : Type} (F : Framing κ α) (read : UInt64 → Nat → Option (List UInt8)) (base cap : UInt64)

/-- One turn at `cursor`, in the arithmetic of the machine. -/
def turn (cursor : UInt64) : Res ε (Probe α) := do
  let headerEnd ← Res.checkedAdd cursor (UInt64.ofNat F.headerLen)
  if cap < headerEnd then pure .stop
  else do
    let headerAt ← Res.checkedAdd base cursor
    match read headerAt F.headerLen with
    | none   => pure .stop
    | some h =>
        match F.header h with
        | none          => pure .stop
        | some (k, len) => do
            let bodyEnd ← Res.checkedAdd headerEnd (UInt64.ofNat len)
            if cap < bodyEnd then pure .stop
            else do
              let bodyAt ← Res.checkedAdd headerAt (UInt64.ofNat F.headerLen)
              match read bodyAt len with
              | none   => pure .stop
              | some p =>
                  match F.accept k p with
                  | none   => pure .corrupt
                  | some a => pure (.entry a (F.headerLen + len))

/-- The loop from `cursor`, with the entries found so far; `none` if it still runs after `fuel` turns. -/
def loop : Nat → UInt64 → List α → Option (Res ε (ScanResult α))
  | 0,        _,      _     => none
  | fuel + 1, cursor, found =>
      match (F.turn read base cap cursor : Res ε (Probe α)) with
      | .panic          => some .panic
      | .err e          => some (.err e)
      | .ok .stop       => some (.ok ⟨found, cursor.toNat, none⟩)
      | .ok .corrupt    => some (.ok ⟨found, cursor.toNat, some cursor.toNat⟩)
      | .ok (.entry a n) =>
          match (Res.checkedAdd cursor (UInt64.ofNat n) : Res ε UInt64) with
          | .panic     => some .panic
          | .err e     => some (.err e)
          | .ok cursor => loop fuel cursor (found ++ [a])

end Loop

section LoopEnds

variable {ε : Type} {F : Framing κ α} {read : UInt64 → Nat → Option (List UInt8)} {base cap : UInt64}
  {read' : Nat → Nat → Option (List UInt8)}

/-- An addition that stays below `2^64`. -/
theorem checkedAdd_ofNat {x : UInt64} {n : Nat} (h : x.toNat + n < 2 ^ 64) :
    ∃ y : UInt64, (Res.checkedAdd x (UInt64.ofNat n) : Res ε UInt64) = .ok y ∧ y.toNat = x.toNat + n := by
  have hn : (UInt64.ofNat n).toNat = n := UInt64.toNat_ofNat_of_lt' (by show n < 2 ^ 64; omega)
  refine ⟨x + UInt64.ofNat n, ?_, ?_⟩
  · unfold Res.checkedAdd
    rw [hn, if_pos h]
  · rw [UInt64.toNat_add, hn, Nat.mod_eq_of_lt h]

/-- **A turn inside the region does not overflow**: it finds what the reader finds there. -/
theorem turn_eq (hread : ∀ x y : UInt64, x.toNat = base.toNat + y.toNat → ∀ n, read x n = read' y.toNat n)
    (hbase : base.toNat + cap.toNat < 2 ^ 64) (hcap : cap.toNat + F.headerLen + 2 ^ 32 < 2 ^ 64)
    (hlen : ∀ h k len, F.header h = some (k, len) → len < 2 ^ 32) {cursor : UInt64} (hc : cursor.toNat ≤ cap.toNat) :
    (F.turn read base cap cursor : Res ε (Probe α)) = .ok (F.probe read' cap.toNat cursor.toNat) := by
  -- every sum of the turn stays below `2^64`, so each checked addition is the plain one
  obtain ⟨headerEnd, hheaderEnd, hhe⟩ := checkedAdd_ofNat (ε := ε) (x := cursor) (n := F.headerLen) (by omega)
  unfold turn Framing.probe
  rw [hheaderEnd, Res.ok_bind]
  have hcond : (cap < headerEnd) ↔ cap.toNat < cursor.toNat + F.headerLen := by rw [UInt64.lt_iff_toNat_lt, hhe]
  by_cases hover : cap.toNat < cursor.toNat + F.headerLen
  · rw [if_pos (hcond.mpr hover), if_pos hover]
    rfl
  · rw [if_neg (fun h => hover (hcond.mp h)), if_neg hover]
    obtain ⟨headerAt, hheaderAt, hha⟩ := checkedAdd_ofNat (ε := ε) (x := base) (n := cursor.toNat) (by omega)
    rw [UInt64.ofNat_toNat] at hheaderAt
    rw [hheaderAt, Res.ok_bind, hread headerAt cursor hha]
    cases read' cursor.toNat F.headerLen with
    | none => rfl
    | some h =>
        dsimp only
        cases hhead : F.header h with
        | none => rfl
        | some kl =>
            obtain ⟨k, len⟩ := kl
            have hl := hlen h k len hhead
            obtain ⟨bodyEnd, hbodyEnd, hbe⟩ := checkedAdd_ofNat (ε := ε) (x := headerEnd) (n := len) (by omega)
            have hcond' : (cap < bodyEnd) ↔ cap.toNat < cursor.toNat + F.headerLen + len := by
              rw [UInt64.lt_iff_toNat_lt, hbe, hhe]
            dsimp only
            rw [hbodyEnd, Res.ok_bind]
            by_cases hover' : cap.toNat < cursor.toNat + F.headerLen + len
            · rw [if_pos (hcond'.mpr hover'), if_pos hover']
              rfl
            · rw [if_neg (fun h => hover' (hcond'.mp h)), if_neg hover']
              obtain ⟨bodyAt, hbodyAt, hba⟩ :=
                checkedAdd_ofNat (ε := ε) (x := headerAt) (n := F.headerLen) (by omega)
              rw [hbodyAt, Res.ok_bind, hread bodyAt headerEnd (by omega), hhe]
              cases read' (cursor.toNat + F.headerLen) len with
              | none => rfl
              | some p =>
                  dsimp only
                  cases F.accept k p with
                  | none => rfl
                  | some a => rfl

/-- **The loop ends, overflows nowhere and returns what the scan returns.** -/
theorem loop_eq (hread : ∀ x y : UInt64, x.toNat = base.toNat + y.toNat → ∀ n, read x n = read' y.toNat n)
    (hbase : base.toNat + cap.toNat < 2 ^ 64) (hcap : cap.toNat + F.headerLen + 2 ^ 32 < 2 ^ 64)
    (hlen : ∀ h k len, F.header h = some (k, len) → len < 2 ^ 32) (hpos : 0 < F.headerLen) {fuel k : Nat}
    {cursor : UInt64} {found : List α} (hc : cursor.toNat ≤ cap.toNat) (hfuel : cap.toNat < cursor.toNat + fuel)
    (hk : cap.toNat < cursor.toNat + k) :
    let r := scanFrom (F.probe read' cap.toNat) k cursor.toNat
    (F.loop read base cap fuel cursor found : Option (Res ε (ScanResult α))) =
      some (.ok ⟨found ++ r.entries, r.resumeAt, r.corruptionAt⟩) := by
  -- each turn either ends the loop or moves the cursor on, towards the end of the region
  induction fuel generalizing k cursor found with
  | zero => omega
  | succ fuel ih =>
      obtain ⟨k, rfl⟩ : ∃ k', k = k' + 1 := ⟨k - 1, by omega⟩
      simp only [loop, turn_eq hread hbase hcap hlen hc, scanFrom]
      cases hp : F.probe read' cap.toNat cursor.toNat with
      | stop => simp
      | corrupt => simp
      | entry a n =>
          obtain ⟨hn, hend⟩ := Framing.probe_bounded hpos _ _ _ hp
          obtain ⟨next, hnext, hval⟩ := checkedAdd_ofNat (ε := ε) (x := cursor) (n := n) (by omega)
          simp only [hnext]
          have hrest := @ih k next (found ++ [a]) (by omega) (by omega) (by omega)
          dsimp only at hrest
          rw [hrest, hval, List.append_assoc]
          rfl

end LoopEnds

end Framing

end Basis
