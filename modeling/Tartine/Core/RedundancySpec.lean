import Mathlib.Data.List.DropRight
import Tartine.Basis.Action
import Tartine.Basis.Numeral
import Tartine.Kcore.Placement
import Tartine.Proto

/-!
# `Core.RedundancySpec` — redundancy schemes as text

`tartine-core/src/redundancy_spec.rs`: the spec syntax of a redundancy scheme, its parser and its printer. A text is the
list of its characters.

The syntax is stated as a derivation system (`SpecSyntax`) with its notion of a number left open. The parser reads
numbers with the standard library, which lets a plus sign stand before the digits, so what it accepts is the syntax over
`SignedNumeral` (`parse_eq_ok`); the documented grammar is the syntax over `Numeral`.

* `parse_format` — a printed scheme is read back as itself;
* `parse_grammar_iff` — the specs on which the parser departs from the grammar are the ones with a plus sign before a number.
-/

namespace Tartine.RedundancySpec

open Basis Kcore

inductive ParseError where
  | empty
  | unknownSlot (s : List Char)
  | badUuid (s : List Char)
  | badErasureCoding (s : List Char)
  | tooManySlots (n : Nat)
  deriving DecidableEq, Repr

/-! ## Texts -/

/-- The code points with the `White_Space` property. -/
def whiteSpace : List Nat :=
  [0x9, 0xa, 0xb, 0xc, 0xd, 0x20, 0x85, 0xa0, 0x1680, 0x2000, 0x2001, 0x2002, 0x2003, 0x2004, 0x2005, 0x2006, 0x2007,
    0x2008, 0x2009, 0x200a, 0x2028, 0x2029, 0x202f, 0x205f, 0x3000]

/-- `char::is_whitespace`. -/
def isWhitespace (c : Char) : Bool := whiteSpace.contains c.toNat

/-- `str::trim`. -/
def trim (s : List Char) : List Char := (s.dropWhile isWhitespace).rdropWhile isWhitespace

/-- `str::split_once`: around the first `sep`. -/
def splitOnce (sep : Char) : List Char → Option (List Char × List Char)
  | []      => none
  | c :: cs => if c = sep then some ([], cs) else (splitOnce sep cs).map fun s => (c :: s.1, s.2)

/-! ## The parser -/

def parseUuidHex (s : List Char) : Res ParseError Uuid :=
  let digits := s.filter (· ≠ '-')
  match fromStrRadix 16 (2 ^ 128 - 1) digits with
  | some n => .ok ⟨BitVec.ofNat 128 n⟩
  | none   => .err (.badUuid s)

def parseSlot (term : List Char) : Res ParseError ReplicaSlot :=
  if term = "any".toList then .ok (.anyOfClass none)
  else if term = "hdd".toList then .ok (.anyOfClass (some .hdd))
  else if term = "ssd".toList then .ok (.anyOfClass (some .ssd))
  else if term = "nvme".toList then .ok (.anyOfClass (some .nvme))
  else
    match term.dropPrefix? "disk:".toList with
    | some id => do
        let uuid ← parseUuidHex id
        .ok (.pinned uuid)
    | none    => .err (.unknownSlot term)

def parse (spec : List Char) : Res ParseError RedundancyScheme :=
  let spec := trim spec
  if spec = [] then .err .empty
  else
    match spec.dropPrefix? "rs:".toList with
    | some rs =>
        match splitOnce '+' rs with
        | none        => .err (.badErasureCoding spec)
        | some (k, m) =>
            match fromStrRadix 10 (2 ^ 8 - 1) k, fromStrRadix 10 (2 ^ 8 - 1) m with
            | some dataShards, some parityShards =>
                .ok (.erasureCoded (UInt8.ofNat dataShards) (UInt8.ofNat parityShards))
            | _, _ => .err (.badErasureCoding spec)
    | none    =>
        match fromStrRadix 10 (2 ^ 64 - 1) spec with
        | some n =>
            if maxSelect < n then .err (.tooManySlots n)
            else .ok (.replicated (List.replicate n (.anyOfClass none)))
        | none   => do
            let slots ← (spec.splitOn ',').mapM fun t => parseSlot (trim t)
            if maxSelect < slots.length then .err (.tooManySlots slots.length)
            else .ok (.replicated slots)

/-! ## The printer -/

def formatSlot : ReplicaSlot → List Char
  | .anyOfClass none         => "any".toList
  | .anyOfClass (some .hdd)  => "hdd".toList
  | .anyOfClass (some .ssd)  => "ssd".toList
  | .anyOfClass (some .nvme) => "nvme".toList
  | .pinned id               => "disk:".toList ++ (Nat.toDigits 16 id.val.toNat).leftpad 32 '0'

def format : RedundancyScheme → List Char
  | .replicated slots                     => [','].intercalate (slots.map formatSlot)
  | .erasureCoded dataShards parityShards =>
      "rs:".toList ++ (Nat.toDigits 10 dataShards.toNat ++ '+' :: Nat.toDigits 10 parityShards.toNat)

example : parse " hdd , disk:0-2a ".toList = .ok (.replicated [.anyOfClass (some .hdd), .pinned ⟨42⟩]) := by decide +kernel

/-! ## The grammar -/

/-- A slot's text, over a notion of number: in a disk id, the digits are what is left without the dashes. -/
inductive SlotSyntax (Num : Nat → List Char → Nat → Prop) : List Char → ReplicaSlot → Prop where
  | any : SlotSyntax Num "any".toList (.anyOfClass none)
  | hdd : SlotSyntax Num "hdd".toList (.anyOfClass (some .hdd))
  | ssd : SlotSyntax Num "ssd".toList (.anyOfClass (some .ssd))
  | nvme : SlotSyntax Num "nvme".toList (.anyOfClass (some .nvme))
  | disk {id : List Char} {n : Nat} (hnum : Num 16 (id.filter (· ≠ '-')) n) (hfit : n ≤ 2 ^ 128 - 1) :
      SlotSyntax Num ("disk:".toList ++ id) (.pinned ⟨BitVec.ofNat 128 n⟩)

/-- A spec's text without the white space around it, and the scheme it denotes. -/
inductive SpecSyntax (Num : Nat → List Char → Nat → Prop) : List Char → RedundancyScheme → Prop where
  | count {s : List Char} {n : Nat} (hnum : Num 10 s n) (hfit : n ≤ maxSelect) :
      SpecSyntax Num s (.replicated (List.replicate n (.anyOfClass none)))
  | slots {terms : List (List Char)} {slots : List ReplicaSlot} (hne : terms ≠ []) (hfit : terms.length ≤ maxSelect)
      (hslots : List.Forall₂ (fun t slot => SlotSyntax Num (trim t) slot) terms slots) :
      SpecSyntax Num ([','].intercalate terms) (.replicated slots)
  | erasure {k m : List Char} {dataShards parityShards : Nat} (hk : Numeral 10 k dataShards) (hm : Num 10 m parityShards)
      (hdata : dataShards ≤ 2 ^ 8 - 1) (hparity : parityShards ≤ 2 ^ 8 - 1) :
      SpecSyntax Num ("rs:".toList ++ (k ++ '+' :: m))
        (.erasureCoded (UInt8.ofNat dataShards) (UInt8.ofNat parityShards))

variable {Num : Nat → List Char → Nat → Prop} {s t : List Char} {slot : ReplicaSlot} {scheme : RedundancyScheme}

/-! ## White space -/

/-- What is trimmed off is white space. -/
theorem exists_trim (s : List Char) : ∃ pre post, s = pre ++ trim s ++ post ∧ (∀ c ∈ pre, isWhitespace c) ∧
    ∀ c ∈ post, isWhitespace c := by
  have hfront : s.takeWhile isWhitespace ++ s.dropWhile isWhitespace = s := List.takeWhile_append_dropWhile
  have hback := List.rdropWhile_append_rtakeWhile (p := isWhitespace) (l := s.dropWhile isWhitespace)
  refine ⟨s.takeWhile isWhitespace, (s.dropWhile isWhitespace).rtakeWhile isWhitespace, ?_, ?_, ?_⟩
  · rw [List.append_assoc, trim, hback, hfront]
  · exact fun c hc => List.mem_takeWhile_imp hc
  · exact fun c hc => List.mem_rtakeWhile_imp hc

theorem mem_trim {c : Char} (hc : isWhitespace c = false) (h : c ∈ s) : c ∈ trim s := by
  obtain ⟨pre, post, hs, hpre, hpost⟩ := exists_trim s
  rw [hs] at h
  rcases List.mem_append.mp h with h | h
  · rcases List.mem_append.mp h with h | h
    · rw [hpre c h] at hc
      cases hc
    · exact h
  · rw [hpost c h] at hc
    cases hc

/-- A text without white space is not trimmed. -/
theorem trim_eq_self (h : ∀ c ∈ s, isWhitespace c = false) : trim s = s := by
  obtain ⟨pre, post, hs, hpre, hpost⟩ := exists_trim s
  have hnone : ∀ l : List Char, (∀ c ∈ l, isWhitespace c) → (∀ c ∈ l, c ∈ s) → l = [] := by
    intro l hwhite hmem
    refine List.eq_nil_iff_forall_not_mem.mpr fun c hc => ?_
    have hnot := h c (hmem c hc)
    rw [hwhite c hc] at hnot
    cases hnot
  have hpre' : pre = [] := hnone pre hpre fun c hc => by rw [hs]; simp [hc]
  have hpost' : post = [] := hnone post hpost fun c hc => by rw [hs]; simp [hc]
  rw [hpre', hpost', List.nil_append, List.append_nil] at hs
  exact hs.symm

/-- A white-space character is no digit. -/
theorem toDigit_of_isWhitespace {radix : Nat} {c : Char} (hradix : radix ≤ 16) (h : isWhitespace c) :
    toDigit radix c = none := by
  have hall : ∀ r < 17, ∀ n ∈ whiteSpace, toDigit r (Char.ofNat n) = none := by decide
  have hnone := hall radix (Nat.lt_succ_of_le hradix) c.toNat (List.contains_iff_mem.mp h)
  rwa [Char.ofNat_toNat] at hnone

/-- White space is none of the signs of the syntax. -/
theorem not_sign_of_isWhitespace {c : Char} (h : isWhitespace c) : c ∉ "rs:+,".toList := by
  have hall : ∀ n ∈ whiteSpace, Char.ofNat n ∉ "rs:+,".toList := by decide
  have hmem := hall c.toNat (List.contains_iff_mem.mp h)
  rwa [Char.ofNat_toNat] at hmem

/-! ## Reading the parts -/

theorem splitOnce_eq_some {sep : Char} {k m : List Char} :
    splitOnce sep s = some (k, m) ↔ s = k ++ sep :: m ∧ sep ∉ k := by
  induction s generalizing k with
  | nil => simp [splitOnce]
  | cons c cs ih =>
      rw [splitOnce]
      split
      · rename_i hc
        subst hc
        constructor
        · intro h
          obtain ⟨rfl, rfl⟩ := Prod.mk.inj (Option.some.inj h)
          exact ⟨rfl, List.not_mem_nil⟩
        · rintro ⟨h, hk⟩
          cases k with
          | nil =>
              obtain ⟨-, rfl⟩ := List.cons.inj h
              rfl
          | cons c' k =>
              obtain ⟨rfl, -⟩ := List.cons.inj h
              exact absurd List.mem_cons_self hk
      · rename_i hc
        constructor
        · intro h
          obtain ⟨⟨k', m'⟩, hsplit, heq⟩ := Option.map_eq_some_iff.mp h
          obtain ⟨rfl, rfl⟩ := Prod.mk.inj heq
          obtain ⟨rfl, hk⟩ := ih.mp hsplit
          exact ⟨rfl, List.not_mem_cons_of_ne_of_not_mem (Ne.symm hc) hk⟩
        · rintro ⟨h, hk⟩
          cases k with
          | nil => exact absurd (List.cons.inj h).1 hc
          | cons c' k =>
              obtain ⟨rfl, rfl⟩ := List.cons.inj h
              rw [ih.mpr ⟨rfl, List.not_mem_of_not_mem_cons hk⟩]
              rfl

theorem dropPrefix?_eq_some {pre rest : List Char} : s.dropPrefix? pre = some rest ↔ s = pre ++ rest := by
  rw [List.dropPrefix?_eq_some_iff]
  constructor
  · rintro ⟨p, rfl, hp⟩
    rw [eq_of_beq hp]
  · rintro rfl
    exact ⟨pre, rfl, beq_self_eq_true pre⟩

theorem dropPrefix?_eq_none {pre : List Char} (h : ∀ rest, s ≠ pre ++ rest) : s.dropPrefix? pre = none :=
  Option.eq_none_iff_forall_ne_some.mpr fun rest hrest => h rest (dropPrefix?_eq_some.mp hrest)

theorem fromStrRadix_hex {max n : Nat} : fromStrRadix 16 max s = some n ↔ SignedNumeral 16 s n ∧ n ≤ max :=
  fromStrRadix_eq_some (by decide) (by decide) (by decide)

theorem fromStrRadix_decimal {max n : Nat} : fromStrRadix 10 max s = some n ↔ SignedNumeral 10 s n ∧ n ≤ max :=
  fromStrRadix_eq_some (by decide) (by decide) (by decide)

theorem parseUuidHex_eq_ok {id : Uuid} : parseUuidHex s = .ok id ↔
    ∃ n, SignedNumeral 16 (s.filter (· ≠ '-')) n ∧ n ≤ 2 ^ 128 - 1 ∧ id = ⟨BitVec.ofNat 128 n⟩ := by
  unfold parseUuidHex
  dsimp only
  cases hread : fromStrRadix 16 (2 ^ 128 - 1) (s.filter (· ≠ '-')) with
  | none =>
      simp only [reduceCtorEq, false_iff, not_exists, not_and]
      rintro n hnum hfit rfl
      rw [fromStrRadix_hex.mpr ⟨hnum, hfit⟩] at hread
      cases hread
  | some n =>
      obtain ⟨hnum, hfit⟩ := fromStrRadix_hex.mp hread
      constructor
      · intro h
        exact ⟨n, hnum, hfit, (Res.ok.inj h).symm⟩
      · rintro ⟨n', hnum', hfit', rfl⟩
        rw [fromStrRadix_hex.mpr ⟨hnum', hfit'⟩] at hread
        obtain rfl := Option.some.inj hread
        rfl

/-- **A slot is read by its syntax.** -/
theorem parseSlot_eq_ok : parseSlot t = .ok slot ↔ SlotSyntax SignedNumeral t slot := by
  constructor
  · intro h
    unfold parseSlot at h
    split_ifs at h with hany hhdd hssd hnvme
    · rw [hany, ← Res.ok.inj h]
      exact .any
    · rw [hhdd, ← Res.ok.inj h]
      exact .hdd
    · rw [hssd, ← Res.ok.inj h]
      exact .ssd
    · rw [hnvme, ← Res.ok.inj h]
      exact .nvme
    · cases hdrop : t.dropPrefix? "disk:".toList with
      | none =>
          rw [hdrop] at h
          cases h
      | some id =>
          rw [hdrop] at h
          obtain ⟨uuid, huuid, h⟩ := Res.bind_eq_ok.mp h
          obtain ⟨n, hnum, hfit, rfl⟩ := parseUuidHex_eq_ok.mp huuid
          rw [dropPrefix?_eq_some.mp hdrop, ← Res.ok.inj h]
          exact .disk hnum hfit
  · intro h
    cases h with
    | any => rfl
    | hdd => rfl
    | ssd => rfl
    | nvme => rfl
    | @disk id n hnum hfit =>
        have hlong : ∀ w : List Char, w.length < 5 → "disk:".toList ++ id ≠ w := by
          rintro w hw rfl
          rw [List.length_append] at hw
          exact absurd hw (Nat.not_lt.mpr (Nat.le_add_right 5 _))
        unfold parseSlot
        rw [if_neg (hlong _ (by decide)), if_neg (hlong _ (by decide)), if_neg (hlong _ (by decide)),
          if_neg (hlong _ (by decide)), dropPrefix?_eq_some.mpr rfl]
        dsimp only
        rw [parseUuidHex_eq_ok.mpr ⟨n, hnum, hfit, rfl⟩, Res.ok_bind]

/-! ## Telling the alternatives apart -/

/-- The text begins the way a slot does, white space before it included. -/
def SlotStart (s : List Char) : Prop := ∃ c rest, s = c :: rest ∧ (isWhitespace c ∨ c ∈ "ahsnd".toList)

theorem SlotSyntax.slotStart (h : SlotSyntax Num (trim t) slot) : SlotStart t := by
  have hhead : ∃ c rest, trim t = c :: rest ∧ c ∈ "ahsnd".toList := by
    generalize trim t = w at h
    cases h with
    | any => exact ⟨'a', "ny".toList, rfl, by decide⟩
    | hdd => exact ⟨'h', "dd".toList, rfl, by decide⟩
    | ssd => exact ⟨'s', "sd".toList, rfl, by decide⟩
    | nvme => exact ⟨'n', "vme".toList, rfl, by decide⟩
    | disk => exact ⟨'d', _, rfl, by decide⟩
  obtain ⟨c, rest, htrim, hc⟩ := hhead
  obtain ⟨pre, post, ht, hpre, -⟩ := exists_trim t
  rw [htrim] at ht
  cases pre with
  | nil => exact ⟨c, rest ++ post, ht, Or.inr hc⟩
  | cons w pre => exact ⟨w, pre ++ (c :: rest) ++ post, ht, Or.inl (hpre w List.mem_cons_self)⟩

/-- A list of slots begins as its first slot does. -/
theorem slotStart_intercalate {terms : List (List Char)} (hne : terms ≠ []) (h : ∀ t ∈ terms, SlotStart t) :
    SlotStart ([','].intercalate terms) := by
  cases terms with
  | nil => exact absurd rfl hne
  | cons t ts =>
      obtain ⟨c, rest, rfl, hc⟩ := h t List.mem_cons_self
      cases ts with
      | nil => exact ⟨c, rest, List.intercalate_singleton, hc⟩
      | cons t' ts => exact ⟨c, _, List.intercalate_cons_cons, hc⟩

theorem SlotStart.ne_cons {c : Char} (h : SlotStart s) (hsign : c ∈ "rs:+,".toList) (hletter : c ∉ "ahsnd".toList)
    (rest : List Char) : s ≠ c :: rest := by
  rintro rfl
  obtain ⟨c', tail, heq, hstart⟩ := h
  obtain ⟨rfl, -⟩ := List.cons.inj heq
  rcases hstart with hspace | hstart
  · exact not_sign_of_isWhitespace hspace hsign
  · exact hletter hstart

theorem SlotStart.not_prefix (h : SlotStart s) (rest : List Char) : s ≠ "rs:".toList ++ rest :=
  h.ne_cons (c := 'r') (by decide) (by decide) _

theorem SlotStart.not_numeral {n : Nat} (h : SlotStart s) : ¬Numeral 10 s n := by
  intro hnum
  obtain ⟨c, tail, rfl, hc⟩ := h
  refine hnum.not_mem (c := c) ?_ List.mem_cons_self
  rcases hc with hc | hc
  · exact toDigit_of_isWhitespace (by decide) hc
  · have hall : ∀ c ∈ "ahsnd".toList, toDigit 10 c = none := by simp [toDigit]
    exact hall c hc

theorem SlotStart.not_signed {n : Nat} (h : SlotStart s) : ¬SignedNumeral 10 s n := by
  rintro (hnum | ⟨rest, hs, -⟩)
  · exact h.not_numeral hnum
  · exact h.ne_cons (by decide) (by decide) rest hs

theorem not_signed_rs {n : Nat} {rest : List Char} : ¬SignedNumeral 10 ("rs:".toList ++ rest) n := by
  rintro (hnum | ⟨_, hs, -⟩)
  · exact hnum.not_mem (c := 'r') (by decide) List.mem_cons_self
  · exact absurd (List.cons.inj hs).1 (by decide)

theorem SignedNumeral.ne_nil {radix n : Nat} (h : SignedNumeral radix s n) : s ≠ [] := by
  rcases h with h | ⟨rest, rfl, -⟩
  · exact h.ne_nil
  · exact List.cons_ne_nil _ _

/-- A character that is neither a letter of the syntax nor part of its numbers is in no slot. -/
theorem SlotSyntax.not_mem {c : Char} (hword : c ∉ "anyhddssdnvmedisk:-".toList)
    (hnum : ∀ s n, Num 16 s n → c ∉ s) (h : SlotSyntax Num t slot) : c ∉ t := by
  have hwords : ∀ w ∈ ["any", "hdd", "ssd", "nvme", "disk:"], ∀ c ∈ w.toList, c ∈ "anyhddssdnvmedisk:-".toList := by simp
  cases h with
  | any => exact fun hc => hword (hwords "any" (by decide) c hc)
  | hdd => exact fun hc => hword (hwords "hdd" (by decide) c hc)
  | ssd => exact fun hc => hword (hwords "ssd" (by decide) c hc)
  | nvme => exact fun hc => hword (hwords "nvme" (by decide) c hc)
  | @disk id n hn _ =>
      intro hc
      rcases List.mem_append.mp hc with hc | hc
      · exact hword (hwords "disk:" (by decide) c hc)
      · have hdash : c ≠ '-' := fun heq => hword (heq ▸ by decide)
        exact hnum _ _ hn (List.mem_filter.mpr ⟨hc, decide_eq_true hdash⟩)

theorem SignedNumeral.not_mem {radix n : Nat} {c : Char} (h : SignedNumeral radix s n) (hc : toDigit radix c = none)
    (hplus : c ≠ '+') : c ∉ s := by
  rcases h with h | ⟨rest, rfl, h⟩
  · exact h.not_mem hc
  · intro hmem
    rcases List.mem_cons.mp hmem with heq | hmem
    · exact hplus heq
    · exact h.not_mem hc hmem

theorem exists_slot {terms : List (List Char)} {slots : List ReplicaSlot}
    (h : List.Forall₂ (fun t slot => SlotSyntax Num (trim t) slot) terms slots) :
    ∀ t ∈ terms, ∃ slot, SlotSyntax Num (trim t) slot := by
  induction h with
  | nil => simp
  | cons hslot _ ih => exact List.forall_mem_cons.mpr ⟨⟨_, hslot⟩, ih⟩

/-- What is written in a list, its separators apart, is written in one of its parts. -/
theorem mem_intercalate {terms : List (List Char)} {c sep : Char} (hc : c ≠ sep) :
    c ∈ [sep].intercalate terms ↔ ∃ t ∈ terms, c ∈ t := by
  induction terms with
  | nil => simp
  | cons t ts ih =>
      cases ts with
      | nil => simp
      | cons t' ts =>
          rw [List.intercalate_cons_cons, List.mem_append, List.mem_append, List.mem_singleton, or_iff_left hc, ih]
          simp only [List.mem_cons, exists_eq_or_imp]

/-- The slots of a list are what its text is split into. -/
theorem splitOn_slots {terms : List (List Char)} {slots : List ReplicaSlot} (hne : terms ≠ [])
    (h : List.Forall₂ (fun t slot => SlotSyntax SignedNumeral (trim t) slot) terms slots) :
    ([','].intercalate terms).splitOn ',' = terms := by
  refine List.splitOn_intercalate ',' (fun t ht hcomma => ?_) hne
  obtain ⟨slot, hslot⟩ := exists_slot h t ht
  exact hslot.not_mem (by decide) (fun s n hn => SignedNumeral.not_mem hn (by decide) (by decide))
    (mem_trim (by decide) hcomma)

/-- What is read as erasure coding. -/
theorem specSyntax_of_splitOnce {k m rs : List Char} {d p : Nat} (hsplit : splitOnce '+' rs = some (k, m))
    (hk : fromStrRadix 10 (2 ^ 8 - 1) k = some d) (hm : fromStrRadix 10 (2 ^ 8 - 1) m = some p) :
    SpecSyntax SignedNumeral ("rs:".toList ++ rs) (.erasureCoded (UInt8.ofNat d) (UInt8.ofNat p)) := by
  obtain ⟨rfl, hplus⟩ := splitOnce_eq_some.mp hsplit
  obtain ⟨hknum, hkfit⟩ := fromStrRadix_decimal.mp hk
  obtain ⟨hmnum, hmfit⟩ := fromStrRadix_decimal.mp hm
  rcases hknum with hknum | ⟨rest, rfl, -⟩
  · exact .erasure hknum hmnum hkfit hmfit
  · exact absurd List.mem_cons_self hplus

theorem specSyntax_of_parse (h : parse s = .ok scheme) : SpecSyntax SignedNumeral (trim s) scheme := by
  unfold parse at h
  dsimp only at h
  generalize trim s = spec at h ⊢
  split_ifs at h with hempty
  cases hrs : spec.dropPrefix? "rs:".toList with
  | some rs =>
      rw [hrs] at h
      rw [dropPrefix?_eq_some.mp hrs]
      dsimp only at h
      cases hsplit : splitOnce '+' rs with
      | none =>
          rw [hsplit] at h
          cases h
      | some km =>
          rw [hsplit] at h
          dsimp only at h
          split at h
          · rename_i d p hk hm
            rw [← Res.ok.inj h]
            exact specSyntax_of_splitOnce hsplit hk hm
          · cases h
  | none =>
      rw [hrs] at h
      dsimp only at h
      cases hread : fromStrRadix 10 (2 ^ 64 - 1) spec with
      | some n =>
          rw [hread] at h
          dsimp only at h
          split_ifs at h with hover
          rw [← Res.ok.inj h]
          exact .count (fromStrRadix_decimal.mp hread).1 (Nat.not_lt.mp hover)
      | none =>
          rw [hread] at h
          obtain ⟨slots, hslots, h⟩ := Res.bind_eq_ok.mp h
          split_ifs at h with hover
          have hall := Res.forall₂_of_mapM hslots
          have hspec : [','].intercalate (spec.splitOn ',') = spec := List.intercalate_splitOn ','
          rw [← Res.ok.inj h, ← hspec]
          refine .slots (List.splitOn_ne_nil _ _) ?_ (hall.imp fun t slot hslot => parseSlot_eq_ok.mp hslot)
          rw [hall.length_eq]
          exact Nat.not_lt.mp hover

theorem parse_of_specSyntax (h : SpecSyntax SignedNumeral (trim s) scheme) : parse s = .ok scheme := by
  unfold parse
  dsimp only
  generalize trim s = spec at h ⊢
  cases h with
  | @count _ n hnum hfit =>
      have hrs : ∀ rest, spec ≠ "rs:".toList ++ rest := by
        rintro rest rfl
        exact not_signed_rs hnum
      have hword : n ≤ 2 ^ 64 - 1 := Nat.le_trans hfit (by decide)
      rw [if_neg (SignedNumeral.ne_nil hnum), dropPrefix?_eq_none hrs]
      dsimp only
      rw [fromStrRadix_decimal.mpr ⟨hnum, hword⟩]
      dsimp only
      rw [if_neg (Nat.not_lt.mpr hfit)]
  | @slots terms slots hne hfit hslots =>
      have hstart : SlotStart ([','].intercalate terms) := by
        refine slotStart_intercalate hne fun t ht => ?_
        obtain ⟨slot, hslot⟩ := exists_slot hslots t ht
        exact hslot.slotStart
      have hempty : [','].intercalate terms ≠ [] := by
        obtain ⟨c, rest, hs, -⟩ := hstart
        exact hs ▸ List.cons_ne_nil c rest
      have hcount : fromStrRadix 10 (2 ^ 64 - 1) ([','].intercalate terms) = none :=
        Option.eq_none_iff_forall_ne_some.mpr fun n hn => hstart.not_signed (fromStrRadix_decimal.mp hn).1
      have hread : terms.mapM (fun t => parseSlot (trim t)) = .ok slots :=
        Res.mapM_of_forall₂ (hslots.imp fun t slot hslot => parseSlot_eq_ok.mpr hslot)
      rw [if_neg hempty, dropPrefix?_eq_none hstart.not_prefix]
      dsimp only
      rw [hcount]
      dsimp only
      rw [splitOn_slots hne hslots, hread, Res.ok_bind, if_neg]
      rw [← hslots.length_eq]
      exact Nat.not_lt.mpr hfit
  | @erasure k m d p hk hm hdata hparity =>
      have hplus : '+' ∉ k := hk.not_mem (by decide)
      have hne : "rs:".toList ++ (k ++ '+' :: m) ≠ [] := List.cons_ne_nil _ _
      rw [if_neg hne, dropPrefix?_eq_some.mpr rfl]
      dsimp only
      rw [splitOnce_eq_some.mpr ⟨rfl, hplus⟩]
      dsimp only
      rw [fromStrRadix_decimal.mpr ⟨Or.inl hk, hdata⟩, fromStrRadix_decimal.mpr ⟨hm, hparity⟩]

/-- **What the parser accepts**: the syntax with signed numbers, and the scheme it denotes. -/
theorem parse_eq_ok : parse s = .ok scheme ↔ SpecSyntax SignedNumeral (trim s) scheme :=
  ⟨specSyntax_of_parse, parse_of_specSyntax⟩

/-! ## Printing -/

/-- An unsigned number may be written where a signed one may. -/
theorem SlotSyntax.signed (h : SlotSyntax Numeral t slot) : SlotSyntax SignedNumeral t slot := by
  cases h with
  | any => exact .any
  | hdd => exact .hdd
  | ssd => exact .ssd
  | nvme => exact .nvme
  | disk hnum hfit => exact .disk (Or.inl hnum) hfit

theorem SpecSyntax.signed (h : SpecSyntax Numeral s scheme) : SpecSyntax SignedNumeral s scheme := by
  cases h with
  | count hnum hfit => exact .count (Or.inl hnum) hfit
  | slots hne hfit hslots => exact .slots hne hfit (hslots.imp fun t slot h => h.signed)
  | erasure hk hm hdata hparity => exact .erasure hk (Or.inl hm) hdata hparity

/-- The digits of a numeral are not white space. -/
theorem numeral_plain {radix n : Nat} (hradix : radix ≤ 16) (h : Numeral radix s n) : ∀ c ∈ s, isWhitespace c = false := by
  intro c hc
  rw [Bool.eq_false_iff]
  intro hspace
  have hdigit := h.isDigit c hc
  rw [toDigit_of_isWhitespace hradix hspace] at hdigit
  cases hdigit

/-- The digits of a disk id, all 32 of them, denote the id. -/
theorem numeral_id (id : Uuid) : Numeral 16 ((Nat.toDigits 16 id.val.toNat).leftpad 32 '0') id.val.toNat :=
  (numeral_toDigits (by decide) (Nat.le_refl 16) _).zeros_append rfl _

theorem numeral_decimal (n : Nat) : Numeral 10 (Nat.toDigits 10 n) n := numeral_toDigits (by decide) (by decide) n

theorem slotSyntax_formatSlot (slot : ReplicaSlot) : SlotSyntax Numeral (formatSlot slot) slot := by
  match slot with
  | .anyOfClass none => exact .any
  | .anyOfClass (some .hdd) => exact .hdd
  | .anyOfClass (some .ssd) => exact .ssd
  | .anyOfClass (some .nvme) => exact .nvme
  | .pinned id =>
      have hnum := numeral_id id
      have hplain : ((Nat.toDigits 16 id.val.toNat).leftpad 32 '0').filter (· ≠ '-') =
          (Nat.toDigits 16 id.val.toNat).leftpad 32 '0' := by
        refine List.filter_eq_self.mpr fun c hc => decide_eq_true ?_
        rintro rfl
        exact hnum.not_mem (by decide) hc
      have hid : SlotSyntax Numeral (formatSlot (.pinned id)) (.pinned ⟨BitVec.ofNat 128 id.val.toNat⟩) :=
        .disk (hplain.symm ▸ hnum) (Nat.le_sub_one_of_lt id.val.isLt)
      rwa [BitVec.ofNat_toNat, BitVec.setWidth_eq] at hid

theorem plain_of_any (h : s.any isWhitespace = false) : ∀ c ∈ s, isWhitespace c = false := by
  intro c hc
  simpa using List.any_eq_false.mp h c hc

/-- A printed slot has no white space. -/
theorem formatSlot_plain (slot : ReplicaSlot) : ∀ c ∈ formatSlot slot, isWhitespace c = false := by
  match slot with
  | .anyOfClass none => exact plain_of_any (by decide)
  | .anyOfClass (some .hdd) => exact plain_of_any (by decide)
  | .anyOfClass (some .ssd) => exact plain_of_any (by decide)
  | .anyOfClass (some .nvme) => exact plain_of_any (by decide)
  | .pinned id =>
      intro c hc
      rcases List.mem_append.mp hc with hc | hc
      · exact plain_of_any (by decide) c hc
      · exact numeral_plain (Nat.le_refl 16) (numeral_id id) c hc

/-- A printed scheme has no white space, so nothing of it is trimmed. -/
theorem format_plain (scheme : RedundancyScheme) : ∀ c ∈ format scheme, isWhitespace c = false := by
  cases scheme with
  | replicated slots =>
      intro c hc
      by_cases hcomma : c = ','
      · rw [hcomma]
        decide
      · obtain ⟨t, ht, hc⟩ := (mem_intercalate hcomma).mp hc
        obtain ⟨slot, -, rfl⟩ := List.mem_map.mp ht
        exact formatSlot_plain slot c hc
  | erasureCoded dataShards parityShards =>
      have hdigits := fun n => numeral_plain (by decide) (numeral_decimal n)
      intro c hc
      rcases List.mem_append.mp hc with hc | hc
      · exact plain_of_any (by decide) c hc
      · rcases List.mem_append.mp hc with hc | hc
        · exact hdigits _ c hc
        · rcases List.mem_cons.mp hc with rfl | hc
          · decide
          · exact hdigits _ c hc

/-- The schemes a spec can express: at most 16 replicas, and at least one. -/
def Printable : RedundancyScheme → Prop
  | .replicated slots => 1 ≤ slots.length ∧ slots.length ≤ maxSelect
  | .erasureCoded _ _ => True

theorem specSyntax_format (h : Printable scheme) : SpecSyntax Numeral (format scheme) scheme := by
  cases scheme with
  | replicated slots =>
      obtain ⟨hne, hfit⟩ := h
      refine .slots (fun hnil => ?_) (by rwa [List.length_map]) ?_
      · rw [List.map_eq_nil_iff.mp hnil] at hne
        exact absurd hne (by decide)
      · rw [List.forall₂_map_left_iff, List.forall₂_same]
        intro slot _
        rw [trim_eq_self (formatSlot_plain slot)]
        exact slotSyntax_formatSlot slot
  | erasureCoded dataShards parityShards =>
      have hfit := fun n : UInt8 => Nat.le_sub_one_of_lt n.toNat_lt
      have hshards := SpecSyntax.erasure (numeral_decimal _) (numeral_decimal _) (hfit dataShards) (hfit parityShards)
      rwa [UInt8.ofNat_toNat, UInt8.ofNat_toNat] at hshards

/-- **A printed scheme is read back as itself.** -/
theorem parse_format (scheme : RedundancyScheme) (h : Printable scheme) : parse (format scheme) = .ok scheme := by
  refine parse_eq_ok.mpr ?_
  rw [trim_eq_self (format_plain scheme)]
  exact (specSyntax_format h).signed

theorem parse_format_pinned :
    parse (format (.replicated [.anyOfClass (some .ssd), .pinned ⟨0x2a0000000000000000⟩])) =
      .ok (.replicated [.anyOfClass (some .ssd), .pinned ⟨0x2a0000000000000000⟩]) :=
  parse_format _ ⟨by decide, by decide⟩

/-! ## Signed numbers -/

/-- The specs with a plus sign before a number that are read nonetheless. -/
inductive PlusSigned : List Char → Prop where
  | count {s : List Char} {n : Nat} (hnum : Numeral 10 s n) (hfit : n ≤ maxSelect) : PlusSigned ('+' :: s)
  | slots {terms : List (List Char)} (hne : terms ≠ []) (hfit : terms.length ≤ maxSelect)
      (hslots : ∀ t ∈ terms, ∃ slot, SlotSyntax SignedNumeral (trim t) slot) (hplus : ∃ t ∈ terms, '+' ∈ t) :
      PlusSigned ([','].intercalate terms)
  | erasure {k m : List Char} {dataShards parityShards : Nat} (hk : Numeral 10 k dataShards) (hm : Numeral 10 m parityShards)
      (hdata : dataShards ≤ 2 ^ 8 - 1) (hparity : parityShards ≤ 2 ^ 8 - 1) :
      PlusSigned ("rs:".toList ++ (k ++ '+' :: '+' :: m))

theorem PlusSigned.signed (h : PlusSigned s) : ∃ scheme, SpecSyntax SignedNumeral s scheme := by
  cases h with
  | count hnum hfit => exact ⟨_, .count (Or.inr ⟨_, rfl, hnum⟩) hfit⟩
  | @slots terms hne hfit hslots hplus =>
      have hread : ∀ t ∈ terms, ∃ slot, parseSlot (trim t) = .ok slot := fun t ht =>
        (hslots t ht).imp fun slot hslot => parseSlot_eq_ok.mpr hslot
      obtain ⟨slots, hmap⟩ := Res.exists_mapM hread
      exact ⟨_, .slots hne hfit ((Res.forall₂_of_mapM hmap).imp fun t slot h => parseSlot_eq_ok.mp h)⟩
  | erasure hk hm hdata hparity => exact ⟨_, .erasure hk (Or.inr ⟨_, rfl, hm⟩) hdata hparity⟩

theorem mem_of_mem_trim {c : Char} (h : c ∈ trim s) : c ∈ s := by
  obtain ⟨pre, post, hs, -, -⟩ := exists_trim s
  rw [hs]
  exact List.mem_append_left _ (List.mem_append_right _ h)

/-- In a slot of the grammar there is no plus sign. -/
theorem SlotSyntax.plus_not_mem (h : SlotSyntax Numeral (trim t) slot) : '+' ∉ t := fun hplus =>
  h.not_mem (by decide) (fun _ _ hnum => hnum.not_mem (by decide)) (mem_trim (by decide) hplus)

/-- A slot without a plus sign is one of the grammar. -/
theorem SlotSyntax.plain (h : SlotSyntax SignedNumeral (trim t) slot) (hplus : '+' ∉ t) :
    SlotSyntax Numeral (trim t) slot := by
  have htrim : '+' ∉ trim t := fun hmem => hplus (mem_of_mem_trim hmem)
  generalize trim t = w at h htrim
  cases h with
  | any => exact .any
  | hdd => exact .hdd
  | ssd => exact .ssd
  | nvme => exact .nvme
  | @disk id n hnum hfit =>
      rcases hnum with hnum | ⟨rest, hid, -⟩
      · exact .disk hnum hfit
      · have hmem : '+' ∈ id.filter (· ≠ '-') := hid ▸ List.mem_cons_self
        exact absurd (List.mem_append_right _ (List.mem_filter.mp hmem).1) htrim

/-- In a spec of the grammar, the only plus sign is the one between the numbers of an erasure code. -/
theorem SpecSyntax.plus (h : SpecSyntax Numeral s scheme) :
    '+' ∉ s ∨ ∃ k m, s = "rs:".toList ++ (k ++ '+' :: m) ∧ '+' ∉ k ∧ '+' ∉ m := by
  cases h with
  | count hnum _ => exact Or.inl (hnum.not_mem (by decide))
  | slots _ _ hslots =>
      refine Or.inl fun hmem => ?_
      obtain ⟨t, ht, hplus⟩ := (mem_intercalate (by decide)).mp hmem
      obtain ⟨slot, hslot⟩ := exists_slot hslots t ht
      exact hslot.plus_not_mem hplus
  | erasure hk hm _ _ => exact Or.inr ⟨_, _, rfl, hk.not_mem (by decide), hm.not_mem (by decide)⟩

/-- In a spec with a signed number there is another one. -/
theorem PlusSigned.plus (h : PlusSigned s) :
    '+' ∈ s ∧ ∀ k m, s = "rs:".toList ++ (k ++ '+' :: m) → '+' ∉ k → '+' ∈ m := by
  cases h with
  | count _ _ => exact ⟨List.mem_cons_self, fun k m hs => absurd (List.cons.inj hs).1 (by decide)⟩
  | slots hne _ hslots hplus =>
      refine ⟨(mem_intercalate (by decide)).mpr hplus, fun k m hs => ?_⟩
      have hstart := slotStart_intercalate hne fun t ht => (hslots t ht).elim fun _ hslot => hslot.slotStart
      exact absurd hs (hstart.not_prefix _)
  | @erasure k m _ _ hk hm _ _ =>
      refine ⟨by simp, fun k' m' hs hk' => ?_⟩
      have hsplit := splitOnce_eq_some.mpr ⟨List.append_cancel_left hs, hk'⟩
      rw [splitOnce_eq_some.mpr ⟨rfl, hk.not_mem (by decide)⟩] at hsplit
      obtain ⟨-, rfl⟩ := Prod.mk.inj (Option.some.inj hsplit)
      exact List.mem_cons_self

theorem PlusSigned.not_plain (h : PlusSigned s) : ¬SpecSyntax Numeral s scheme := by
  intro hplain
  rcases hplain.plus with hnone | ⟨k, m, hs, hk, hm⟩
  · exact hnone h.plus.1
  · exact hm (h.plus.2 k m hs hk)

/-- What is read is of the grammar or has a signed number. -/
theorem SpecSyntax.plain_or_plusSigned (h : SpecSyntax SignedNumeral s scheme) : SpecSyntax Numeral s scheme ∨ PlusSigned s := by
  cases h with
  | count hnum hfit =>
      rcases hnum with hnum | ⟨rest, rfl, hnum⟩
      · exact Or.inl (.count hnum hfit)
      · exact Or.inr (.count hnum hfit)
  | @slots terms slots hne hfit hslots =>
      by_cases hplus : ∃ t ∈ terms, '+' ∈ t
      · exact Or.inr (.slots hne hfit (exists_slot hslots) hplus)
      · have hnone : ∀ t ∈ terms, '+' ∉ t := fun t ht hmem => hplus ⟨t, ht, hmem⟩
        have hboth := (List.forall₂_and_left (p := fun t => '+' ∉ t) terms slots).mpr ⟨hnone, hslots⟩
        exact Or.inl (.slots hne hfit (hboth.imp fun t slot h => h.2.plain h.1))
  | erasure hk hm hdata hparity =>
      rcases hm with hm | ⟨rest, rfl, hm⟩
      · exact Or.inl (.erasure hk hm hdata hparity)
      · exact Or.inr (.erasure hk hm hdata hparity)

/-- **The parser accepts its grammar, save for plus signs**: a spec is read as the grammar has it exactly if it is none of
    those with a plus sign before a number. -/
theorem parse_grammar_iff (spec : List Char) :
    (∀ scheme, parse spec = .ok scheme ↔ SpecSyntax Numeral (trim spec) scheme) ↔ ¬PlusSigned (trim spec) := by
  constructor
  · intro h hplus
    obtain ⟨scheme, hsigned⟩ := hplus.signed
    exact hplus.not_plain ((h scheme).mp (parse_eq_ok.mpr hsigned))
  · intro hplus scheme
    constructor
    · intro h
      rcases (parse_eq_ok.mp h).plain_or_plusSigned with hplain | hsigned
      · exact hplain
      · exact absurd hsigned hplus
    · exact fun h => parse_eq_ok.mpr h.signed

/-- With a sign in front, a count is read that is not of the grammar. -/
theorem parse_plus_three : ¬∀ scheme, parse "+3".toList = .ok scheme ↔ SpecSyntax Numeral (trim "+3".toList) scheme := by
  intro h
  have hread : parse "+3".toList = .ok (.replicated (List.replicate 3 (.anyOfClass none))) := by decide +kernel
  have htrim : trim "+3".toList = ['+', '3'] := by decide
  have hplain := (h _).mp hread
  rw [htrim] at hplain
  exact PlusSigned.not_plain (.count (n := 3) (.digit (by decide)) (by decide)) hplain

end Tartine.RedundancySpec
