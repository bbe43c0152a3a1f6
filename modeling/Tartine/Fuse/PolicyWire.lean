import Mathlib.Data.List.Forall2
import Tartine.Core.PlacementOrder
import Tartine.Fuse.Ioctl

/-!
# `Fuse.PolicyWire` — what the decoder of a policy looks at

The 400-byte buffer of `SET_REDUNDANCY` is a header and sixteen slots of 24 bytes. `decode_set_redundancy` looks at the
scheme's kind, at the slot count and at the slots it counts, and at nothing else.

* `decodeSetRedundancy_eq_none_iff` — the buffers it refuses;
* `decodeSetRedundancy_congr` — buffers with the same counted slots decode to the same policy;
* `decode_encodeSetRedundancy` — what the encoder writes, the decoder reads back;
* `policyWire_lossless` — that, for both kinds of policy, and for every buffer: no read is out of bounds, and an accepted
  buffer is the encoding of its policy in every byte that matters.
-/

namespace Tartine.Fuse

open Basis Kcore Placement

variable {buf buf' : Bytes} {i n : Nat}

/-! ## The buffer's parts -/

def schemeKind (buf : Bytes) : UInt32 := UInt32.ofNat (leNat (field buf 0 4))

def slotCount (buf : Bytes) : Nat := leNat (field buf 4 4)

/-- The 24 bytes of slot `i`. -/
def slotBytes (buf : Bytes) (i : Nat) : Bytes := field buf (16 + i * 24) 24

/-- The slot that 24 bytes stand for. -/
def slotOf (s : Bytes) : Option ReplicaSlot :=
  if s.getD 1 0 ≠ 0 then
    some (.pinned (diskIdFromHiLo (UInt64.ofNat (leNat (field s 8 8))) (UInt64.ofNat (leNat (field s 16 8)))))
  else if s.getD 0 0 = classAny then some (.anyOfClass none)
  else (diskClassFromWire (s.getD 0 0)).map (fun c => .anyOfClass (some c))

/-- A slot that is not pinned and names a class nobody knows. -/
def Unclassed (s : Bytes) : Prop := s.getD 1 0 = 0 ∧ classNvme < s.getD 0 0

theorem getD_field {off k : Nat} (h : i < k) : (field buf off k).getD i 0 = buf.getD (off + i) 0 := by
  unfold field
  simp only [List.getD_eq_getElem?_getD, List.getElem?_take, if_pos h, List.getElem?_drop]

theorem field_field {off k a m : Nat} (h : a + m ≤ k) : field (field buf off k) a m = field buf (off + a) m := by
  unfold field
  rw [List.drop_take, List.take_take, List.drop_drop, Nat.min_eq_left (by omega)]

/-- A slot is read off its own bytes. -/
theorem decodeSlot_eq (buf : Bytes) (i : Nat) : decodeSlot buf i = slotOf (slotBytes buf i) := by
  unfold decodeSlot slotOf slotBytes
  rw [getD_field (by decide), getD_field (by decide), field_field (by decide), field_field (by decide)]
  rfl

theorem diskClassFromWire_eq_none {v : UInt8} : diskClassFromWire v = none ↔ v = classAny ∨ classNvme < v := by
  have hcases : v = classAny ∨ v = classHdd ∨ v = classSsd ∨ v = classNvme ∨ classNvme < v := by
    simp only [← UInt8.toNat_inj, UInt8.lt_iff_toNat_lt, classAny, classHdd, classSsd, classNvme]
    simp only [UInt8.reduceToNat]
    omega
  rcases hcases with rfl | rfl | rfl | rfl | hlarge
  · decide
  · decide
  · decide
  · decide
  · have hne : v ≠ classHdd ∧ v ≠ classSsd ∧ v ≠ classNvme := by
      refine ⟨?_, ?_, ?_⟩
      · rintro rfl
        exact absurd hlarge (by decide)
      · rintro rfl
        exact absurd hlarge (by decide)
      · rintro rfl
        exact absurd hlarge (by decide)
    unfold diskClassFromWire
    rw [if_neg hne.1, if_neg hne.2.1, if_neg hne.2.2]
    exact ⟨fun _ => Or.inr hlarge, fun _ => rfl⟩

/-- The slots that are refused. -/
theorem slotOf_eq_none {s : Bytes} : slotOf s = none ↔ Unclassed s := by
  unfold slotOf Unclassed
  by_cases hpinned : s.getD 1 0 = 0
  · rw [if_neg (not_not.mpr hpinned)]
    by_cases hany : s.getD 0 0 = classAny
    · rw [if_pos hany, hany]
      simp only [reduceCtorEq, false_iff, not_and]
      intro _
      decide
    · rw [if_neg hany, Option.map_eq_none_iff, diskClassFromWire_eq_none]
      exact ⟨fun h => ⟨hpinned, h.resolve_left hany⟩, fun h => Or.inr h.2⟩
  · rw [if_pos hpinned]
    simp only [reduceCtorEq, false_iff, not_and]
    exact fun h => absurd h hpinned

/-! ## The decoder -/

theorem decodeSetRedundancy_eq (hlen : buf.length = redundancyWireSize) : decodeSetRedundancy buf =
    if schemeKind buf = tartineRedundancyReplicated then
      if maxSelect < slotCount buf then none
      else ((List.range (slotCount buf)).mapM (fun i => slotOf (slotBytes buf i))).map .replicated
    else if schemeKind buf = tartineRedundancyErasureCoded then some (.erasureCoded (buf.getD 8 0) (buf.getD 9 0))
    else none := by
  unfold decodeSetRedundancy
  rw [if_neg (not_not.mpr hlen), ← funext (decodeSlot_eq buf)]
  rfl

/-- **The buffers that are refused**: too many slots, a counted slot of an unknown class, or an unknown kind. -/
theorem decodeSetRedundancy_eq_none_iff (hlen : buf.length = redundancyWireSize) : decodeSetRedundancy buf = none ↔
    if schemeKind buf = tartineRedundancyReplicated then
      maxSelect < slotCount buf ∨ ∃ i < slotCount buf, Unclassed (slotBytes buf i)
    else schemeKind buf ≠ tartineRedundancyErasureCoded := by
  rw [decodeSetRedundancy_eq hlen]
  split
  · split
    · rename_i hmany
      simp [hmany]
    · rename_i hfew
      rw [Option.map_eq_none_iff, mapM_eq_none_iff]
      simp [hfew, slotOf_eq_none]
  · split
    · rename_i hec
      simp [hec]
    · rename_i hec
      simp [hec]

/-- Only the counted slots of a replicated policy matter. -/
theorem decodeSetRedundancy_congr (hlen : buf.length = redundancyWireSize) (hlen' : buf'.length = redundancyWireSize)
    (hkind : schemeKind buf = tartineRedundancyReplicated) (hkind' : schemeKind buf' = tartineRedundancyReplicated)
    (hcount : slotCount buf' = slotCount buf) (hslots : ∀ i < slotCount buf, slotBytes buf' i = slotBytes buf i) :
    decodeSetRedundancy buf' = decodeSetRedundancy buf := by
  rw [decodeSetRedundancy_eq hlen, decodeSetRedundancy_eq hlen', if_pos hkind, if_pos hkind', hcount]
  have hsame : (List.range (slotCount buf)).mapM (fun i => slotOf (slotBytes buf' i)) =
      (List.range (slotCount buf)).mapM (fun i => slotOf (slotBytes buf i)) :=
    mapM_congr_mem (fun i hi => by rw [hslots i (List.mem_range.mp hi)])
  rw [hsame]

/-! ## Buffers as they are written -/

/-- The first sixteen bytes of a replicated policy with `n` slots. -/
def policyHeader (n : Nat) : Bytes :=
  leBytes 4 tartineRedundancyReplicated.toNat ++ leBytes 4 n ++ List.replicate 8 0

variable {area rest : Bytes}

theorem length_policyHeader (n : Nat) : (policyHeader n).length = 16 := by
  simp [policyHeader]

theorem schemeKind_policyHeader : schemeKind (policyHeader n ++ rest) = tartineRedundancyReplicated := by
  simp [schemeKind, field, policyHeader, leNat_leBytes, tartineRedundancyReplicated]

theorem slotCount_policyHeader (hn : n < 2 ^ 32) : slotCount (policyHeader n ++ rest) = n := by
  have hfield : field (policyHeader n ++ rest) 4 4 = leBytes 4 n := by
    simp [field, policyHeader]
  rw [slotCount, hfield, leNat_leBytes_of_lt hn]

/-- The slots lie behind the header. -/
theorem slotBytes_policyHeader (hi : i * 24 + 24 ≤ area.length) :
    slotBytes (policyHeader n ++ (area ++ rest)) i = field area (i * 24) 24 := by
  unfold slotBytes field
  rw [List.drop_append, List.drop_of_length_le (by rw [length_policyHeader]; omega), List.nil_append,
    length_policyHeader, Nat.add_sub_cancel_left, List.drop_append_of_le_length (by omega),
    List.take_append_of_le_length (by rw [List.length_drop]; omega)]

@[simp] theorem length_encodeSlot (slot : ReplicaSlot) : (encodeSlot slot).length = 24 := by
  simp [encodeSlot]

/-- A slot is read back. -/
theorem slotOf_encodeSlot (slot : ReplicaSlot) : slotOf (encodeSlot slot) = some slot := by
  cases slot with
  | anyOfClass c =>
      cases c with
      | none => rfl
      | some c => cases c <;> rfl
  | pinned id =>
      have h64 : ∀ v : UInt64, UInt64.ofNat (leNat (leBytes 8 v.toNat)) = v := by
        intro v
        rw [leNat_leBytes_of_lt v.toNat_lt, UInt64.ofNat_toNat]
      have hhi : field (encodeSlot (.pinned id)) 8 8 = leBytes 8 (diskIdToHiLo id).1.toNat := by
        simp [field, encodeSlot, slotToSpec]
      have hlo : field (encodeSlot (.pinned id)) 16 8 = leBytes 8 (diskIdToHiLo id).2.toNat := by
        simp [field, encodeSlot, slotToSpec]
      unfold slotOf
      rw [hhi, hlo, h64, h64, diskIdFromHiLo_diskIdToHiLo]
      rfl

/-- A list of chunks of one size, cut into them again. -/
theorem field_flatMap {slots : List ReplicaSlot} {slot : ReplicaSlot} (h : slots[i]? = some slot) :
    field (slots.flatMap encodeSlot) (i * 24) 24 = encodeSlot slot := by
  induction slots generalizing i with
  | nil => cases h
  | cons s slots ih =>
      rw [List.flatMap_cons]
      cases i with
      | zero =>
          obtain rfl : s = slot := by simpa using h
          simp [field]
      | succ i =>
          have hrest := ih (show slots[i]? = some slot by simpa using h)
          rw [← hrest]
          unfold field
          rw [List.drop_append, List.drop_of_length_le (by rw [length_encodeSlot]; omega), List.nil_append,
            length_encodeSlot, show (i + 1) * 24 - 24 = i * 24 by omega]

theorem length_flatMap_encodeSlot (slots : List ReplicaSlot) : (slots.flatMap encodeSlot).length = slots.length * 24 := by
  rw [List.length_flatMap]
  simp

section Written

variable {slots : List ReplicaSlot}

/-- The buffer of a policy with at most sixteen slots: the header, the slots, and zeros. -/
theorem encodeSetRedundancy_eq (h : slots.length ≤ maxSelect) : encodeSetRedundancy (.replicated slots) =
    policyHeader slots.length ++ (slots.flatMap encodeSlot ++ List.replicate ((maxSelect - slots.length) * 24) 0) := by
  show policyHeader (min slots.length maxSelect) ++ _ ++ _ = _
  rw [Nat.min_eq_left h, List.take_of_length_le h, List.append_assoc]

theorem length_encodeSetRedundancy (h : slots.length ≤ maxSelect) :
    (encodeSetRedundancy (.replicated slots)).length = redundancyWireSize := by
  rw [encodeSetRedundancy_eq h, List.length_append, List.length_append, length_policyHeader, length_flatMap_encodeSlot,
    List.length_replicate]
  unfold redundancyWireSize
  omega

theorem schemeKind_encodeSetRedundancy (h : slots.length ≤ maxSelect) :
    schemeKind (encodeSetRedundancy (.replicated slots)) = tartineRedundancyReplicated := by
  rw [encodeSetRedundancy_eq h]
  exact schemeKind_policyHeader

theorem slotCount_encodeSetRedundancy (h : slots.length ≤ maxSelect) :
    slotCount (encodeSetRedundancy (.replicated slots)) = slots.length := by
  rw [encodeSetRedundancy_eq h]
  exact slotCount_policyHeader (by unfold maxSelect at h; omega)

theorem slotBytes_encodeSetRedundancy {slot : ReplicaSlot} (h : slots.length ≤ maxSelect) (hat : slots[i]? = some slot) :
    slotBytes (encodeSetRedundancy (.replicated slots)) i = encodeSlot slot := by
  have hroom : i * 24 + 24 ≤ (slots.flatMap encodeSlot).length := by
    have hi := (List.getElem?_eq_some_iff.mp hat).1
    rw [length_flatMap_encodeSlot]
    omega
  rw [encodeSetRedundancy_eq h, slotBytes_policyHeader hroom, field_flatMap hat]

/-- **What the encoder writes, the decoder reads back**, for as many slots as the buffer has. -/
theorem decode_encodeSetRedundancy (h : slots.length ≤ maxSelect) :
    (encodeSetRedundancy (.replicated slots)).length = redundancyWireSize ∧
      decodeSetRedundancy (encodeSetRedundancy (.replicated slots)) = some (.replicated slots) := by
  have hlen := length_encodeSetRedundancy h
  refine ⟨hlen, ?_⟩
  rw [decodeSetRedundancy_eq hlen, if_pos (schemeKind_encodeSetRedundancy h), slotCount_encodeSetRedundancy h,
    if_neg (by omega)]
  refine Option.map_eq_some_iff.mpr ⟨slots, mapM_some_of_forall₂ ?_, rfl⟩
  refine List.forall₂_iff_get.mpr ⟨List.length_range, ?_⟩
  intro i hi hi'
  have hat : slots[i]? = some (slots.get ⟨i, hi'⟩) := List.getElem?_eq_getElem hi'
  rw [List.get_eq_getElem, List.getElem_range, slotBytes_encodeSetRedundancy h hat, slotOf_encodeSlot]

end Written

/-! ## The decoder's reads -/

/-- `buf[i]`: past the end it panics. -/
def byteAt (buf : Bytes) (i : Nat) : Res Unit UInt8 :=
  match buf[i]? with
  | some b => .ok b
  | none   => .panic

/-- `u32::from_le_bytes(buf[off..off + 4])` and `u64::from_le_bytes(buf[off..off + 8])`: so does a slice. -/
def numberAt (buf : Bytes) (off n : Nat) : Res Unit Nat :=
  if off + n ≤ buf.length then .ok (leNat (field buf off n)) else .panic

/-- One turn of the slot loop, as it indexes the buffer. -/
def readSlot (buf : Bytes) (i : Nat) : Res Unit ReplicaSlot := do
  let base := 16 + i * 24
  let requiredClass ← byteAt buf base
  let pinned ← byteAt buf (base + 1)
  let hi ← numberAt buf (base + 8) 8
  let lo ← numberAt buf (base + 16) 8
  if pinned ≠ 0 then pure (.pinned (diskIdFromHiLo (UInt64.ofNat hi) (UInt64.ofNat lo)))
  else if requiredClass = classAny then pure (.anyOfClass none)
  else
    match diskClassFromWire requiredClass with
    | some c => pure (.anyOfClass (some c))
    | none   => .err ()

/-- `decode_set_redundancy`, as it indexes the buffer; the error is `None`. -/
def readSetRedundancy (buf : Bytes) : Res Unit RedundancyScheme :=
  if buf.length ≠ redundancyWireSize then .err ()
  else do
    let schemeKind ← numberAt buf 0 4
    if UInt32.ofNat schemeKind = tartineRedundancyReplicated then do
      let nSlots ← numberAt buf 4 4
      if maxSelect < nSlots then .err ()
      else do
        let slots ← (List.range nSlots).mapM (readSlot buf)
        pure (.replicated slots)
    else if UInt32.ofNat schemeKind = tartineRedundancyErasureCoded then do
      let dataShards ← byteAt buf 8
      let parityShards ← byteAt buf 9
      pure (.erasureCoded dataShards parityShards)
    else .err ()

/-- `?` on an option. -/
def orNone {α : Type} : Option α → Res Unit α
  | some a => .ok a
  | none   => .err ()

theorem byteAt_eq (h : i < buf.length) : byteAt buf i = .ok (buf.getD i 0) := by
  unfold byteAt
  rw [List.getD_eq_getElem?_getD, List.getElem?_eq_getElem h]
  rfl

theorem numberAt_eq {off : Nat} (h : off + n ≤ buf.length) : numberAt buf off n = .ok (leNat (field buf off n)) :=
  if_pos h

theorem readSlot_eq (h : 16 + i * 24 + 24 ≤ buf.length) : readSlot buf i = orNone (decodeSlot buf i) := by
  unfold readSlot decodeSlot
  dsimp only
  rw [byteAt_eq (by omega), byteAt_eq (by omega), numberAt_eq (by omega), numberAt_eq (by omega)]
  simp only [Res.ok_bind]
  split
  · rfl
  · split
    · rfl
    · cases diskClassFromWire (buf.getD (16 + i * 24) 0) with
      | none => rfl
      | some c => rfl

theorem mapM_orNone {α β : Type} {f : α → Res Unit β} {g : α → Option β} {l : List α}
    (h : ∀ a ∈ l, f a = orNone (g a)) : l.mapM f = orNone (l.mapM g) := by
  induction l with
  | nil => rfl
  | cons a l ih =>
      obtain ⟨ha, hl⟩ := List.forall_mem_cons.mp h
      rw [List.mapM_cons, List.mapM_cons, ha, ih hl]
      cases g a with
      | none => rfl
      | some b =>
          cases l.mapM g with
          | none => rfl
          | some bs => rfl

/-- **No read is out of bounds**: the length was checked. -/
theorem readSetRedundancy_eq (buf : Bytes) : readSetRedundancy buf = orNone (decodeSetRedundancy buf) := by
  unfold readSetRedundancy decodeSetRedundancy
  by_cases hlen : buf.length = redundancyWireSize
  · rw [if_neg (not_not.mpr hlen), if_neg (not_not.mpr hlen)]
    have hsize : buf.length = 16 + maxSelect * 24 := hlen
    rw [numberAt_eq (by omega), Res.ok_bind]
    dsimp only
    split
    · rw [numberAt_eq (by omega), Res.ok_bind]
      split
      · rfl
      · rename_i hfew
        have hslots : (List.range (leNat (field buf 4 4))).mapM (readSlot buf) =
            orNone ((List.range (leNat (field buf 4 4))).mapM (decodeSlot buf)) := by
          refine mapM_orNone fun i hi => readSlot_eq ?_
          have := List.mem_range.mp hi
          omega
        rw [hslots]
        cases (List.range (leNat (field buf 4 4))).mapM (decodeSlot buf) with
        | none => rfl
        | some slots => rfl
    · split
      · rw [byteAt_eq (by omega), byteAt_eq (by omega)]
        rfl
      · rfl
  · rw [if_pos hlen, if_pos hlen]
    rfl

/-! ## Buffers with the same meaning -/

/-- At most as many slots as the buffer has room for. -/
def SlotsFit : RedundancyScheme → Prop
  | .replicated slots => slots.length ≤ maxSelect
  | .erasureCoded _ _ => True

/-- Two slots of the wire format agree as far as `slot` goes: on being pinned, and on the class or the id. -/
def SlotAgrees (slot : ReplicaSlot) (s s' : Bytes) : Prop :=
  (s.getD 1 0 = 0 ↔ s'.getD 1 0 = 0) ∧
  match slot with
  | .anyOfClass _ => s.getD 0 0 = s'.getD 0 0
  | .pinned _     => field s 8 16 = field s' 8 16

/-- Two buffers agree on every byte that is meaningful for the policy. -/
def WireAgrees (buf buf' : Bytes) : RedundancyScheme → Prop
  | .replicated slots =>
      field buf 0 4 = field buf' 0 4 ∧ field buf 4 4 = field buf' 4 4 ∧
        ∀ i slot, slots[i]? = some slot → SlotAgrees slot (slotBytes buf i) (slotBytes buf' i)
  | .erasureCoded _ _ => field buf 0 4 = field buf' 0 4 ∧ field buf 8 2 = field buf' 8 2

/-- A slot that was read off 24 bytes is written as they are, as far as it goes. -/
theorem slotAgrees_encodeSlot {s : Bytes} {slot : ReplicaSlot} (hlen : s.length = 24) (h : slotOf s = some slot) :
    SlotAgrees slot s (encodeSlot slot) := by
  unfold slotOf at h
  split at h
  · rename_i hpinned
    obtain rfl := Option.some.inj h
    refine ⟨⟨fun h0 => absurd h0 hpinned, fun h0 => ?_⟩, ?_⟩
    · cases h0
    · have hfield := fun off (h : off + 8 ≤ s.length) => leBytes_field_u64 h
      have hhi := hfield 8 (by omega)
      have hlo := hfield 16 (by omega)
      have hwritten : ∀ hi lo : UInt64, field (encodeSlot (.pinned (diskIdFromHiLo hi lo))) 8 16 =
          leBytes 8 hi.toNat ++ leBytes 8 lo.toNat := by
        intro hi lo
        simp [field, encodeSlot, slotToSpec, diskIdToHiLo_diskIdFromHiLo]
      show field s 8 16 = _
      rw [hwritten]
      unfold field
      rw [hhi, hlo, ← List.drop_drop (i := 8) (j := 8)]
      exact List.take_add (i := 8) (j := 8)
  · rename_i hpinned
    rw [not_not] at hpinned
    split at h
    · rename_i hany
      obtain rfl := Option.some.inj h
      exact ⟨⟨fun _ => rfl, fun _ => hpinned⟩, hany⟩
    · obtain ⟨c, hc, hslot⟩ := Option.map_eq_some_iff.mp h
      obtain rfl := hslot
      refine ⟨⟨fun _ => rfl, fun _ => hpinned⟩, ?_⟩
      -- a known class has one number
      show s.getD 0 0 = c.toFfi
      unfold diskClassFromWire at hc
      split at hc
      · rename_i heq
        obtain rfl := Option.some.inj hc
        exact heq
      · split at hc
        · rename_i heq
          obtain rfl := Option.some.inj hc
          exact heq
        · split at hc
          · rename_i heq
            obtain rfl := Option.some.inj hc
            exact heq
          · cases hc

/-- A field of four bytes is determined by the number it holds. -/
theorem field_four_inj {off : Nat} (h : off + 4 ≤ buf.length) (h' : off + 4 ≤ buf'.length)
    (heq : leNat (field buf off 4) = leNat (field buf' off 4)) : field buf off 4 = field buf' off 4 := by
  have hbytes := (leBytes_field h).1
  have hbytes' := (leBytes_field h').1
  unfold field at heq ⊢
  rw [← hbytes, ← hbytes', heq]

theorem kind_field {k : UInt32} (hkind : schemeKind buf = k) : leNat (field buf 0 4) = k.toNat := by
  have hlt : leNat (field buf 0 4) < 2 ^ 32 := leNat_take_four_lt _
  rw [← hkind, schemeKind, UInt32.toNat_ofNat_of_lt' hlt]

theorem length_encode_erasureCoded (dataShards parityShards : UInt8) :
    (encodeSetRedundancy (.erasureCoded dataShards parityShards)).length = redundancyWireSize := by
  simp only [encodeSetRedundancy, List.length_append, length_leBytes, List.length_replicate, List.length_cons,
    List.length_nil]
  unfold redundancyWireSize
  omega

theorem decode_encode_erasureCoded (dataShards parityShards : UInt8) :
    decodeSetRedundancy (encodeSetRedundancy (.erasureCoded dataShards parityShards)) =
      some (.erasureCoded dataShards parityShards) := by
  rw [decodeSetRedundancy_eq (length_encode_erasureCoded dataShards parityShards)]
  rfl

/-- **An accepted buffer is the encoding of its policy**, in every byte that is meaningful for it. -/
theorem decodeSetRedundancy_agrees {scheme : RedundancyScheme} (h : decodeSetRedundancy buf = some scheme) :
    buf.length = redundancyWireSize ∧ SlotsFit scheme ∧ WireAgrees buf (encodeSetRedundancy scheme) scheme := by
  have hlen : buf.length = redundancyWireSize := by
    by_contra hne
    unfold decodeSetRedundancy at h
    rw [if_pos hne] at h
    cases h
  have hsize : buf.length = 16 + maxSelect * 24 := hlen
  refine ⟨hlen, ?_⟩
  rw [decodeSetRedundancy_eq hlen] at h
  split at h
  · rename_i hkind
    split at h
    · cases h
    · rename_i hfew
      obtain ⟨slots, hslots, hscheme⟩ := Option.map_eq_some_iff.mp h
      obtain rfl := hscheme
      have hall := forall₂_of_mapM_some hslots
      have hcount : slotCount buf = slots.length := by
        rw [← hall.length_eq, List.length_range]
      have hfit : slots.length ≤ maxSelect := by omega
      have hwritten := length_encodeSetRedundancy hfit
      have hwritten' : (encodeSetRedundancy (.replicated slots)).length = 16 + maxSelect * 24 := hwritten
      refine ⟨hfit, ?_, ?_, ?_⟩
      · refine field_four_inj (by omega) (by omega) ?_
        rw [kind_field hkind, kind_field (schemeKind_encodeSetRedundancy hfit)]
      · refine field_four_inj (by omega) (by omega) ?_
        exact hcount.trans (slotCount_encodeSetRedundancy hfit).symm
      · intro i slot hat
        obtain ⟨hi, hget⟩ := List.getElem?_eq_some_iff.mp hat
        rw [slotBytes_encodeSetRedundancy hfit hat]
        refine slotAgrees_encodeSlot ?_ ?_
        · unfold slotBytes field
          rw [List.length_take, List.length_drop]
          omega
        · have hone := (List.forall₂_iff_get.mp hall).2 i (by rw [List.length_range]; omega) hi
          rwa [List.get_eq_getElem, List.get_eq_getElem, List.getElem_range, hget] at hone
  · split at h
    · rename_i hkind
      obtain rfl := Option.some.inj h
      refine ⟨trivial, ?_, ?_⟩
      · refine field_four_inj (by omega) (by rw [length_encode_erasureCoded]; decide) ?_
        rw [kind_field hkind]
        rfl
      · -- the two shard counts are the two bytes read
        have h8 : 8 < buf.length := by omega
        have h9 : 9 < buf.length := by omega
        have hread : field buf 8 2 = [buf.getD 8 0, buf.getD 9 0] := by
          unfold field
          rw [List.drop_eq_getElem_cons h8, List.drop_eq_getElem_cons h9, List.getD_eq_getElem _ _ h8,
            List.getD_eq_getElem _ _ h9]
          rfl
        rw [hread]
        rfl
    · cases h

/-- **The wire format of policies is lossless.** A policy that fits is read back from its encoding; no buffer makes the
    decoder panic, and a buffer it accepts has the size of the structure and is the policy's encoding in every byte that
    is meaningful for it. -/
theorem policyWire_lossless :
    (∀ scheme, SlotsFit scheme → readSetRedundancy (encodeSetRedundancy scheme) = .ok scheme) ∧
    ∀ buf, readSetRedundancy buf ≠ .panic ∧ ∀ scheme, readSetRedundancy buf = .ok scheme →
      buf.length = 400 ∧ SlotsFit scheme ∧ WireAgrees buf (encodeSetRedundancy scheme) scheme := by
  constructor
  · intro scheme hfit
    rw [readSetRedundancy_eq]
    cases scheme with
    | replicated slots => rw [(decode_encodeSetRedundancy hfit).2]; rfl
    | erasureCoded dataShards parityShards => rw [decode_encode_erasureCoded]; rfl
  · intro buf
    rw [readSetRedundancy_eq]
    cases hdecode : decodeSetRedundancy buf with
    | none => exact ⟨by simp [orNone], fun scheme h => by cases h⟩
    | some s =>
        refine ⟨by simp [orNone], fun scheme h => ?_⟩
        obtain rfl := Res.ok.inj h
        exact decodeSetRedundancy_agrees hdecode

/-- At a pinned slot and a slot of a class. -/
theorem policyWire_lossless_twoSlots :
    readSetRedundancy (encodeSetRedundancy (.replicated [.pinned ⟨5⟩, .anyOfClass (some .ssd)])) =
      .ok (.replicated [.pinned ⟨5⟩, .anyOfClass (some .ssd)]) :=
  policyWire_lossless.1 _ (show 2 ≤ maxSelect by decide)

end Tartine.Fuse
