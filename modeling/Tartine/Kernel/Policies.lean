import Tartine.Fuse.Fs
import Tartine.Fuse.PolicyWire
import Tartine.Kernel.Ioctl
import Tartine.Meta.PoolPolicy

/-!
# `Kernel.Policies` — `SET_REDUNDANCY` through FUSE and through the module

`tartine.h` promises callers the same behaviour from both front ends. They check a policy independently: the daemon
decodes it and stores what it decoded, the module checks the header and copies the slots as they are.

* `tartineFileIoctl_setRedundancy`, `ioctl_setRedundancy` — each front end's answer, read off the buffer;
* `PoliciesAgree` — the same answer, and a `GET_REDUNDANCY` that gives the policy back;
* `policies_agree_iff` — the buffers on which that is so.
-/

namespace Tartine.Kernel

open Basis Kcore Fuse

variable {buf : Bytes} {caller getter : Caller} {ti ti' : InodeInfo}

/-! ## The module's answer -/

/-- The module's count of slots is the decoder's. -/
theorem toNat_slotCount (buf : Bytes) : (UInt32.ofNat (leNat (field buf 4 4))).toNat = slotCount buf :=
  UInt32.toNat_ofNat_of_lt' (leNat_take_four_lt _)

/-- What the module asks of a policy it stores: replicated, with one to sixteen slots. -/
def Counted (buf : Bytes) : Prop :=
  schemeKind buf = tartineRedundancyReplicated ∧ 0 < slotCount buf ∧ slotCount buf ≤ maxSelect

theorem copyFromUser_eq (harg : caller.arg = buf) (hlen : buf.length = redundancyWireSize) :
    copyFromUser caller redundancyWireSize = some buf := by
  rw [copyFromUser, harg, if_pos (Nat.le_of_eq hlen.symm), List.take_of_length_le (Nat.le_of_eq hlen)]

/-- **Every way the module answers a policy**: the kind and the number of slots are all it looks at. -/
theorem tartineFileIoctl_setRedundancy (ti : InodeInfo) (howner : caller.ownerOrCapable) (harg : caller.arg = buf)
    (hlen : buf.length = redundancyWireSize) :
    (tartineFileIoctl tartineIocSetRedundancy caller ti = (.error .eopnotsupp, ti) ∧
      schemeKind buf = tartineRedundancyErasureCoded) ∨
    (tartineFileIoctl tartineIocSetRedundancy caller ti = (.error .einval, ti) ∧
      schemeKind buf ≠ tartineRedundancyErasureCoded ∧ ¬Counted buf) ∨
    ∃ ti', tartineFileIoctl tartineIocSetRedundancy caller ti = (.ok [], ti') ∧ Counted buf ∧
      ti'.nRedundancySlots.toNat = slotCount buf ∧
      ti'.redundancySlots = copySlots ti.redundancySlots buf (slotCount buf) := by
  have hcopy := copyFromUser_eq harg hlen
  have hcount := toNat_slotCount buf
  show (setRedundancy caller ti = _ ∧ _) ∨ (setRedundancy caller ti = _ ∧ _) ∨ ∃ ti', setRedundancy caller ti = _ ∧ _
  unfold setRedundancy
  rw [if_neg (by simpa using howner)]
  split
  · rename_i hnone
    rw [hcopy] at hnone
    cases hnone
  · rename_i req hsome
    obtain rfl : buf = req := Option.some.inj (hcopy.symm.trans hsome)
    dsimp only
    by_cases hec : schemeKind buf = tartineRedundancyErasureCoded
    · exact Or.inl ⟨if_pos hec, hec⟩
    · right
      rw [if_neg (show ¬UInt32.ofNat (leNat (field buf 0 4)) = _ from hec)]
      by_cases hkind : schemeKind buf = tartineRedundancyReplicated
      · rw [if_neg (not_not.mpr (show UInt32.ofNat (leNat (field buf 0 4)) = _ from hkind))]
        by_cases hn : UInt32.ofNat (leNat (field buf 4 4)) = 0 ∨ maxSelect < (UInt32.ofNat (leNat (field buf 4 4))).toNat
        · left
          refine ⟨dif_pos hn, hec, ?_⟩
          rintro ⟨-, hpos, hle⟩
          rw [hcount] at hn
          rcases hn with hzero | hmany
          · rw [hzero] at hcount
            rw [← hcount] at hpos
            exact absurd hpos (by decide)
          · omega
        · right
          refine ⟨_, dif_neg hn, ⟨hkind, ?_, ?_⟩, hcount, ?_⟩
          · refine Nat.pos_of_ne_zero (fun hzero => hn (Or.inl ?_))
            rw [← UInt32.toNat_inj, hcount, hzero]
            rfl
          · rw [← hcount]
            omega
          · show copySlots _ _ _ = _
            rw [hcount]
      · left
        rw [if_pos (show UInt32.ofNat (leNat (field buf 0 4)) ≠ _ from hkind)]
        exact ⟨rfl, hec, fun h => hkind h.1⟩

/-- What the module gives back decodes as what it was given. -/
theorem tartineFileIoctl_getRedundancy (hlen : buf.length = redundancyWireSize) (hcounted : Counted buf)
    (hn : ti'.nRedundancySlots.toNat = slotCount buf)
    (hslots : ti'.redundancySlots = copySlots ti.redundancySlots buf (slotCount buf))
    (hroom : redundancyWireSize ≤ getter.room) :
    ∃ b, tartineFileIoctl tartineIocGetRedundancy getter ti' = (.ok b, ti') ∧
      decodeSetRedundancy b = decodeSetRedundancy buf := by
  obtain ⟨hkind, -, hle⟩ := hcounted
  have hareaLen : (field buf 16 (slotCount buf * 24)).length = slotCount buf * 24 := by
    unfold field
    unfold redundancyWireSize at hlen
    rw [List.length_take, List.length_drop, hlen]
    omega
  have harea : ti'.redundancySlots.take (slotCount buf * 24) = field buf 16 (slotCount buf * 24) := by
    rw [hslots, copySlots]
    exact List.take_left' hareaLen
  have hform : tartineFileIoctl tartineIocGetRedundancy getter ti' = (copyToUser getter (policyHeader (slotCount buf) ++
      (field buf 16 (slotCount buf * 24) ++ List.replicate ((maxSelect - slotCount buf) * 24) 0)), ti') := by
    show getRedundancy getter ti' = _
    unfold getRedundancy
    dsimp only
    rw [hn, harea, List.append_assoc]
    rfl
  have hwire : (policyHeader (slotCount buf) ++ (field buf 16 (slotCount buf * 24) ++
      List.replicate ((maxSelect - slotCount buf) * 24) (0 : UInt8))).length = redundancyWireSize := by
    rw [List.length_append, List.length_append, length_policyHeader, hareaLen, List.length_replicate]
    unfold redundancyWireSize
    omega
  refine ⟨_, by rw [hform, copyToUser, if_pos (by rw [hwire]; exact hroom)], ?_⟩
  refine decodeSetRedundancy_congr hlen hwire hkind schemeKind_policyHeader
    (slotCount_policyHeader (by unfold maxSelect at hle; omega)) ?_
  intro i hi
  rw [slotBytes_policyHeader (by rw [hareaLen]; omega), field_field (by omega)]
  rfl

/-! ## The daemon's answer -/

variable {env : Env} {w w' : World} {p p' : Pool} {ino : InodeId} {rec : InodeRecord} {slots : List ReplicaSlot}

/-- What is left of a request once its policy has been accepted: the metadata operation. -/
def store (env : Env) (ino : InodeId) (scheme : RedundancyScheme) : FuseM Reply := do
  Action.mapErr errnoFor (Pool.setRedundancy env ino scheme)
  pure (.ioctl [])

/-- **Every way the daemon answers a policy.** -/
theorem ioctl_setRedundancy (env : Env) (ino : InodeId) (buf : Bytes) :
    (decodeSetRedundancy buf = none ∧ ∀ s, Fuse.ioctl env ino Fuse.tartineIocSetRedundancy buf s = (.err .einval, s)) ∨
    (∃ k m, decodeSetRedundancy buf = some (.erasureCoded k m) ∧
      ∀ s, Fuse.ioctl env ino Fuse.tartineIocSetRedundancy buf s = (.err .eopnotsupp, s)) ∨
    ∃ slots, decodeSetRedundancy buf = some (.replicated slots) ∧
      ∀ s, Fuse.ioctl env ino Fuse.tartineIocSetRedundancy buf s = store env ino (.replicated slots) s := by
  have hioctl : ∀ s, Fuse.ioctl env ino Fuse.tartineIocSetRedundancy buf s = Fuse.setRedundancy env ino buf s := fun _ => rfl
  cases hdecode : decodeSetRedundancy buf with
  | none =>
      refine Or.inl ⟨rfl, fun s => ?_⟩
      rw [hioctl, Fuse.setRedundancy, hdecode]
      rfl
  | some scheme =>
      cases scheme with
      | erasureCoded k m =>
          refine Or.inr (Or.inl ⟨k, m, rfl, fun s => ?_⟩)
          rw [hioctl, Fuse.setRedundancy, hdecode]
          rfl
      | replicated slots =>
          refine Or.inr (Or.inr ⟨slots, rfl, fun s => ?_⟩)
          rw [hioctl, Fuse.setRedundancy, hdecode]
          rfl

/-- A metadata operation that fails is `EIO`, never one of the errors of a refused policy. -/
theorem store_ne (env : Env) (ino : InodeId) (scheme : RedundancyScheme) (s : World × Pool) :
    (store env ino scheme s).1 ≠ .err .einval ∧ (store env ino scheme s).1 ≠ .err .eopnotsupp := by
  obtain ⟨w, p⟩ := s
  have hfails : ∀ e, (store env ino scheme (w, p)).1 = .err e → e = .eio := by
    intro e he
    rcases hout : store env ino scheme (w, p) with ⟨r, w', p'⟩
    rw [hout] at he
    obtain rfl : r = .err e := he
    rcases Action.bind_cases hout with ⟨u, s₁, -, hpure⟩ | ⟨e', herr, he'⟩ | ⟨-, hpanic⟩
    · cases hpure
    · obtain rfl := Res.err.inj he'
      obtain ⟨e₀, hset, rfl⟩ := Action.mapErr_eq_err.mp herr
      obtain ⟨q, s', -, hq, -⟩ := Pool.applyMeta_cases hset
      cases q with
      | ok u => cases hq
      | err e₁ =>
          obtain rfl := Res.err.inj hq
          rfl
      | panic => cases hq
    · cases hpanic
  constructor
  · intro h
    cases hfails _ h
  · intro h
    cases hfails _ h

/-- What the daemon gives back after an accepted policy. -/
theorem ioctl_getRedundancy (hwf : Pool.MetaWf p.metaStore) (hhas : p.metaStore.view.Has ino rec)
    (hslots : slots.length ≤ maxSelect) {reply : Reply} (h : store env ino (.replicated slots) (w, p) = (.ok reply, w', p')) :
    ∃ b, Fuse.ioctl env ino Fuse.tartineIocGetRedundancy [] (w', p') = (.ok (.ioctl b), w', p') ∧
      decodeSetRedundancy b = some (.replicated slots) := by
  obtain ⟨u, ⟨w₁, p₁⟩, hset, hpure⟩ := Action.bind_eq_ok.mp h
  obtain ⟨-, rfl, rfl⟩ : reply = .ioctl [] ∧ w' = w₁ ∧ p' = p₁ := by
    cases hpure
    exact ⟨rfl, rfl, rfl⟩
  obtain ⟨s', happly, rfl⟩ := Pool.applyMeta_eq_ok (Action.mapErr_eq_ok.mp hset)
  obtain ⟨-, hview⟩ := MetaStore.apply_eq_ok hwf.2 happly
  -- the operation rewrites the record under its own number
  have hwritten : s'.view = p.metaStore.view.writeInode { rec with redundancy := .replicated slots } := by
    change (p.metaStore.view.readInode ino >>= _) = _ at hview
    rw [hhas.readInode_eq] at hview
    exact (Res.ok.inj hview).symm
  have hhas' : s'.view.Has ino { rec with redundancy := .replicated slots } := by
    refine ⟨?_, ⟨?_, hhas.fits.2⟩, hhas.inode_eq⟩
    · rw [hwritten, View.writeInode, View.getElem?_insert_record, if_pos hhas.inode_eq]
    · show slots.length < 2 ^ 32
      unfold maxSelect at hslots
      omega
  have hrec : inodeOf ino (w', { p with metaStore := s' }) =
      (.ok { rec with redundancy := .replicated slots }, w', { p with metaStore := s' }) := by
    refine Action.reads_eq_ok.mpr ⟨?_, rfl⟩
    have hget : ({ p with metaStore := s' } : Pool).getInode ino = .ok (some { rec with redundancy := .replicated slots }) :=
      Pool.getInode_of_view hhas'.getInode_eq
    dsimp only
    rw [hget]
  refine ⟨encodeSetRedundancy (.replicated slots), ?_, (decode_encodeSetRedundancy hslots).2⟩
  exact (Action.bind_of_ok hrec).trans rfl

/-! ## Both of them -/

/-- How a front end answers a policy, disk failures apart. -/
inductive Verdict where
  | accepted
  | einval
  | eopnotsupp

/-- The daemon's verdict: the policy is handed on to the metadata, or refused whatever the state. -/
def FuseVerdict (env : Env) (ino : InodeId) (buf : Bytes) : Verdict → Prop
  | .accepted   => ∃ slots, ∀ s, Fuse.ioctl env ino Fuse.tartineIocSetRedundancy buf s = store env ino (.replicated slots) s
  | .einval     => ∀ s, Fuse.ioctl env ino Fuse.tartineIocSetRedundancy buf s = (.err .einval, s)
  | .eopnotsupp => ∀ s, Fuse.ioctl env ino Fuse.tartineIocSetRedundancy buf s = (.err .eopnotsupp, s)

/-- The module's verdict. -/
def KernelVerdict (caller : Caller) (ti : InodeInfo) : Verdict → Prop
  | .accepted   => ∃ ti', tartineFileIoctl tartineIocSetRedundancy caller ti = (.ok [], ti')
  | .einval     => tartineFileIoctl tartineIocSetRedundancy caller ti = (.error .einval, ti)
  | .eopnotsupp => tartineFileIoctl tartineIocSetRedundancy caller ti = (.error .eopnotsupp, ti)

/-- **The front ends agree on a policy**: one verdict, and after an accepted `SET` a `GET` on either gives a buffer that
    decodes to the policy that was set. -/
structure PoliciesAgree (env : Env) (w : World) (p : Pool) (ino : InodeId) (buf : Bytes) (caller getter : Caller)
    (ti : InodeInfo) : Prop where
  verdict : ∃ v, FuseVerdict env ino buf v ∧ KernelVerdict caller ti v
  fuse_get : ∀ reply w' p', Fuse.ioctl env ino Fuse.tartineIocSetRedundancy buf (w, p) = (.ok reply, w', p') →
    ∃ scheme b, decodeSetRedundancy buf = some scheme ∧
      Fuse.ioctl env ino Fuse.tartineIocGetRedundancy [] (w', p') = (.ok (.ioctl b), w', p') ∧
      decodeSetRedundancy b = some scheme
  kernel_get : ∀ reply ti', tartineFileIoctl tartineIocSetRedundancy caller ti = (.ok reply, ti') →
    ∃ scheme b, decodeSetRedundancy buf = some scheme ∧
      tartineFileIoctl tartineIocGetRedundancy getter ti' = (.ok b, ti') ∧ decodeSetRedundancy b = some scheme

/-- A policy that both refuse in the same way: there is nothing to get back. -/
theorem agree_of_refused {v : Verdict} {e : Fuse.Errno} {e' : Errno} (hfuse : FuseVerdict env ino buf v)
    (hmodule : KernelVerdict caller ti v)
    (hdaemon : Fuse.ioctl env ino Fuse.tartineIocSetRedundancy buf (w, p) = (.err e, w, p))
    (hkernel : tartineFileIoctl tartineIocSetRedundancy caller ti = (.error e', ti)) :
    PoliciesAgree env w p ino buf caller getter ti := by
  refine ⟨⟨v, hfuse, hmodule⟩, ?_, ?_⟩
  · intro reply w' p' hset
    cases hset.symm.trans hdaemon
  · intro reply ti' hset
    cases hset.symm.trans hkernel

/-- A replicated policy without slots, or with one to sixteen of which one is not pinned and names an unknown class. -/
def Disputed (buf : Bytes) : Prop :=
  schemeKind buf = tartineRedundancyReplicated ∧
    (slotCount buf = 0 ∨ (slotCount buf ≤ maxSelect ∧ ∃ i < slotCount buf, Unclassed (slotBytes buf i)))

/-- The two front ends answer a disputed policy differently. -/
theorem PoliciesAgree.not_disputed (hlen : buf.length = redundancyWireSize) (howner : caller.ownerOrCapable)
    (harg : caller.arg = buf) (hagree : PoliciesAgree env w p ino buf caller getter ti) : ¬Disputed buf := by
  have hnone := decodeSetRedundancy_eq_none_iff hlen
  have hkernel := tartineFileIoctl_setRedundancy ti howner harg hlen
  have hdaemon := ioctl_setRedundancy env ino buf
  obtain ⟨⟨v, hfuse, hmodule⟩, -, -⟩ := hagree
  rintro ⟨hkind, hdisputed⟩
  rw [if_pos hkind] at hnone
  have hnotec : schemeKind buf ≠ tartineRedundancyErasureCoded := by
    rw [hkind]
    decide
  rcases hdisputed with hzero | ⟨hle, i, hi, hslot⟩
  · -- no slots: the module refuses, the daemon does not
    have hrefuses : tartineFileIoctl tartineIocSetRedundancy caller ti = (.error .einval, ti) := by
      rcases hkernel with ⟨-, hec⟩ | ⟨h, -, -⟩ | ⟨ti', -, ⟨-, hpos, -⟩, -⟩
      · exact absurd hec hnotec
      · exact h
      · omega
    have htakes : FuseVerdict env ino buf .einval := by
      cases v with
      | accepted =>
          obtain ⟨ti', h⟩ := hmodule
          cases h.symm.trans hrefuses
      | einval => exact hfuse
      | eopnotsupp => cases (show _ = _ from hmodule).symm.trans hrefuses
    rcases hdaemon with ⟨hdecode, -⟩ | ⟨k, m, -, h⟩ | ⟨slots, -, h⟩
    · rcases hnone.mp hdecode with hmany | ⟨i, hi, -⟩
      · omega
      · omega
    · cases (htakes (w, p)).symm.trans (h (w, p))
    · exact (store_ne env ino (.replicated slots) (w, p)).1 (congrArg Prod.fst ((h (w, p)).symm.trans (htakes (w, p))))
  · -- an unknown class: the daemon refuses, the module does not
    have hstores : ∃ ti', tartineFileIoctl tartineIocSetRedundancy caller ti = (.ok [], ti') := by
      rcases hkernel with ⟨-, hec⟩ | ⟨-, -, hcounted⟩ | ⟨ti', h, -⟩
      · exact absurd hec hnotec
      · exact absurd ⟨hkind, by omega, hle⟩ hcounted
      · exact ⟨ti', h⟩
    obtain ⟨ti', hstores⟩ := hstores
    have hdecode := hnone.mpr (Or.inr ⟨i, hi, hslot⟩)
    have hrefuses : FuseVerdict env ino buf .einval := by
      rcases hdaemon with ⟨-, h⟩ | ⟨k, m, hsome, -⟩ | ⟨slots, hsome, -⟩
      · exact h
      · cases hdecode.symm.trans hsome
      · cases hdecode.symm.trans hsome
    cases v with
    | accepted =>
        obtain ⟨slots, h⟩ := hfuse
        exact (store_ne env ino (.replicated slots) (w, p)).1
          (congrArg Prod.fst ((h (w, p)).symm.trans (hrefuses (w, p))))
    | einval => cases (show _ = _ from hmodule).symm.trans hstores
    | eopnotsupp => cases (show _ = _ from hmodule).symm.trans hstores

/-- Any other policy they answer alike, and give back. -/
theorem agree_of_not_disputed (hwf : Pool.MetaWf p.metaStore) (hhas : p.metaStore.view.Has ino rec)
    (hlen : buf.length = redundancyWireSize) (howner : caller.ownerOrCapable) (harg : caller.arg = buf)
    (hroom : redundancyWireSize ≤ getter.room) (hagreed : ¬Disputed buf) :
    PoliciesAgree env w p ino buf caller getter ti := by
  have hnone := decodeSetRedundancy_eq_none_iff hlen
  have hkernel := tartineFileIoctl_setRedundancy ti howner harg hlen
  have hdaemon := ioctl_setRedundancy env ino buf
  rcases hkernel with ⟨hmodule, hec⟩ | ⟨hmodule, hnotec, hcounted⟩ | ⟨ti', hmodule, hcounted, hn, hslots⟩
  · -- erasure coding: not supported on either side
    have hdecode : decodeSetRedundancy buf = some (.erasureCoded (buf.getD 8 0) (buf.getD 9 0)) := by
      rw [decodeSetRedundancy_eq hlen, if_neg (by rw [hec]; decide), if_pos hec]
    rcases hdaemon with ⟨hsome, -⟩ | ⟨k, m, -, h⟩ | ⟨slots, hsome, -⟩
    · cases hdecode.symm.trans hsome
    · exact agree_of_refused (v := .eopnotsupp) h hmodule (h (w, p)) hmodule
    · cases hdecode.symm.trans hsome
  · -- too many slots, or an unknown kind
    have hdecode : decodeSetRedundancy buf = none := by
      rw [hnone]
      split
      · rename_i hkind
        left
        by_contra hle
        by_cases hzero : slotCount buf = 0
        · exact hagreed ⟨hkind, Or.inl hzero⟩
        · exact hcounted ⟨hkind, by omega, by omega⟩
      · exact hnotec
    rcases hdaemon with ⟨-, h⟩ | ⟨k, m, hsome, -⟩ | ⟨slots, hsome, -⟩
    · exact agree_of_refused (v := .einval) h hmodule (h (w, p)) hmodule
    · cases hdecode.symm.trans hsome
    · cases hdecode.symm.trans hsome
  · -- stored on both sides, and given back
    have hsome : decodeSetRedundancy buf ≠ none := by
      rw [Ne, hnone, if_pos hcounted.1]
      rintro (hmany | hslot)
      · exact absurd hcounted.2.2 (by omega)
      · exact hagreed ⟨hcounted.1, Or.inr ⟨hcounted.2.2, hslot⟩⟩
    rcases hdaemon with ⟨hdecode, -⟩ | ⟨k, m, hdecode, -⟩ | ⟨slots, hdecode, h⟩
    · exact absurd hdecode hsome
    · rw [decodeSetRedundancy_eq hlen, if_pos hcounted.1, if_neg (by have := hcounted.2.2; omega)] at hdecode
      obtain ⟨slots, -, hscheme⟩ := Option.map_eq_some_iff.mp hdecode
      cases hscheme
    · refine ⟨⟨.accepted, ⟨slots, h⟩, ti', hmodule⟩, ?_, ?_⟩
      · intro reply w' p' hset
        rw [h (w, p)] at hset
        obtain ⟨b, hget, hback⟩ := ioctl_getRedundancy hwf hhas (decodeSetRedundancy_slots hdecode) hset
        exact ⟨_, b, hdecode, hget, hback⟩
      · intro reply ti'' hset
        obtain rfl : ti' = ti'' := congrArg Prod.snd (hmodule.symm.trans hset)
        obtain ⟨b, hget, hback⟩ := tartineFileIoctl_getRedundancy hlen hcounted hn hslots hroom
        exact ⟨_, b, hdecode, hget, hback.trans hdecode⟩

/-- **When both front ends treat a policy alike.** For every 400-byte buffer, brought by a caller with permission, a file of
    the pool and an inode of the module: they agree exactly if the buffer is not a replicated policy without slots, which
    only the module refuses, or one that names an unknown class in a slot it counts, which only the daemon refuses. -/
theorem policies_agree_iff (hwf : Pool.MetaWf p.metaStore) (hhas : p.metaStore.view.Has ino rec)
    (hlen : buf.length = redundancyWireSize) (howner : caller.ownerOrCapable) (harg : caller.arg = buf)
    (hroom : redundancyWireSize ≤ getter.room) :
    PoliciesAgree env w p ino buf caller getter ti ↔ ¬Disputed buf :=
  ⟨fun h => h.not_disputed hlen howner harg, agree_of_not_disputed hwf hhas hlen howner harg hroom⟩

/-! ## Two buffers -/

instance (s : Bytes) : Decidable (Unclassed s) := inferInstanceAs (Decidable (_ ∧ _))

instance (buf : Bytes) : Decidable (Disputed buf) := inferInstanceAs (Decidable (_ ∧ (_ ∨ _)))

/-- The file of a session on one disk. -/
theorem appendSession_has : ∃ rec, Pool.appendSession.2.2.metaStore.view.Has 2 rec := by
  obtain ⟨hrun, hsession⟩ := Pool.run_appendSession
  have hfind : (Pool.appendSession.2.2.findInode 2).isOk = true := by decide +kernel
  have htabled : Pool.Tabled 1 (Pool.Readable False 1) _ _ :=
    hrun.readable (by decide +kernel) (Pool.beforeReopens_of_inSession hsession) False.elim
  exact ⟨_, (htabled.of_findInode (Res.eq_ok_getD (MetaStore.emptyFile 2) hfind)).1⟩

/-- The module's inode for it. -/
def oneFileInode : InodeInfo := tartineAllocInode (List.replicate (maxSelect * 24) 0) 0 List.length_replicate

/-- The policy of one replica anywhere. -/
def oneReplica : Bytes := encodeSetRedundancy (.replicated [.anyOfClass none])

/-- The theorem at a policy of one unconstrained slot. -/
theorem policies_agree_oneReplica : PoliciesAgree (Env.healthy MetaStore.listOrder) Pool.appendSession.2.1
    Pool.appendSession.2.2 2 oneReplica ⟨true, oneReplica, 0⟩ ⟨true, [], redundancyWireSize⟩ oneFileInode := by
  obtain ⟨rec, hhas⟩ := appendSession_has
  have hroom : redundancyWireSize ≤ (⟨true, [], redundancyWireSize⟩ : Caller).room := Nat.le_refl _
  have howner : (⟨true, oneReplica, 0⟩ : Caller).ownerOrCapable := rfl
  refine (policies_agree_iff Pool.run_appendSession.1.wf.1 hhas ?_ howner rfl hroom).mpr ?_
  · decide +kernel
  · decide +kernel

/-- A buffer of zeros is a replicated policy without slots: the daemon stores it, the module refuses it. -/
theorem empty_policy_disputed :
    (Fuse.ioctl (Env.healthy MetaStore.listOrder) 2 Fuse.tartineIocSetRedundancy (List.replicate redundancyWireSize 0)
      (Pool.appendSession.2.1, Pool.appendSession.2.2)).1 = .ok (.ioctl []) ∧
    tartineFileIoctl tartineIocSetRedundancy ⟨true, List.replicate redundancyWireSize 0, 0⟩ oneFileInode =
      (.error .einval, oneFileInode) ∧
    ¬PoliciesAgree (Env.healthy MetaStore.listOrder) Pool.appendSession.2.1 Pool.appendSession.2.2 2
      (List.replicate redundancyWireSize 0) ⟨true, List.replicate redundancyWireSize 0, 0⟩ ⟨true, [], redundancyWireSize⟩
      oneFileInode := by
  have hfuse : (Fuse.ioctl (Env.healthy MetaStore.listOrder) 2 Fuse.tartineIocSetRedundancy
      (List.replicate redundancyWireSize 0) (Pool.appendSession.2.1, Pool.appendSession.2.2)).1 = .ok (.ioctl []) := by
    decide +kernel
  have hmodule : tartineFileIoctl tartineIocSetRedundancy ⟨true, List.replicate redundancyWireSize 0, 0⟩ oneFileInode =
      (.error .einval, oneFileInode) := by
    decide +kernel
  refine ⟨hfuse, hmodule, ?_⟩
  rintro ⟨⟨v, hdaemon, hkernel⟩, -, -⟩
  cases v with
  | accepted =>
      obtain ⟨ti', h⟩ := hkernel
      cases h.symm.trans hmodule
  | einval =>
      have hrefused := congrArg Prod.fst (hdaemon (Pool.appendSession.2.1, Pool.appendSession.2.2))
      cases hfuse.symm.trans hrefused
  | eopnotsupp => cases (show _ = _ from hkernel).symm.trans hmodule

end Tartine.Kernel
