import Tartine.Meta.LogScan
import Tartine.Meta.Recovery

/-!
# `Meta.Corruption` — a damaged log, opened

`wal::scan` stops at a frame whose checksum does not match and says where. `MetaStore::open` takes the entries before it
and the offset to resume at, and never looks at the report: it returns Ok, with whatever the operations before the damage
amount to, and the next operation is written over the damaged frame and the ones behind it.

* `Wal.Carries.scan_of_burst` — a change within four consecutive bytes of a payload is always noticed by the scan;
* `openStore_of_burst` — and what `open` makes of it;
* `corruption_reported_iff` — when that is the state all operations left.
-/

namespace Tartine

open Basis Codec

namespace Wal

variable {d d' : FileDisk} {c e : Nat} {ps : List Bytes} {payload : Bytes} {j : Nat}

/-! ## Damage at rest -/

/-- `i` is an offset inside the payload of the log's entry `j`. -/
def InPayload (ps : List Bytes) (j i : Nat) : Prop :=
  ∃ p, ps[j]? = some p ∧ frameStart ps j + headerLen ≤ i ∧ i < frameStart ps j + headerLen + p.length

/-- A change of the disk within four consecutive bytes of the payload of the log's entry `j`. -/
structure Burst (d d' : FileDisk) (j : Nat) : Prop where
  len_eq : d'.len = d.len
  within : ∃ k, ∀ i, d'.bytes i ≠ d.bytes i → InPayload (scan d 0).entries j i ∧ k ≤ i ∧ i < k + 4

/-- The disk of a log, byte by byte: every entry short enough for its frame, and the frames in a row. -/
theorem Carries.holds (h : Carries d ps e) : (∀ p ∈ ps, coding.Valid p) ∧ e = coding.start ps ps.length ∧
    (ps = [] ∨ e ≤ walCapacityBytes) ∧ (ps = [] ∨ e ≤ d.len) ∧ Holds d.bytes 0 (ps.flatMap coding.encode) := by
  have hchain := h.chain
  rw [probe_eq_storage] at hchain
  obtain ⟨hvalid, hend, hcap, hlen, hold⟩ := coding.chain_iff.mp hchain
  unfold Holds at hold ⊢
  rw [slice_shift] at hold
  refine ⟨hvalid, ?_, hcap, hlen, hold⟩
  rw [hend, Framing.Coding.start, List.take_length, Nat.zero_add]

/-- **What the scan of a damaged log finds**: the entries before the damage. -/
theorem Carries.scan_of_burst (h : Carries d ps e) (hburst : Burst d d' j) (hne : ∃ i, d'.bytes i ≠ d.bytes i) :
    j < ps.length ∧ ∃ c, scan d' 0 = ⟨ps.take j, c, some c⟩ := by
  obtain ⟨k, hwithin⟩ := hburst.within
  rw [h.scan_eq] at hwithin
  dsimp only at hwithin
  obtain ⟨i₀, hi₀⟩ := hne
  obtain ⟨⟨payload, hat, -⟩, -⟩ := hwithin i₀ hi₀
  obtain ⟨hj, -⟩ := List.getElem?_eq_some_iff.mp hat
  obtain ⟨hvalid, rfl, hcap, hlen, hold⟩ := h.holds
  have hne : ps ≠ [] := List.ne_nil_of_mem (List.mem_of_getElem? hat)
  have hlast : coding.start ps (j + 1) ≤ coding.start ps ps.length := Framing.Coding.start_mono hj
  refine ⟨hj, coding.start ps j, ?_⟩
  refine scan_disk_of_burst coding (fun p hp => hvalid p (List.mem_of_mem_take hp)) hat ?_
    (Nat.le_trans hlast (hcap.resolve_left hne)) ?_ ⟨hburst.len_eq, ⟨i₀, hi₀⟩, k, fun i hdiff => ?_⟩ (fun p hp => if_pos hp)
  · rw [← List.take_append_drop (j + 1) ps, List.flatMap_append] at hold
    exact (holds_append.mp hold).1
  · rw [Nat.zero_add]
    exact Nat.le_trans hlast (hlen.resolve_left hne)
  · obtain ⟨⟨p, hp, hlow, hhigh⟩, hk⟩ := hwithin i hdiff
    obtain rfl := Option.some.inj (hp.symm.trans hat)
    rw [Nat.zero_add, start_eq]
    exact ⟨hlow, hhigh, hk⟩

end Wal

namespace MetaStore

variable {primary : DiskRef} {w w' : World} {s s' : MetaStore} {ops : List MetaOp} {total j : Nat} {d' : FileDisk}

/-! ## What was acknowledged, and what `open` says -/

/-- The tables after a list of operations. -/
def stateAfter (ops : List MetaOp) : Res MetaStoreError View := ops.foldlM View.applyLocally View.empty

/-- No acknowledged operation is missing without an error: an error, or exactly the state after all of them. -/
def Reported (ops : List MetaOp) (r : Res MetaStoreError MetaStore) : Prop :=
  (∃ e, r = .err e) ∨ ∃ s', r = .ok s' ∧ stateAfter ops = .ok s'.view

/-- The entries of a run's log are its operations, in order. -/
theorem OkRun.entries (hrun : OkRun primary w s ops total) (hcap : total ≤ Wal.walCapacityBytes) :
    List.Forall₂ (fun p op => decodeOp p = some op) (Wal.scan (w.disk primary) 0).entries ops := by
  induction hrun with
  | @fresh w s group backup hzero hne h =>
      rw [(Wal.carries_nil hzero).scan_eq]
      exact .nil
  | @apply w s ops total w' s' env op hrun h ih =>
      have hfits : op.Fits := fits_of_frame hcap
      obtain ⟨ps, v, ht⟩ := hrun.tracks (by omega)
      obtain ⟨v', ht'⟩ := ht.apply env op hfits hcap h
      have hall := ih (by omega)
      rw [ht.carries.scan_eq] at hall
      rw [ht'.carries.scan_eq]
      exact List.rel_append hall (.cons (decodeOp_encodeOp env.ord hfits) .nil)
  | alloc hrun h ih => exact ih hcap
  | reopen hrun hne h ih => exact ih hcap

/-- Replaying entries is applying the operations they hold. -/
theorem replay_eq_foldlM {ps : List Bytes} {v : View} (h : List.Forall₂ (fun p op => decodeOp p = some op) ps ops) :
    v.replay ps = ops.foldlM View.applyLocally v := by
  induction h generalizing v with
  | nil => rfl
  | @cons p op ps ops hp _ ih =>
      show (v.replayEntry p >>= fun u => u.replay ps) = (v.applyLocally op >>= fun u => ops.foldlM View.applyLocally u)
      rw [show v.replayEntry p = v.applyLocally op by unfold View.replayEntry; rw [hp]]
      congr 1
      funext u
      exact ih

/-- **Opening a damaged log is never an error.** It gives the state before the damaged frame. -/
theorem openStore_of_burst (hrun : OkRun primary w s ops total) (hcap : total ≤ Wal.walCapacityBytes)
    (group : MetaGroup) (backup : Option DiskRef) (hburst : Wal.Burst (w.disk primary) d' j)
    (hne : ∃ i, d'.bytes i ≠ (w.disk primary).bytes i) :
    ∃ s', openStore (w.setDisk primary d') group primary backup = .ok s' ∧ stateAfter (ops.take j) = .ok s'.view := by
  obtain ⟨ps, v, ht⟩ := hrun.tracks hcap
  have hentries := hrun.entries hcap
  rw [ht.carries.scan_eq] at hentries
  obtain ⟨-, c, hscan⟩ := ht.carries.scan_of_burst hburst hne
  -- the entries before the damage replay, because all of them do
  obtain ⟨u, hu, -⟩ : ∃ u, View.empty.replay (ps.take j) = .ok u ∧ u.replay (ps.drop j) = .ok v := by
    have hall := ht.replay_eq
    rw [← List.take_append_drop j ps, View.replay_append] at hall
    exact Res.bind_eq_ok.mp hall
  refine ⟨_, openStore_of_scan group backup (by rw [World.setDisk_self]; exact hscan) hu, ?_⟩
  exact (replay_eq_foldlM (List.forall₂_take j hentries)).symm.trans hu

/-- A disk with the same bytes and length is the same disk. -/
theorem setDisk_of_bytes_eq (hlen : d'.len = (w.disk primary).len)
    (h : ∀ i, d'.bytes i = (w.disk primary).bytes i) : w.setDisk primary d' = w := by
  have hd : d' = w.disk primary := by
    obtain ⟨bytes, len, hole⟩ := d'
    generalize w.disk primary = d at *
    obtain ⟨bytes₀, len₀, hole₀⟩ := d
    obtain rfl : bytes = bytes₀ := funext h
    obtain rfl : len = len₀ := hlen
    rfl
  rw [hd]
  show { w with disk := Function.update w.disk primary (w.disk primary) } = w
  rw [Function.update_eq_self]

/-- **When corruption at rest is not a silent loss.** After any run of accepted operations within the log's region, and any
    change within four consecutive bytes of one frame's payload on the primary: the next open reports it, or has the state
    after all of them, exactly if nothing was changed at all or the operations from the damaged frame on had left the
    state as it was. -/
theorem corruption_reported_iff (hrun : OkRun primary w s ops total) (hcap : total ≤ Wal.walCapacityBytes)
    (group : MetaGroup) (backup : Option DiskRef) (hburst : Wal.Burst (w.disk primary) d' j) :
    Reported ops (openStore (w.setDisk primary d') group primary backup) ↔
      (∀ i, d'.bytes i = (w.disk primary).bytes i) ∨ stateAfter (ops.take j) = stateAfter ops := by
  by_cases hsame : ∀ i, d'.bytes i = (w.disk primary).bytes i
  · obtain ⟨ps, v, ht⟩ := hrun.tracks hcap
    rw [setDisk_of_bytes_eq hburst.len_eq hsame, ht.openStore_eq]
    exact ⟨fun _ => Or.inl hsame, fun _ => Or.inr ⟨_, rfl, ht.ops_eq⟩⟩
  · obtain ⟨s', hopen, hstate⟩ := openStore_of_burst hrun hcap group backup hburst (not_forall.mp hsame)
    rw [hopen, hstate]
    constructor
    · rintro (⟨e, he⟩ | ⟨s'', hs, hall⟩)
      · cases he
      · obtain rfl := Res.ok.inj hs
        exact Or.inr hall.symm
    · rintro (hbytes | hall)
      · exact absurd hbytes hsame
      · exact Or.inr ⟨s', rfl, hall.symm⟩

/-! ## One file, lost -/

/-- A fresh store that has created one file. -/
def oneFile : Res MetaStoreError Unit × World × MetaStore :=
  apply (Env.healthy listOrder) (World.blank 4096) ⟨⟨soloGroup, 0, none⟩, 0, 0, View.empty⟩ (.createInode (emptyFile 2))

/-- Its disk, with one byte of the inode's number changed. -/
def oneFileDamaged : FileDisk := (oneFile.2.1.disk 0).writeAt 13 [9]

theorem okRun_oneFile : OkRun 0 oneFile.2.1 oneFile.2.2 [.createInode (emptyFile 2)]
    (0 + (opFrame listOrder (.createInode (emptyFile 2))).length) := by
  have hzero : ∀ i, ((World.blank 4096).disk 0).bytes i = 0 := fun _ => rfl
  have hfresh := OkRun.fresh (s := ⟨⟨soloGroup, 0, none⟩, 0, 0, View.empty⟩) hzero (by decide)
    (openStore_of_carries soloGroup none (Wal.carries_nil hzero) rfl)
  exact OkRun.apply (Env.healthy listOrder) (.createInode (emptyFile 2)) hfresh rfl

theorem oneFile_cap : 0 + (opFrame listOrder (.createInode (emptyFile 2))).length ≤ Wal.walCapacityBytes := by
  decide +kernel

theorem burst_oneFile : Wal.Burst (oneFile.2.1.disk 0) oneFileDamaged 0 := by
  have hcarries : Wal.Carries (oneFile.2.1.disk 0) [encodeOp listOrder (.createInode (emptyFile 2))]
      (0 + (opFrame listOrder (.createInode (emptyFile 2))).length) :=
    (Wal.carries_nil (d := .create 4096) (fun _ => rfl)).snoc oneFile_cap
  refine ⟨by decide +kernel, 13, fun i hdiff => ?_⟩
  have hi : i = 13 := by
    by_contra hne
    refine hdiff (patch_of_not_mem ?_)
    show i < 13 ∨ 13 + 1 ≤ i
    omega
  subst hi
  refine ⟨⟨encodeOp listOrder (.createInode (emptyFile 2)), ?_, by decide +kernel, by decide +kernel⟩, by decide,
    by decide⟩
  rw [hcarries.scan_eq]
  rfl

theorem oneFile_changed : ∃ i, oneFileDamaged.bytes i ≠ (oneFile.2.1.disk 0).bytes i := ⟨13, by decide +kernel⟩

/-- The tables after the file was created are not the empty ones. -/
theorem stateAfter_oneFile :
    stateAfter ([MetaOp.createInode (emptyFile 2)].take 0) ≠ stateAfter [.createInode (emptyFile 2)] := by
  intro h
  have hget := congrArg (fun r : Res MetaStoreError View => r >>= fun v => v.getInode 2) h
  revert hget
  decide +kernel

/-- The theorem there: the damage is not reported. -/
theorem corruption_reported_iff_oneFile :
    ¬Reported [.createInode (emptyFile 2)] (openStore (oneFile.2.1.setDisk 0 oneFileDamaged) soloGroup 0 none) := by
  rw [corruption_reported_iff okRun_oneFile oneFile_cap soloGroup none burst_oneFile]
  rintro (hsame | hstate)
  · obtain ⟨i, hi⟩ := oneFile_changed
    exact hi (hsame i)
  · exact stateAfter_oneFile hstate

/-- The store had accepted the file, one byte of its log changed, and `open` returns Ok without it. -/
theorem damaged_log_opens :
    oneFile.1 = .ok () ∧ Wal.Burst (oneFile.2.1.disk 0) oneFileDamaged 0 ∧
    ∃ s', openStore (oneFile.2.1.setDisk 0 oneFileDamaged) soloGroup 0 none = .ok s' ∧ s'.getInode 2 = .ok none ∧
      ¬Reported [.createInode (emptyFile 2)] (openStore (oneFile.2.1.setDisk 0 oneFileDamaged) soloGroup 0 none) := by
  refine ⟨by decide +kernel, burst_oneFile, ?_⟩
  obtain ⟨s', hopen, hstate⟩ := openStore_of_burst okRun_oneFile oneFile_cap soloGroup none burst_oneFile oneFile_changed
  refine ⟨s', hopen, ?_, ?_⟩
  · have hview : View.empty = s'.view := Res.ok.inj hstate
    show s'.view.getInode 2 = .ok none
    rw [← hview]
    rfl
  · rw [hopen]
    rintro (⟨e, he⟩ | ⟨s'', hs, hall⟩)
    · cases he
    · obtain rfl := Res.ok.inj hs
      exact stateAfter_oneFile (hstate.trans hall.symm)

end MetaStore

end Tartine
