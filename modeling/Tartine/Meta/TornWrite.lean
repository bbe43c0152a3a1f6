import Tartine.Meta.Recovery

/-!
# `Meta.TornWrite` — a log write cut short by a crash

The log region is preallocated, so a frame of which only the first `k` bytes reached the disk is followed by zeros,
not by the end of the file. What the reader then sees is again a header (once the four bytes of the magic are there)
with whatever length and checksum the cut left: the cut frame is *absent* only if those do not match the bytes they
delimit. Cut right after the magic, length and checksum are both zero, which is consistent (the checksum of the empty
string is zero), and the empty payload goes to a decoder that panics on it.

* `probe_torn` — what the reader makes of a cut frame;
* `torn_write_absent_iff` — exactly when recovery survives one;
* `open_panics_after_magic` — it never survives a cut after the fourth byte.
-/

namespace Tartine

open Basis Codec

/-! ## A cut frame, and what the reader takes it for -/

namespace Wal

/-- The bytes of a frame cut after `k` bytes, zeros from there on. -/
def tornByte (f : Bytes) (k : Nat) : Nat → UInt8 := fun i => (f.take k).getD i 0

/-- The payload length its header announces. -/
def tornLen (f : Bytes) (k : Nat) : Nat := leNat (slice (tornByte f k) 4 4)

/-- The checksum its header carries. -/
def tornChecksum (f : Bytes) (k : Nat) : UInt32 := UInt32.ofNat (leNat (slice (tornByte f k) 8 4))

/-- The bytes the announced length delimits. -/
def tornPayload (f : Bytes) (k : Nat) : Bytes := slice (tornByte f k) headerLen (tornLen f k)

/-- A cut frame at `c` passes for an entry: its magic is there, the announced length stays in the region, and the
    checksum matches. -/
def TornAccepted (c : Nat) (f : Bytes) (k : Nat) : Prop :=
  4 ≤ k ∧ c + headerLen + tornLen f k ≤ walCapacityBytes ∧
    Crc32c.checksum (tornPayload f k) = tornChecksum f k

instance (c : Nat) (f : Bytes) (k : Nat) : Decidable (TornAccepted c f k) :=
  inferInstanceAs (Decidable (_ ∧ _ ∧ _))

variable {d : FileDisk} {ps : List Bytes} {c k : Nat} {payload f : Bytes}

theorem tornByte_of_length_le {i : Nat} (h : (f.take k).length ≤ i) : tornByte f k i = 0 := by
  unfold tornByte
  rw [List.getD_eq_getElem?_getD, List.getElem?_eq_none h, Option.getD_none]

theorem tornByte_of_le {i : Nat} (h : k ≤ i) : tornByte f k i = 0 :=
  tornByte_of_length_le (Nat.le_trans (List.length_take_le k f) h)

/-- A range before the cut is as it was written. -/
theorem slice_tornByte {a n : Nat} (hk : a + n ≤ k) (hf : a + n ≤ f.length) :
    slice (tornByte f k) a n = (f.drop a).take n := by
  have hlen : a + n ≤ (f.take k).length := by
    rw [List.length_take]
    omega
  rw [show tornByte f k = fun i => (f.take k).getD i 0 from rfl, slice_getD hlen, List.drop_take, List.take_take]
  congr 1
  omega

/-- On a disk that was blank from `c` on, the cut frame is what is found there. -/
theorem slice_writeAt_torn (hblank : ∀ i, c ≤ i → i < walCapacityBytes → d.bytes i = 0) {a n : Nat}
    (hn : c + a + n ≤ walCapacityBytes) :
    slice (d.writeAt c (f.take k)).bytes (c + a) n = slice (tornByte f k) a n := by
  rw [← slice_shift]
  apply slice_congr
  intro i _ hi
  rw [FileDisk.writeAt_bytes]
  by_cases hin : i < (f.take k).length
  · rw [patch, if_pos (by omega), Nat.add_sub_cancel_left, tornByte]
  · rw [patch_of_not_mem (by omega), hblank _ (by omega) (by omega), tornByte_of_length_le (by omega)]

/-- Cut at the eighth byte or later, the announced length is the payload's. -/
theorem tornLen_of_le (hpay : payload.length < 2 ^ 32) (hk : 8 ≤ k) :
    tornLen (buildFrame payload) k = payload.length := by
  have hlen : 4 + 4 ≤ (buildFrame payload).length := by
    rw [length_buildFrame]
    unfold headerLen
    omega
  unfold tornLen
  rw [slice_tornByte hk hlen]
  have hfield : ((buildFrame payload).drop 4).take 4 = leBytes 4 (UInt32.ofNat payload.length).toNat := by
    simp only [buildFrame, frame, frameHeader, List.take_append, List.drop_append, length_leBytes,
      List.length_append, List.take_of_length_le, List.drop_of_length_le, List.drop_zero, Nat.sub_self,
      Nat.reduceSub, Nat.reduceAdd, Nat.le_refl, List.take_zero, List.append_nil, List.nil_append]
  rw [hfield, leNat_leBytes_of_lt (UInt32.toNat_lt _), UInt32.toNat_ofNat', Nat.mod_eq_of_lt hpay]

/-- Nothing is left after the bytes the announced length delimits. -/
theorem tornByte_past_payload (hpay : payload.length < 2 ^ 32) {i : Nat}
    (hi : headerLen + tornLen (buildFrame payload) k ≤ i) : tornByte (buildFrame payload) k i = 0 := by
  by_cases hk : 8 ≤ k
  · rw [tornLen_of_le hpay hk] at hi
    refine tornByte_of_length_le ?_
    rw [List.length_take, length_buildFrame]
    omega
  · exact tornByte_of_le (by unfold headerLen at hi; omega)

/-- Cut inside the magic, a frame is not a header. -/
theorem probe_torn_magic (hblank : ∀ i, c ≤ i → i < walCapacityBytes → d.bytes i = 0) (hk : k < 4) :
    probe (d.writeAt c (f.take k)) 0 c = .stop := by
  by_cases hend : walCapacityBytes < c + headerLen
  · exact probe_of_end hend
  refine probe_of_no_magic ?_
  have hslice := slice_writeAt_torn (f := f) (k := k) (a := 0) (n := 4) hblank (by unfold headerLen at hend; omega)
  rw [Nat.zero_add]
  rw [Nat.add_zero] at hslice
  rw [hslice]
  -- the magic's last byte is not zero
  intro hmagic
  have hlast := congrArg (fun l : List UInt8 => l[3]?) hmagic
  simp only [getElem?_slice (show 3 < 4 by omega), Nat.zero_add] at hlast
  rw [tornByte_of_le (by omega)] at hlast
  exact absurd hlast (by decide)

/-- The header of a frame cut after its magic. -/
theorem header_torn (hk : 4 ≤ k) : framing.header (slice (tornByte (buildFrame payload) k) 0 headerLen) =
    some (tornChecksum (buildFrame payload) k, tornLen (buildFrame payload) k) := by
  have hlen : 0 + 4 ≤ (buildFrame payload).length := by
    rw [length_buildFrame]
    unfold headerLen
    omega
  have hmagic : (slice (tornByte (buildFrame payload) k) 0 headerLen).take 4 = leBytes 4 walMagic.toNat := by
    rw [take_slice (by decide), slice_tornByte (by omega) hlen, List.drop_zero]
    simp only [buildFrame, frame, frameHeader, List.append_assoc]
    exact List.take_left' (length_leBytes 4 _)
  have hfield : ∀ a, a + 4 ≤ headerLen → ((slice (tornByte (buildFrame payload) k) 0 headerLen).drop a).take 4 =
      slice (tornByte (buildFrame payload) k) a 4 := by
    intro a ha
    rw [drop_slice (by omega), take_slice (by omega), Nat.zero_add]
  show (if _ ≠ _ then none else some _) = _
  rw [if_neg (by rw [hmagic]; simp), hfield 8 (by decide), hfield 4 (by decide)]
  rfl

/-- **What the reader makes of a cut frame** on a preallocated disk: an entry exactly when it passes for one. -/
theorem probe_torn (payload : Bytes) (k : Nat) (hblank : ∀ i, c ≤ i → i < walCapacityBytes → d.bytes i = 0)
    (hpre : walCapacityBytes ≤ d.len) :
    (TornAccepted c (buildFrame payload) k → probe (d.writeAt c ((buildFrame payload).take k)) 0 c =
      .entry (tornPayload (buildFrame payload) k) (headerLen + tornLen (buildFrame payload) k)) ∧
    (¬TornAccepted c (buildFrame payload) k →
      probe (d.writeAt c ((buildFrame payload).take k)) 0 c = .stop ∨
      probe (d.writeAt c ((buildFrame payload).take k)) 0 c = .corrupt) := by
  have hpre' : walCapacityBytes ≤ (d.writeAt c ((buildFrame payload).take k)).len :=
    Nat.le_trans hpre (FileDisk.len_le_writeAt _ _ _)
  -- every read inside the region sees the cut frame
  have hread : ∀ a n, c + a + n ≤ walCapacityBytes →
      (d.writeAt c ((buildFrame payload).take k)).readAt (0 + (c + a)) n =
        some (slice (tornByte (buildFrame payload) k) a n) := by
    intro a n hn
    unfold FileDisk.readAt
    rw [if_pos (Or.inr (by omega)), Nat.zero_add, slice_writeAt_torn hblank hn]
  constructor
  · rintro ⟨hk, hcap, hsum⟩
    refine Framing.probe_eq_entry_iff.mpr ⟨_, _, _, _, hread 0 headerLen (by omega), header_torn hk, rfl,
      by show c + (headerLen + _) ≤ _; omega, hread headerLen _ hcap, ?_⟩
    show (if Crc32c.checksum (tornPayload _ _) ≠ _ then none else some (tornPayload _ _)) = _
    rw [if_neg (by simp [hsum])]
  · intro hrej
    cases hp : probe (d.writeAt c ((buildFrame payload).take k)) 0 c with
    | stop => exact Or.inl rfl
    | corrupt => exact Or.inr rfl
    | entry a n =>
        -- whatever was read as an entry has the header and the checksum of the cut frame
        refine absurd ?_ hrej
        by_cases hk : 4 ≤ k
        · obtain ⟨bs, sum, len, p, hh, hhead, rfl, hcap, hbody, hacc⟩ := Framing.probe_eq_entry_iff.mp hp
          have hlen : framing.headerLen = headerLen := rfl
          rw [hlen] at hcap hbody
          obtain rfl := Option.some.inj (hh.symm.trans (hread 0 headerLen (by omega)))
          rw [header_torn hk] at hhead
          obtain ⟨rfl, rfl⟩ := Prod.mk.inj (Option.some.inj hhead)
          obtain rfl := Option.some.inj (hbody.symm.trans (hread headerLen _ (by omega)))
          refine ⟨hk, by omega, ?_⟩
          by_contra hsum
          have hnone : framing.accept (tornChecksum (buildFrame payload) k)
              (slice (tornByte (buildFrame payload) k) headerLen (tornLen (buildFrame payload) k)) = none :=
            if_pos hsum
          rw [hnone] at hacc
          cases hacc
        · rw [probe_torn_magic hblank (by omega)] at hp
          cases hp

/-- **The log recovered from a disk whose last write was cut**: the log before it, with or without one more entry. -/
theorem scan_torn (h : Carries d ps c) (hpre : walCapacityBytes ≤ d.len) (hpay : payload.length < 2 ^ 32) :
    (scan (d.writeAt c ((buildFrame payload).take k)) 0).entries =
      if TornAccepted c (buildFrame payload) k then ps ++ [tornPayload (buildFrame payload) k] else ps := by
  have hchain : Chain (probe (d.writeAt c ((buildFrame payload).take k)) 0) 0 ps c :=
    chain_writeAt h.chain (by omega)
  obtain ⟨hacc, hrej⟩ := probe_torn payload k h.blank hpre
  by_cases hta : TornAccepted c (buildFrame payload) k
  · rw [if_pos hta]
    -- after the extra entry there is nothing but zeros
    have hstop : probe (d.writeAt c ((buildFrame payload).take k)) 0
        (c + (headerLen + tornLen (buildFrame payload) k)) = .stop := by
      by_cases hend : walCapacityBytes < c + (headerLen + tornLen (buildFrame payload) k) + headerLen
      · exact probe_of_end hend
      refine probe_of_zeros ?_
      intro i _
      have hbyte := slice_writeAt_torn (f := buildFrame payload) (k := k)
        (a := headerLen + tornLen (buildFrame payload) k + i) (n := 1) h.blank (by unfold headerLen at hend ⊢; omega)
      rw [slice_succ, slice_succ, List.cons.injEq] at hbyte
      rw [Nat.zero_add, Nat.add_assoc, hbyte.1]
      exact tornByte_past_payload hpay (by omega)
    unfold scan
    rw [scan_of_chain probe_bounded (hchain.snoc (hacc hta)) hstop]
  · rw [if_neg hta]
    unfold scan
    rcases hrej hta with hstop | hcorrupt
    · rw [scan_of_chain probe_bounded hchain hstop]
    · rw [scan_of_chain_corrupt probe_bounded hchain hcorrupt]

end Wal

/-! ## Opening a store whose last write was cut -/

namespace MetaStore

variable {primary : DiskRef} {w : World} {s : MetaStore} {ops : List MetaOp} {total k : Nat} {ord : IterOrder}
  {op : MetaOp}

/-- The disks after a crash during `apply op` that let only `k` bytes of the frame reach the primary. -/
def tornWorld (w : World) (s : MetaStore) (ord : IterOrder) (op : MetaOp) (k : Nat) : World :=
  w.setDisk s.replicator.primaryDisk
    ((w.disk s.replicator.primaryDisk).writeAt (s.walBaseOffset + s.walCursor) ((opFrame ord op).take k))

/-- Opening succeeds, with the state before the operation or the state after it. -/
def RecoversBeforeOrAfter (w' : World) (primary : DiskRef) (ops : List MetaOp) (op : MetaOp) : Prop :=
  ∀ group backup, ∃ s', openStore w' group primary backup = .ok s' ∧
    (ops.foldlM View.applyLocally View.empty = .ok s'.view ∨
      (ops ++ [op]).foldlM View.applyLocally View.empty = .ok s'.view)

/-- What recovery gets from the cut log: the state before, or that state with one more entry replayed. -/
theorem Tracks.openStore_torn {ps : List Bytes} {v : View} (ht : Tracks primary w s ops total ps v)
    (hpre : Wal.walCapacityBytes ≤ (w.disk primary).len) (hpay : (encodeOp ord op).length < 2 ^ 32)
    (group : MetaGroup) (backup : Option DiskRef) :
    ∃ resumeAt, openStore (tornWorld w s ord op k) group primary backup =
      ((if Wal.TornAccepted total (opFrame ord op) k then v.replayEntry (Wal.tornPayload (opFrame ord op) k)
        else .ok v) >>= fun u => .ok ⟨⟨group, primary, backup⟩, 0, resumeAt, u⟩) := by
  have hdisk : (tornWorld w s ord op k).disk primary =
      (w.disk primary).writeAt total ((opFrame ord op).take k) := by
    unfold tornWorld
    rw [ht.primaryDisk_eq, ht.base_eq, ht.cursor_eq, Nat.zero_add]
    exact World.setDisk_self
  have hscan := Wal.scan_torn (k := k) ht.carries hpre hpay
  refine ⟨(Wal.scan ((tornWorld w s ord op k).disk primary) 0).resumeAt, ?_⟩
  unfold openStore
  dsimp only
  rw [hdisk, show (Wal.scan ((w.disk primary).writeAt total ((opFrame ord op).take k)) 0).entries = _ from hscan]
  by_cases hacc : Wal.TornAccepted total (opFrame ord op) k
  · rw [if_pos hacc, if_pos (show Wal.TornAccepted total (Wal.buildFrame _) k from hacc), View.replay_snoc,
      ht.replay_eq]
    rfl
  · rw [if_neg hacc, if_neg (show ¬Wal.TornAccepted total (Wal.buildFrame _) k from hacc), ht.replay_eq]
    rfl

/-- **Exactly when a torn last write is treated as absent or as done.** After any accepted operations, with `k` bytes
    of the next frame on a preallocated primary: opening recovers the state before or after the operation if and only
    if the cut frame does not pass for an entry, or the bytes it delimits decode to an operation that takes the state
    before to one of the two. -/
theorem torn_write_absent_iff (hrun : OkRun primary w s ops total) (hcap : total ≤ Wal.walCapacityBytes)
    (hpre : Wal.walCapacityBytes ≤ (w.disk primary).len) (hpay : (encodeOp ord op).length < 2 ^ 32) :
    RecoversBeforeOrAfter (tornWorld w s ord op k) primary ops op ↔
      (¬Wal.TornAccepted total (opFrame ord op) k ∨
        ∃ op' before after, decodeOp (Wal.tornPayload (opFrame ord op) k) = some op' ∧
          ops.foldlM View.applyLocally View.empty = .ok before ∧ before.applyLocally op' = .ok after ∧
          (after = before ∨ before.applyLocally op = .ok after)) := by
  obtain ⟨ps, v, ht⟩ := hrun.tracks hcap
  have hsnoc : (ops ++ [op]).foldlM View.applyLocally View.empty = v.applyLocally op := by
    rw [List.foldlM_append, ht.ops_eq]
    show (v.applyLocally op >>= pure) = _
    rw [bind_pure]
  unfold RecoversBeforeOrAfter
  rw [hsnoc, ht.ops_eq]
  constructor
  · intro hrec
    by_cases hacc : Wal.TornAccepted total (opFrame ord op) k
    · right
      obtain ⟨s', hopen, hstate⟩ := hrec s.group none
      obtain ⟨resumeAt, heq⟩ := ht.openStore_torn (k := k) hpre hpay s.group none
      rw [heq, if_pos hacc] at hopen
      obtain ⟨u, hu, hs'⟩ := Res.bind_eq_ok.mp hopen
      obtain rfl := Res.ok.inj hs'
      unfold View.replayEntry at hu
      split at hu
      · cases hu
      · rename_i op' hdec
        refine ⟨op', v, u, hdec, rfl, hu, ?_⟩
        rcases hstate with hbefore | hafter
        · exact Or.inl (Res.ok.inj hbefore).symm
        · exact Or.inr hafter
    · exact Or.inl hacc
  · intro hcond group backup
    obtain ⟨resumeAt, heq⟩ := ht.openStore_torn (k := k) hpre hpay group backup
    rw [heq]
    by_cases hacc : Wal.TornAccepted total (opFrame ord op) k
    · rcases hcond with hrej | ⟨op', before, after, hdec, hbefore, happly, hstate⟩
      · exact absurd hacc hrej
      · obtain rfl := Res.ok.inj hbefore
        rw [if_pos hacc]
        unfold View.replayEntry
        rw [hdec]
        simp only [happly, Res.ok_bind]
        refine ⟨_, rfl, ?_⟩
        rcases hstate with rfl | hafter
        · exact Or.inl rfl
        · exact Or.inr hafter
    · rw [if_neg hacc]
      exact ⟨_, rfl, Or.inl rfl⟩

/-- **A cut right after the magic is never survived**: the empty payload it leaves is accepted, and the decoder
    panics on it. -/
theorem open_panics_after_magic (ord : IterOrder) (op : MetaOp) (hrun : OkRun primary w s ops total)
    (hcap : total + Wal.headerLen ≤ Wal.walCapacityBytes)
    (hpre : Wal.walCapacityBytes ≤ (w.disk primary).len) (hpay : (encodeOp ord op).length < 2 ^ 32)
    (group : MetaGroup) (backup : Option DiskRef) :
    openStore (tornWorld w s ord op 4) group primary backup = .panic := by
  obtain ⟨ps, v, ht⟩ := hrun.tracks (by omega)
  obtain ⟨resumeAt, heq⟩ := ht.openStore_torn (k := 4) hpre hpay group backup
  have hzeros : ∀ a, 4 ≤ a → slice (Wal.tornByte (opFrame ord op) 4) a 4 = List.replicate 4 0 := by
    intro a ha
    exact slice_zeros (fun i _ => Wal.tornByte_of_le (by omega))
  have hlen : Wal.tornLen (opFrame ord op) 4 = 0 := by
    unfold Wal.tornLen
    rw [hzeros 4 (Nat.le_refl _), leNat_replicate_zero]
  have hpayload : Wal.tornPayload (opFrame ord op) 4 = [] := by
    unfold Wal.tornPayload
    rw [hlen, slice_zero]
  have hsum : Wal.tornChecksum (opFrame ord op) 4 = 0 := by
    unfold Wal.tornChecksum
    rw [hzeros 8 (by omega), leNat_replicate_zero]
    rfl
  have hacc : Wal.TornAccepted total (opFrame ord op) 4 := by
    refine ⟨Nat.le_refl _, by omega, ?_⟩
    rw [hpayload, hsum]
    exact Crc32c.checksum_nil
  -- `decode_op` has no tag byte to read
  rw [heq, if_pos hacc, hpayload]
  rfl

/-- The theorem behind a log that holds operations, at a frame that is cut inside its payload: it is absent. -/
theorem torn_write_absent_iff_cutPayload :
    RecoversBeforeOrAfter (tornWorld twoFilesDisk.1 twoFilesDisk.2 listOrder (.link 1 "c" 2) 20) 0 twoFiles
      (.link 1 "c" 2) := by
  have hlen : Wal.walCapacityBytes ≤ (twoFilesDisk.1.disk 0).len := by decide +kernel
  refine (torn_write_absent_iff okRun_twoFiles (by decide +kernel) hlen (by decide +kernel)).mpr ?_
  -- the checksum of what is left of the payload is another one
  exact Or.inl (by decide +kernel)

/-- Creating one file, cut after four bytes: opening panics, so neither state is recovered. -/
theorem torn_after_magic_not_absent :
    openStore (tornWorld freshDisk.1 freshDisk.2 listOrder (.createInode (emptyFile 2)) 4) soloGroup 0 none = .panic ∧
    ¬RecoversBeforeOrAfter (tornWorld freshDisk.1 freshDisk.2 listOrder (.createInode (emptyFile 2)) 4) 0 []
      (.createInode (emptyFile 2)) := by
  have hpanic := open_panics_after_magic listOrder (.createInode (emptyFile 2)) okRun_freshDisk (by decide) (Nat.le_refl _)
    (by decide +kernel) soloGroup none
  refine ⟨hpanic, fun hrec => ?_⟩
  obtain ⟨s', hopen, -⟩ := hrec soloGroup none
  rw [hpanic] at hopen
  cases hopen

end MetaStore

end Tartine
