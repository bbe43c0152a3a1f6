import Tartine.Meta.PoolFaults
import Tartine.Meta.PoolRecords
import Tartine.Meta.PoolRefinement

/-!
# `Meta.PoolAppend` — a file that is not writable yet is what was appended to it

Until its conversion completes, a file is the data of the calls that returned Ok, in the order they did. `appended`
accumulates that data and `Grown` connects it to the pool: every record that is not `Writable` describes what was
accumulated for it, at any size. Completing a conversion copies the content into one extent whose length field has 32
bits, so the file keeps its size and loses what the field does not reach (`narrowed`).

* `Grown.step` — every call of a session keeps the relation, whatever fails;
* `record_step` — the record of a file after a call, with the move its mode has made;
* `readFullContent_completed` — what a converted file reads as.
-/

namespace Tartine

open Basis Codec

namespace Pool

variable {env : Env} {w w' w₁ : World} {p p' p₁ : Pool} {s' : MetaStore} {op : PoolOp} {mop : MetaOp}
  {m : InodeId → Bytes} {i : InodeId}

/-! ## What was accepted -/

/-- The data that calls returning Ok have brought to each file, one call after another. -/
def appended (m : InodeId → Bytes) : PoolOp → Res PoolError PoolVal → InodeId → Bytes
  | .append inode payload, .ok _ => Function.update m inode (m inode ++ payload)
  | .write inode _ data, .ok _   => Function.update m inode (m inode ++ data)
  | _, _                         => m

theorem appended_err (m : InodeId → Bytes) (op : PoolOp) (e : PoolError) : appended m op (.err e) = m := by
  cases op <;> rfl

theorem appended_ok (m : InodeId → Bytes) (op : PoolOp) (v : PoolVal) :
    appended m op (.ok v) = appended m op (.ok .unit) := by
  cases op <;> rfl

/-- Data is accepted only for the file whose record the call stores. -/
theorem Hands.appended_eq (h : Hands env w p op mop w₁ p₁) (hi : mop.target ≠ some i) :
    appended m op (.ok .unit) i = m i := by
  cases h with
  | phase hop hx =>
      rcases dataPhase_eq_ok hop hx with ⟨inode, _, _, rfl, rfl⟩ | ⟨inode, _, rfl, rfl⟩ | ⟨inode, _, _, _, rfl, rfl⟩
      · exact Function.update_of_ne (fun h => hi (congrArg some h.symm)) _ _
      · rfl
      · exact Function.update_of_ne (fun h => hi (congrArg some h.symm)) _ _
  | beginConvert => rfl
  | setRedundancy => rfl
  | unlink => rfl
  | create halloc => rfl
  | link halloc hcreate => rfl

/-! ## The relation -/

/-- Every file that is not writable is the data accepted for it, and none was accepted for a file that is not there. -/
structure Grown (w : World) (p : Pool) (m : InodeId → Bytes) : Prop where
  records : p.metaStore.view.Each (fun rec => rec.mode ≠ .writable → RecordSound (w, p) rec (m rec.inode))
  absent : ∀ i : InodeId, p.metaStore.view.inodes[i]? = none → m i = []

/-- The same records, and everything below the cursors retained. -/
theorem Grown.keep (hg : Grown w p m) (hret : Retains (w, p) (w', p'))
    (hsame : p'.metaStore.view.inodes = p.metaStore.view.inodes) : Grown w' p' m := by
  refine ⟨(hg.records.mono (fun rec hrec hmode => (hrec hmode).mono hret)).of_inodes_eq hsame, ?_⟩
  rw [hsame]
  exact hg.absent

/-- The record an accepted operation stores can be encoded. -/
theorem Intact.fits_of_recStep {rec : InodeRecord} (hi : Intact w p)
    (hfit : p.metaStore.walCursor + (MetaStore.opFrame env.ord mop).length ≤ Wal.walCapacityBytes)
    (hempty : ∀ rec, mop = .createInode rec → rec.chunkCount = 0) (hstep : p.metaStore.view.RecStep mop rec) :
    rec.Fits := by
  have hcap := Wal.walCapacityBytes_lt
  have hlists : p.metaStore.view.Each (InodeRecord.Lists (fun _ _ _ => True) p.metaStore.walCursor) :=
    hi.records.mono (fun rec hrec => ⟨hrec.1.mono (fun _ _ _ _ => trivial), hrec.2⟩)
  exact (hstep.allReplicas (by omega) hlists (MetaStore.fits_of_frame hfit) (allReplicas_true mop) hempty).1

/-- **An accepted metadata operation** leaves the data `m'` if the record it stores describes `m'`, and `m'` differs from
    `m` only there. -/
theorem Grown.accept {m' : InodeId → Bytes} (hg : Grown w p m) (hi : Intact w p)
    (hfit : p.metaStore.walCursor + (MetaStore.opFrame env.ord mop).length ≤ Wal.walCapacityBytes)
    (hempty : ∀ rec, mop = .createInode rec → rec.chunkCount = 0)
    (happly : p.metaStore.apply env w mop = (.ok (), w', s')) (hother : ∀ i, mop.target ≠ some i → m' i = m i)
    (hnew : ∀ rec, p.metaStore.view.RecStep mop rec → rec.mode ≠ .writable → RecordSound (w, p) rec (m' rec.inode)) :
    Grown w' { p with metaStore := s' } m' := by
  have hret := retains_applyMeta hi.wf hfit happly
  have hfits : ∀ rec, p.metaStore.view.RecStep mop rec → rec.Fits := fun rec => hi.fits_of_recStep hfit hempty
  obtain ⟨-, hu⟩ := MetaStore.apply_eq_ok hi.wf.2 happly
  constructor
  · refine hg.records.applyLocally hu ?_ (fun rec hstep => ⟨hfits rec hstep, fun hmode => ?_⟩)
    · intro rec hrec htarget hmode
      rw [hother _ htarget]
      exact (hrec hmode).mono hret
    · exact (hnew rec hstep hmode).mono hret
  · intro i hnone
    have htarget : mop.target ≠ some i := by
      intro ht
      obtain ⟨rec, -, hhas⟩ := View.has_applyLocally hg.records hu ht hfits
      cases hhas.entry_eq.symm.trans hnone
    rw [hother i htarget]
    refine hg.absent i ?_
    rw [← View.getElem?_applyLocally hg.records hu htarget]
    exact hnone

/-! ## What a call hands over -/

/-- A chunk that reached a disk fits a segment. -/
theorem length_le_of_appendRecord {record : Segment.Record} {handle : DiskHandle} {c : Nat}
    (h : appendRecord env record w handle = (.ok c, w')) : record.payload.length ≤ Segment.segmentSizeBytes := by
  rw [appendRecord_eq] at h
  split at h
  · cases (Prod.mk.inj h).1
  · rename_i hroom
    rw [Segment.length_encode] at hroom
    omega

theorem length_le_of_writeReplicas {record : Segment.Record} {ids : List DiskId} {replicas : List (DiskId × UInt64)}
    (h : writeReplicas (appendRecord env record) ids (w, p) = (.ok replicas, w', p')) (hne : replicas ≠ []) :
    record.payload.length ≤ Segment.segmentSizeBytes := by
  cases ids with
  | nil =>
      obtain ⟨rfl, -⟩ := Action.pure_eq_ok.mp h
      exact absurd rfl hne
  | cons id ids =>
      obtain ⟨r, s₁, hfirst, -⟩ := Action.bind_eq_ok.mp h
      unfold writeReplica at hfirst
      dsimp only at hfirst
      split at hfirst
      · cases (Prod.mk.inj hfirst).1
      · split at hfirst
        · cases (Prod.mk.inj hfirst).1
        · cases (Prod.mk.inj hfirst).1
        · rename_i hwrite
          exact length_le_of_appendRecord hwrite

/-- What a successful data phase of `append` has stored for a file that can be placed. -/
theorem chunkSound_of_prepareAppend {inode : InodeId} {payload : Bytes} {chunk : ChunkPointer} {rec : InodeRecord}
    (hok : HandlesOk p) (hget : p.metaStore.view.getInode inode = .ok (some rec)) (hscheme : rec.redundancy.Placeable)
    (h : prepareAppend env inode payload (w, p) = (.ok (.appendChunk inode chunk), w', p')) :
    rec.mode ≠ .writable ∧ ChunkSound (w', p') chunk payload := by
  obtain ⟨⟨chunkSeq, ids⟩, s₁, hreads, hrest⟩ := Action.bind_eq_ok.mp h
  obtain ⟨hplan, rfl⟩ := Action.reads_eq_ok.mp hreads
  obtain ⟨replicas, ⟨w₂, p₂⟩, hloop, hpure⟩ := Action.bind_eq_ok.mp hrest
  obtain ⟨hchunk, -⟩ := Action.pure_eq_ok.mp hpure
  obtain ⟨-, rfl⟩ := MetaOp.appendChunk.inj hchunk
  obtain ⟨rec', chunk', hget', hop, hlen, -, hrep⟩ := prepareAppend_eq_ok hok h
  obtain rfl := Option.some.inj (Res.ok.inj (hget.symm.trans hget'))
  obtain ⟨-, rfl⟩ := MetaOp.appendChunk.inj hop
  have hreplicas := hrep hscheme
  have hfew : payload.length ≤ Segment.segmentSizeBytes := length_le_of_writeReplicas hloop hreplicas.nonempty
  have hseg : Segment.segmentSizeBytes < 2 ^ 32 := by decide
  refine ⟨?_, ?_, hreplicas⟩
  · obtain ⟨rec', chunks, hfind, hmode, -⟩ := planAppend_eq_ok hplan
    obtain rfl := Option.some.inj (Res.ok.inj (hget.symm.trans (findInode_eq_ok hfind)))
    exact hmode
  · rw [hlen, UInt32.toNat_ofNat', Nat.mod_eq_of_lt (by omega)]

/-- **The record an operation leaves** for a file that is not writable describes the data accepted for it. -/
theorem Grown.recStep {rec : InodeRecord} (hg : Grown w p m) (hi : Intact w p) (hscheme : SchemeOk op)
    (hh : Hands env w p op mop w₁ p₁) (hg₁ : Grown w₁ p₁ m) (hstep : p₁.metaStore.view.RecStep mop rec)
    (hmode : rec.mode ≠ .writable) : RecordSound (w₁, p₁) rec (appended m op (.ok .unit) rec.inode) := by
  cases hstep with
  | @createInode rec =>
      cases hh with
      | phase hop hx =>
          exact False.elim (dataPhase_storesData hop hx)
      | create halloc =>
          obtain ⟨-, hnone⟩ := MetaStore.keysBelow_alloc hi.keys halloc
          show RecordSound _ _ (m (newFile _ _ _ _ _ _).inode)
          rw [show m (newFile _ _ _ _ _ _).inode = [] from hg.absent _ hnone]
          exact ⟨rfl, hscheme, .chunkLog (by simp [newFile]) .nil⟩
  | @appendChunk inode chunk rec chunks size hrec hdata hsize =>
      cases hh with
      | phase hop hx =>
          rcases dataPhase_eq_ok hop hx with ⟨_, payload, _, rfl, h⟩ | ⟨_, _, -, h⟩ | ⟨_, _, _, _, -, h⟩
          · obtain ⟨rfl, rfl⟩ := MetaOp.appendChunk.inj h
            have hsame := metaStore_of_dataPhase hop hx
            obtain rfl := Option.some.inj hop
            obtain ⟨hhas, hsound⟩ := hg₁.records.of_readInode hrec
            have hsound := hsound hmode
            have hget : p.metaStore.view.getInode inode = .ok (some rec) := by
              rw [← hsame]
              exact hhas.getInode_eq
            obtain ⟨-, hchunk⟩ := chunkSound_of_prepareAppend hi.handles hget hsound.scheme hx
            have hlays := hsound.lays
            rw [hdata] at hlays
            have happended : appended m (.append inode payload) (.ok .unit) rec.inode = m rec.inode ++ payload := by
              rw [hhas.inode_eq]
              exact Function.update_self ..
            show RecordSound _ _ (appended m (.append inode payload) (.ok .unit) rec.inode)
            rw [happended]
            refine ⟨?_, hsound.scheme, hlays.snoc hchunk⟩
            show size.toNat = _
            rw [hsize, hsound.size_eq, hchunk.len_eq, List.length_append]
          · cases h
          · cases h
  | @beginConvert inode rec hrec hold =>
      obtain ⟨-, hsound⟩ := hg₁.records.of_readInode hrec
      have hsound := hsound (by rw [hold]; simp)
      have hlays := hsound.lays
      rw [hold] at hlays
      cases hh with
      | phase hop hx =>
          exact False.elim (dataPhase_storesData hop hx)
      | beginConvert =>
          -- conversion starts from a chunk log, and keeps it
          refine ⟨hsound.size_eq, hsound.scheme, ?_⟩
          show Lays _ .converting rec.data (m rec.inode)
          generalize rec.data = data at hlays
          generalize m rec.inode = content at hlays
          cases hlays with
          | chunkLog _ hall => exact .chunkLog (by simp) hall
  | completeConvert hrec hold => exact absurd rfl hmode
  | @setRedundancyScheme inode scheme rec hrec =>
      obtain ⟨-, hsound⟩ := hg₁.records.of_readInode hrec
      have hsound := hsound hmode
      cases hh with
      | phase hop hx =>
          exact False.elim (dataPhase_storesData hop hx)
      | setRedundancy => exact ⟨hsound.size_eq, hscheme, hsound.lays⟩
  | updateExtents hrec hold hends => exact absurd hold hmode

/-- The relation where the last operation of a call is handed over. -/
theorem Hands.grown (hh : Hands env w p op mop w₁ p₁) (hg : Grown w p m) (hi : Intact w p) (hscheme : SchemeOk op)
    (hfit : ∀ c ∈ p.metaCalls env w op, c.Fits) : Grown w₁ p₁ m := by
  have halloc : ∀ {id s}, p.metaStore.allocInode = .ok (id, s) → Grown w { p with metaStore := s } m := by
    intro id s h
    obtain ⟨next, -, hs⟩ := Res.bind_eq_ok.mp h
    obtain ⟨-, rfl⟩ := Prod.mk.inj (Res.ok.inj hs)
    exact hg.keep (fun id h hid => retains_refl (w, p) id h hid) rfl
  cases hh with
  | phase hop hx =>
      have hkept := (keepsData_dataPhase hop (w, p) hi.handles).2
      rw [hx] at hkept
      exact hg.keep hkept (by rw [metaStore_of_dataPhase hop hx])
  | beginConvert => exact hg
  | setRedundancy => exact hg
  | unlink => exact hg
  | create ha => exact halloc ha
  | @link parent name redundancy uid gid unixMode now id s _ s₂ ha hcreate =>
      have hcreated : Hands env w p (.createFile parent name redundancy uid gid unixMode now)
          (.createInode (newFile id redundancy uid gid unixMode now)) w { p with metaStore := s } := .create ha
      exact (halloc ha).accept (hi.alloc ha) (hfit _ hcreated.mem_metaCalls) (fun _ => hcreated.chunkCount_eq) hcreate
        (fun _ _ => rfl) (fun rec hstep hmode => hg.recStep hi hscheme hcreated (halloc ha) hstep hmode)

/-- **Step lemma.** Every call of a session, whatever fails and however it ends. -/
theorem Grown.step {res : Res PoolError PoolVal} (hg : Grown w p m) (hi : Intact w p) (hscheme : SchemeOk op)
    (hfit : ∀ c ∈ p.metaCalls env w op, c.Fits) (h : Pool.step env op (w, p) = (res, w', p')) (hres : res ≠ .panic) :
    Grown w' p' (appended m op res) := by
  rcases step_cases h hres with ⟨⟨_, _, _, rfl⟩, rfl, rfl⟩ | ⟨x, e, hop, hx, rfl⟩ |
    ⟨mop, w₁, p₁, q, s', hh, happly, rfl, hcloses⟩
  · exact hg
  · have hkept := (keepsData_dataPhase hop (w, p) hi.handles).2
    rw [hx] at hkept
    rw [appended_err]
    exact hg.keep hkept (by rw [metaStore_of_dataPhase hop hx])
  · have hg₁ := hh.grown hg hi hscheme hfit
    have hi₁ := hh.intact hi hfit
    have hfit₁ := hfit _ hh.mem_metaCalls
    cases hcloses with
    | accepted hne =>
        rw [appended_ok]
        exact hg₁.accept hi₁ hfit₁ (fun _ => hh.chunkCount_eq) happly (fun i hi => hh.appended_eq hi)
          (fun rec hstep hmode => hg.recStep hi hscheme hh hg₁ hstep hmode)
    | refused e =>
        have hview := MetaStore.view_of_refused hi₁.wf.2 happly
        rw [appended_err]
        refine hg₁.keep (retains_applyMeta hi₁.wf hfit₁ happly) ?_
        show s'.view.inodes = p₁.metaStore.view.inodes
        rw [hview]

/-- A new pool has accepted nothing: its one record is the root directory's, and writable. -/
theorem grown_format {w₀ : World} {n : Nat} {classes : List DiskClass} {now : UInt64}
    (h : formatWithClasses env w₀ n classes now = (.ok (), w, some p)) : Grown w p (fun _ => []) := by
  obtain ⟨hn, -, s, happly, rfl, -⟩ := format_eq_ok h
  have hkeys : (freshStore n).view.KeysBelow := by
    intro i hi
    simp [freshStore, View.empty] at hi
  refine ⟨?_, fun _ _ => rfl⟩
  refine (MetaStore.each_apply (P := fun _ _ => False) (Q := fun _ rec => rec.mode ≠ .writable → RecordSound _ rec _)
    (metaWf_open (openStore_createDisks w₀ hn)).2 View.each_empty hkeys happly (by simp) (fun _ _ _ h => h.elim) ?_).1
  intro rec hstep
  cases hstep with
  | createInode =>
      have hscheme : (rootRecord n now).redundancy.Fits := by
        show (List.replicate (min 2 n) _).length < 2 ^ 32
        rw [List.length_replicate]
        omega
      have hdata : (rootRecord n now).data.Fits := ⟨by simp, by simp⟩
      exact ⟨⟨hscheme, hdata⟩, fun _ _ hmode => absurd rfl hmode⟩

/-! ## The record of a file, from call to call -/

/-- The moves of a file's mode. -/
inductive ModeStep : InodeMode → InodeMode → Prop where
  | begin : ModeStep .appendOnly .converting
  | complete : ModeStep .converting .writable

/-- What a call did to the mode of a file: nothing, or the move it is for. -/
inductive Moves (i : InodeId) : PoolOp → Res PoolError PoolVal → InodeMode → InodeMode → Prop where
  | stay {op res mode} : Moves i op res mode mode
  | begin {v} : Moves i (.beginConvert i) (.ok v) .appendOnly .converting
  | complete {v} : Moves i (.completeConvert i) (.ok v) .converting .writable

/-- The record an accepted operation leaves for the file it names. -/
theorem Hands.moves {rec rec' : InodeRecord} {v : PoolVal} (hh : Hands env w p op mop w₁ p₁)
    (hne : ∀ rec, mop ≠ .createInode rec) (ht : mop.target = some i)
    (hrec : p₁.metaStore.view.readInode i = .ok rec) (hstep : p₁.metaStore.view.RecStep mop rec') :
    Moves i op (.ok v) rec.mode rec'.mode := by
  cases hstep with
  | createInode => exact absurd rfl (hne _)
  | appendChunk hold hdata hsize =>
      obtain rfl := Option.some.inj ht
      obtain rfl := Res.ok.inj (hrec.symm.trans hold)
      exact .stay
  | beginConvert hold hmode =>
      obtain rfl := Option.some.inj ht
      obtain rfl := Res.ok.inj (hrec.symm.trans hold)
      cases hh with
      | phase hop hx =>
          exact False.elim (dataPhase_storesData hop hx)
      | beginConvert =>
          rw [hmode]
          exact .begin
  | completeConvert hold hmode =>
      obtain rfl := Option.some.inj ht
      obtain rfl := Res.ok.inj (hrec.symm.trans hold)
      cases hh with
      | phase hop hx =>
          rcases dataPhase_eq_ok hop hx with ⟨_, _, _, -, h⟩ | ⟨_, _, rfl, h⟩ | ⟨_, _, _, _, -, h⟩
          · cases h
          · obtain ⟨rfl, -⟩ := MetaOp.completeConvert.inj h
            rw [hmode]
            exact .complete
          · cases h
  | setRedundancyScheme hold =>
      obtain rfl := Option.some.inj ht
      obtain rfl := Res.ok.inj (hrec.symm.trans hold)
      exact .stay
  | updateExtents hold hmode hends =>
      obtain rfl := Option.some.inj ht
      obtain rfl := Res.ok.inj (hrec.symm.trans hold)
      exact .stay

/-- **Step lemma** of the records: a file that exists goes on existing, and its mode moves only as its conversion does. -/
theorem record_step {res : Res PoolError PoolVal} {rec : InodeRecord} (hi : Intact w p)
    (hfit : ∀ c ∈ p.metaCalls env w op, c.Fits) (h : Pool.step env op (w, p) = (res, w', p')) (hres : res ≠ .panic)
    (hhas : p.metaStore.view.Has i rec) :
    ∃ rec', p'.metaStore.view.Has i rec' ∧ Moves i op res rec.mode rec'.mode := by
  have hhanded : ∀ mop w₁ p₁, Hands env w p op mop w₁ p₁ →
      (∃ Q, p₁.metaStore.view.Each Q) ∧ ∀ rec', p₁.metaStore.view.RecStep mop rec' → rec'.Fits := by
    intro mop w₁ p₁ hh
    have hi₁ := hh.intact hi hfit
    exact ⟨⟨_, hi₁.records⟩, fun rec' => hi₁.fits_of_recStep (hfit _ hh.mem_metaCalls) (fun _ => hh.chunkCount_eq)⟩
  obtain ⟨rec', hhas', rfl | ⟨mop, w₁, p₁, v, hh, rfl, hne, ht, hhas₁, hstep⟩⟩ :=
    record_trace hi.wf hi.keys hhanded h hres hhas
  · exact ⟨rec', hhas', .stay⟩
  · exact ⟨rec', hhas', hh.moves hne ht hhas₁.readInode_eq hstep⟩

/-! ## Reading, before and after a conversion -/

/-- The bytes a read asks for. -/
def window (s : Bytes) (offset len : UInt64) : Bytes := (s.drop offset.toNat).take len.toNat

/-- A read returns its window of the content. -/
theorem read_of_content {rec : InodeRecord} {c : Bytes} (hhas : p.metaStore.view.Has i rec)
    (hc : p.readFullContent w rec = .ok c) (hlen : c.length < 2 ^ 64) (offset len : UInt64) :
    p.read w i offset len = .ok (window c offset len) := by
  have hfind : p.findInode i = .ok rec := by
    unfold findInode getInode MetaStore.getInode
    rw [hhas.getInode_eq]
    rfl
  unfold Pool.read
  rw [hfind, Res.ok_bind, hc, Res.ok_bind]
  show Res.ok _ = Res.ok _
  congr 1
  unfold window
  rw [List.drop_take]
  rcases Nat.le_total offset.toNat c.length with hle | hle
  · rw [Nat.min_eq_left hle]
    have hstop : min (min (offset.toNat + len.toNat) (2 ^ 64 - 1)) c.length - offset.toNat =
        min len.toNat (c.length - offset.toNat) := by omega
    rw [hstop, ← List.length_drop, ← List.take_eq_take_min]
  · rw [List.drop_of_length_le (by omega), List.drop_of_length_le hle]
    simp

/-- The whole of a file can be read. -/
theorem window_injective {c c' : Bytes} (hlen : c.length < 2 ^ 64) (hlen' : c'.length < 2 ^ 64)
    (h : ∀ offset len, window c offset len = window c' offset len) : c = c' := by
  have hall : ∀ s : Bytes, s.length < 2 ^ 64 → window s 0 (UInt64.ofNat (2 ^ 64 - 1)) = s := by
    intro s hs
    show (s.drop 0).take (2 ^ 64 - 1) = s
    rw [List.drop_zero, List.take_of_length_le (by omega)]
  rw [← hall c hlen, ← hall c' hlen', h]

/-- The bytes an extent of length `len() as u32` reaches, and zeros to the recorded size. -/
def narrowed (c : Bytes) : Bytes := c.take (c.length % 2 ^ 32) ++ List.replicate (c.length - c.length % 2 ^ 32) 0

theorem length_narrowed (c : Bytes) : (narrowed c).length = c.length := by
  rw [narrowed, List.length_append, List.length_take, List.length_replicate]
  omega

/-- Nothing is lost exactly if what the length field does not reach is zero. -/
theorem narrowed_eq_iff (c : Bytes) : narrowed c = c ↔ ∀ b ∈ c.drop (c.length % 2 ^ 32), b = 0 := by
  have hsplit : narrowed c = c ↔ List.replicate (c.length - c.length % 2 ^ 32) 0 = c.drop (c.length % 2 ^ 32) := by
    conv_lhs => rhs; rw [← List.take_append_drop (c.length % 2 ^ 32) c]
    exact List.append_right_inj _
  rw [hsplit, eq_comm, List.eq_replicate_iff, List.length_drop]
  exact ⟨fun h => h.2, fun h => ⟨rfl, h⟩⟩

/-- **A converted file reads as its content, cut to what the extent's length field holds and padded with zeros.** -/
theorem readFullContent_completed {rec : InodeRecord} {c : Bytes} {v : PoolVal} (hi : Intact w p)
    (hfit : ∀ c ∈ p.metaCalls env w (.completeConvert i), c.Fits) (hhas : p.metaStore.view.Has i rec)
    (hsound : RecordSound (w, p) rec c) (h : Pool.step env (.completeConvert i) (w, p) = (.ok v, w', p')) :
    ∃ rec', p'.metaStore.view.Has i rec' ∧ rec'.mode = .writable ∧ p'.readFullContent w' rec' = .ok (narrowed c) := by
  rcases step_cases h (by simp) with ⟨⟨_, _, _, hop⟩, -⟩ | ⟨x, e, -, -, he⟩ |
    ⟨mop, w₁, p₁, q, s', hh, happly, rfl, hcloses⟩
  · cases hop
  · cases he
  have hfit₁ := hfit _ hh.mem_metaCalls
  have hi₁ := hh.intact hi hfit
  have hempty : ∀ rec, mop = .createInode rec → rec.chunkCount = 0 := fun _ => hh.chunkCount_eq
  cases hcloses with
  | accepted hne =>
      obtain ⟨-, hu⟩ := MetaStore.apply_eq_ok hi₁.wf.2 happly
      have hret := retains_applyMeta hi₁.wf hfit₁ happly
      cases hh with
      | phase hop hx =>
          have hsame := metaStore_of_dataPhase hop hx
          obtain rfl := Option.some.inj hop
          obtain ⟨redundancy, content, hplan, hend⟩ := prepareExtents_stores hi.handles hx
          obtain ⟨old, hfind, rfl, hmode, hread⟩ := planCompleteConvert_eq_ok hplan
          obtain rfl := Option.some.inj (Res.ok.inj (hhas.getInode_eq.symm.trans (findInode_eq_ok hfind)))
          obtain rfl := Res.ok.inj ((readFullContent_of_sound hsound).symm.trans hread)
          -- the record the table then holds
          have hrecord : ∀ xs, mop = .completeConvert i xs → ∃ rec', s'.view.Has i rec' ∧ rec'.mode = .writable ∧
              rec'.size = rec.size ∧ rec'.data = .extents xs := by
            rintro xs rfl
            obtain ⟨rec', hstep, hhas'⟩ := View.has_applyLocally hi₁.records hu (i := i) rfl
              (fun rec => hi₁.fits_of_recStep hfit₁ hempty)
            cases hstep with
            | completeConvert hold _ =>
                rw [hsame, hhas.readInode_eq] at hold
                obtain rfl := Res.ok.inj hold
                exact ⟨_, hhas', rfl, rfl, rfl⟩
          rcases hend with ⟨rfl, hmop⟩ | ⟨hne, ids, replicas, hplace, hids, hstored, hmop⟩
          · obtain ⟨rec', hhas', hmode', hsize, hdata⟩ := hrecord _ hmop
            refine ⟨rec', hhas', hmode', ?_⟩
            unfold readFullContent
            rw [hdata, hsize, hsound.size_eq]
            rfl
          · obtain ⟨rec', hhas', hmode', hsize, hdata⟩ := hrecord _ hmop
            refine ⟨rec', hhas', hmode', ?_⟩
            have hnonempty := (replicas_of_place hsound.scheme hplace hids hstored).nonempty
            have hle : c.length % 2 ^ 32 ≤ rec'.size.toNat := by
              rw [hsize, hsound.size_eq]
              exact Nat.mod_le _ _
            rw [readFullContent_extent hdata hle hnonempty (fun r hr => (hstored r hr).mono hret), hsize, hsound.size_eq]
            rfl

end Pool

end Tartine
