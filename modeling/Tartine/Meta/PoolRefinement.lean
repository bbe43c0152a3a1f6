import Tartine.Meta.PoolContent

/-!
# `Meta.PoolRefinement` — a pool is a map from inodes to byte strings

`Files` is what a pool is for: each inode has a byte string, which `append` extends and `write` overwrites, and which
nothing else changes. `Sound w p m` connects it to the pool: every inode of `m` has a record in the table, and every
record describes the string `m` has for it (`RecordSound`).

* `Sound.accept`, `Sound.reject`, `Sound.retain` — one metadata operation, accepted or refused, and one data phase;
* `Sound.step` — so every operation keeps the relation, with `Files.after` on the abstract side;
* `read_refines` — and in every state of a session `read` returns the bytes of the abstract string.
-/

namespace Tartine

open Basis

/-! ## The abstract map -/

/-- Files as their users know them. -/
abbrev Files := InodeId → Option Bytes

/-- A write: zero-extend to the offset, then overwrite. -/
def overwrite (s : Bytes) (off : Nat) (data : Bytes) : Bytes :=
  let padded := s ++ List.replicate (off - s.length) 0
  padded.take off ++ data ++ padded.drop (off + data.length)

/-- What an operation that returned `res` means for the files. -/
def Files.after (m : Files) : PoolOp → Res PoolError PoolVal → Files
  | .createFile .., .ok (.inode id)  => Function.update m id (some [])
  | .append inode payload, .ok _     => Function.update m inode ((m inode).map (· ++ payload))
  | .write inode offset data, .ok _  => Function.update m inode ((m inode).map (overwrite · offset.toNat data))
  | _, _                             => m

/-- Every file is below `2^32` bytes. -/
def Files.Small (m : Files) : Prop := ∀ i s, m i = some s → s.length < 2 ^ 32

namespace Pool

/-- The files after an event. A new pool has its root and nothing in it. -/
def filesStep (m : Files) : Event → Files
  | .format ..           => fun i => if i = rootInode then some [] else none
  | .call _ _ _ op res   => m.after op res
  | .reopen _            => m

/-- The files after a run. -/
def filesOf (events : List Event) : Files := events.foldl filesStep (fun _ => none)

theorem filesOf_snoc (events : List Event) (e : Event) : filesOf (events ++ [e]) = filesStep (filesOf events) e := by
  simp [filesOf]

theorem copyInto_eq_ok {out r : Bytes} {start : Nat} {bytes : Bytes} (h : copyInto out start bytes = .ok r) :
    r = out.take start ++ bytes ++ out.drop (start + bytes.length) := by
  unfold copyInto at h
  split at h
  · exact (Res.ok.inj h).symm
  · cases h

/-- What the code computes for a write is the abstract write. -/
theorem copyInto_eq_overwrite {content : Bytes} {off : Nat} {data out : Bytes}
    (h : copyInto (if content.length < off + data.length then
      content ++ List.replicate (off + data.length - content.length) 0 else content) off data = .ok out) :
    out = overwrite content off data := by
  rw [copyInto_eq_ok h]
  unfold overwrite
  dsimp only
  split
  · -- both paddings agree below the offset, and nothing is left past the data
    rename_i hgrow
    rw [List.take_append, List.take_append, List.take_replicate, List.take_replicate,
      List.drop_of_length_le (by simp; omega), List.drop_of_length_le (by simp; omega)]
    congr 4
    omega
  · rename_i hroom
    rw [show off - content.length = 0 by omega, List.replicate_zero, List.append_nil]

theorem length_overwrite (s : Bytes) (off : Nat) (data : Bytes) :
    (overwrite s off data).length = max s.length (off + data.length) := by
  unfold overwrite
  simp only [List.length_append, List.length_take, List.length_drop, List.length_replicate]
  omega

/-- The copy of a write always fits: the content was made long enough for it. -/
theorem copyInto_grown (content : Bytes) (off : Nat) (data : Bytes) :
    copyInto (if content.length < off + data.length then
      content ++ List.replicate (off + data.length - content.length) 0 else content) off data =
        .ok (overwrite content off data) := by
  have hfits : off + data.length ≤ (if content.length < off + data.length then
      content ++ List.replicate (off + data.length - content.length) 0 else content).length := by
    split
    · rw [List.length_append, List.length_replicate]
      omega
    · omega
  have hcopy : ∃ out, copyInto (if content.length < off + data.length then
      content ++ List.replicate (off + data.length - content.length) 0 else content) off data = .ok out :=
    ⟨_, if_pos hfits⟩
  obtain ⟨out, hout⟩ := hcopy
  rw [hout, copyInto_eq_overwrite hout]

/-- A write that ends at `stop` makes a file of `size` bytes longer than a vector, or its end overflows. -/
def EndOverflows (size stop : Nat) : Prop := 2 ^ 64 ≤ stop ∨ (size < stop ∧ 2 ^ 63 ≤ stop)

instance (size stop : Nat) : Decidable (EndOverflows size stop) := inferInstanceAs (Decidable (_ ∨ _))

theorem not_endOverflows {size stop : Nat} (h : stop < 2 ^ 63) : ¬EndOverflows size stop := by
  rintro (hstop | ⟨-, hstop⟩)
  · omega
  · omega

/-- **What a write plans to store**: the content overwritten, unless the end of the write overflows. -/
theorem planWrite_of_content {w : World} {p : Pool} {inode : InodeId} {rec : InodeRecord} {content : Bytes}
    (hfind : p.findInode inode = .ok rec) (hmode : rec.mode = .writable) (hread : p.readFullContent w rec = .ok content)
    (offset : UInt64) (data : Bytes) :
    p.planWrite w inode offset data =
      if EndOverflows content.length (offset.toNat + data.length) then .panic
      else .ok (rec.redundancy, overwrite content offset.toNat data) := by
  unfold planWrite
  rw [hfind, Res.ok_bind, if_neg (by simp [hmode]), hread, Res.ok_bind]
  dsimp only
  by_cases hover : EndOverflows content.length (offset.toNat + data.length)
  · rw [if_pos hover]
    rcases hover with hstop | hlong
    · rw [if_pos hstop]
    · rw [if_pos hlong, ite_self]
  · rw [if_neg hover, if_neg (fun hstop => hover (Or.inl hstop)), if_neg (fun hlong => hover (Or.inr hlong)), copyInto_grown,
      Res.ok_bind]
    rfl

theorem planWrite_eq_overwrite {w : World} {p : Pool} {inode : InodeId} {offset : UInt64} {data stored : Bytes}
    {redundancy : RedundancyScheme} (h : p.planWrite w inode offset data = .ok (redundancy, stored)) :
    ∃ rec content, p.findInode inode = .ok rec ∧ redundancy = rec.redundancy ∧ p.readFullContent w rec = .ok content ∧
      stored = overwrite content offset.toNat data := by
  obtain ⟨rec, hfind, -, hmode, content, hread⟩ := planWrite_eq_ok h
  rw [planWrite_of_content hfind hmode hread] at h
  split at h
  · cases h
  · obtain ⟨rfl, rfl⟩ := Prod.mk.inj (Res.ok.inj h)
    exact ⟨rec, content, hfind, rfl, hread, rfl⟩

/-! ## The relation -/

/-- A record describes the file `m` has under its number. Every chunk was logged, so there are fewer of them than bytes
    of log: that is what keeps the record's encoding readable. -/
def Describes (a : World × Pool) (m : Files) (rec : InodeRecord) : Prop :=
  ∃ content, m rec.inode = some content ∧ RecordSound a rec content ∧ rec.chunkCount ≤ a.2.metaStore.walCursor

/-- **The refinement relation** between a pool and the files it stands for. -/
structure Sound (w : World) (p : Pool) (m : Files) : Prop where
  wf : MetaWf p.metaStore
  handles : HandlesOk p
  records : p.metaStore.view.Each (Describes (w, p) m)
  keys : p.metaStore.view.KeysBelow
  present : ∀ i, (m i).isSome → (p.metaStore.view.inodes[i]?).isSome

variable {env : Env} {w w' : World} {p p' : Pool} {s' : MetaStore} {m m' : Files} {op : MetaOp}

theorem Describes.mono {rec : InodeRecord} (h : Describes (w, p) m rec) (hret : Retains (w, p) (w', p'))
    (hcur : p.metaStore.walCursor ≤ p'.metaStore.walCursor) (hm : m' rec.inode = m rec.inode) :
    Describes (w', p') m' rec := by
  obtain ⟨content, hcontent, hsound, hcount⟩ := h
  exact ⟨content, hm.trans hcontent, hsound.mono hret, Nat.le_trans hcount hcur⟩

/-- The record the relation finds for an inode. -/
theorem Sound.find {i : InodeId} {content : Bytes} (hs : Sound w p m) (hi : m i = some content) :
    ∃ rec, p.metaStore.view.Has i rec ∧ RecordSound (w, p) rec content := by
  obtain ⟨bytes, hentry⟩ := Option.isSome_iff_exists.mp (hs.present i (by rw [hi]; rfl))
  obtain ⟨rec, hhas, content', hm, hsound, -⟩ := hs.records i bytes hentry
  rw [hhas.inode_eq, hi] at hm
  obtain rfl := Option.some.inj hm
  exact ⟨rec, hhas, hsound⟩

/-- A data phase leaves the files as they were. -/
theorem Sound.retain (hs : Sound w p m) (hok : HandlesOk p') (hret : Retains (w, p) (w', p'))
    (hsame : p'.metaStore = p.metaStore) : Sound w' p' m := by
  refine ⟨by rw [hsame]; exact hs.wf, hok, ?_, by rw [hsame]; exact hs.keys, by rw [hsame]; exact hs.present⟩
  rw [hsame]
  exact hs.records.mono (fun rec h => h.mono hret (by rw [hsame]) rfl)

/-- A refused metadata operation leaves the files as they were, wherever it was refused. -/
theorem Sound.reject {e : MetaStoreError} (hs : Sound w p m)
    (hfit : p.metaStore.walCursor + (MetaStore.opFrame env.ord op).length ≤ Wal.walCapacityBytes)
    (h : p.metaStore.apply env w op = (.err e, w', s')) : Sound w' { p with metaStore := s' } m := by
  have hret := retains_applyMeta hs.wf hfit h
  obtain ⟨hview, hcur⟩ : s'.view = p.metaStore.view ∧ p.metaStore.walCursor ≤ s'.walCursor := by
    rcases MetaStore.apply_primary hs.wf.2 h (by simp) with ⟨hlog, ⟨u, -, hu, -⟩ | ⟨e', -, -, hview⟩⟩ | ⟨-, rfl, -⟩
    · cases hu
    · exact ⟨hview, by rw [hlog.cursor_eq]; exact Nat.le_add_right _ _⟩
    · exact ⟨rfl, Nat.le_refl _⟩
  refine ⟨hs.wf.apply h, hs.handles, ?_, ?_, ?_⟩
  · show s'.view.Each _
    rw [hview]
    exact hs.records.mono (fun rec hrec => hrec.mono hret hcur rfl)
  · show s'.view.KeysBelow
    rw [hview]
    exact hs.keys
  · show ∀ i, (m i).isSome → (s'.view.inodes[i]?).isSome
    rw [hview]
    exact hs.present

/-- **An accepted metadata operation** changes the files to `m'` if the record it stores describes `m'`, and `m'`
    differs from `m` only there. -/
theorem Sound.accept (hs : Sound w p m)
    (hfit : p.metaStore.walCursor + (MetaStore.opFrame env.ord op).length ≤ Wal.walCapacityBytes)
    (h : p.metaStore.apply env w op = (.ok (), w', s')) (hother : ∀ i, op.target ≠ some i → m' i = m i)
    (hdom : ∀ i, (m' i).isSome → (m i).isSome ∨ ∃ rec, op = .createInode rec ∧ rec.inode = i)
    (hnew : ∀ rec, p.metaStore.view.RecStep op rec → rec.Fits ∧ ∃ content, m' rec.inode = some content ∧
      RecordSound (w, p) rec content ∧ rec.chunkCount ≤ p.metaStore.walCursor + 1) :
    Sound w' { p with metaStore := s' } m' := by
  have hret := retains_applyMeta hs.wf hfit h
  obtain ⟨hlog, hu⟩ := MetaStore.apply_eq_ok hs.wf.2 h
  have hcur : p.metaStore.walCursor + 1 ≤ s'.walCursor := by
    rw [hlog.cursor_eq, MetaStore.opFrame, Wal.length_buildFrame]
    unfold Wal.headerLen
    omega
  refine ⟨hs.wf.apply h, hs.handles, ?_, hs.keys.applyLocally hs.records hu, ?_⟩
  · refine hs.records.applyLocally hu ?_ ?_
    · intro rec hrec htarget
      exact hrec.mono hret (by show _ ≤ s'.walCursor; omega) (hother _ htarget)
    · intro rec hstep
      obtain ⟨hfits, content, hm, hsound, hcount⟩ := hnew rec hstep
      exact ⟨hfits, content, hm, hsound.mono hret, Nat.le_trans hcount hcur⟩
  · intro i hi
    rcases hdom i hi with hold | ⟨rec, rfl, rfl⟩
    · exact View.isSome_applyLocally hu (hs.present i hold)
    · exact View.isSome_createInode hu

/-! ## Metadata operations and two-phase operations -/

/-- How an operation may end: refused, with the files as they were, or done, with the files `m'`. -/
def Ends (r : Res PoolError Unit) (w : World) (p : Pool) (m m' : Files) : Prop :=
  (∃ e, r = .err e ∧ Sound w p m) ∨ (r = .ok () ∧ Sound w p m')

/-- What a metadata step leaves to prove: only that it was accepted is of interest. -/
theorem Sound.applyMeta_cases {r : Res PoolError Unit} (hs : Sound w p m)
    (hfit : p.metaStore.walCursor + (MetaStore.opFrame env.ord op).length ≤ Wal.walCapacityBytes)
    (h : applyMeta env op (w, p) = (r, w', p')) (hr : r ≠ .panic) :
    (∃ e, r = .err e ∧ Sound w' p' m) ∨
      (r = .ok () ∧ ∃ s', p.metaStore.apply env w op = (.ok (), w', s') ∧ p' = { p with metaStore := s' }) := by
  obtain ⟨q, s', happly, rfl, rfl⟩ := Pool.applyMeta_cases h
  cases q with
  | ok u => exact Or.inr ⟨rfl, s', happly, rfl⟩
  | err e => exact Or.inl ⟨_, rfl, hs.reject hfit happly⟩
  | panic => exact absurd rfl hr

/-- A metadata operation by itself. -/
theorem Sound.applyMeta {r : Res PoolError Unit} (hs : Sound w p m)
    (hfit : p.metaStore.walCursor + (MetaStore.opFrame env.ord op).length ≤ Wal.walCapacityBytes)
    (h : Pool.applyMeta env op (w, p) = (r, w', p')) (hr : r ≠ .panic)
    (hnew : ∀ rec, p.metaStore.view.RecStep op rec → rec.Fits ∧ ∃ content, m rec.inode = some content ∧
      RecordSound (w, p) rec content ∧ rec.chunkCount ≤ p.metaStore.walCursor + 1) : Ends r w' p' m m := by
  rcases hs.applyMeta_cases hfit h hr with herr | ⟨rfl, s', happly, rfl⟩
  · exact Or.inl herr
  · exact Or.inr ⟨rfl, hs.accept hfit happly (fun _ _ => rfl) (fun _ hi => Or.inl hi) hnew⟩

/-- **The two phases of an operation.** Refused in either, it leaves the files as they were. -/
theorem Sound.twoPhase {x : PoolM MetaOp} {r : Res PoolError Unit} (hs : Sound w p m)
    (hdata : Action.Keeps KeepsData x) (hstore : Action.Keeps SameStore x)
    (hfit : ∀ c ∈ callAfter env (x (w, p)), c.Fits) (h : (x >>= Pool.applyMeta env) (w, p) = (r, w', p'))
    (hr : r ≠ .panic) :
    (∃ e, r = .err e ∧ Sound w' p' m) ∨
      ∃ op w₁ p₁ s', x (w, p) = (.ok op, w₁, p₁) ∧ Sound w₁ p₁ m ∧
        p₁.metaStore.walCursor + (MetaStore.opFrame env.ord op).length ≤ Wal.walCapacityBytes ∧
        r = .ok () ∧ p₁.metaStore.apply env w₁ op = (.ok (), w', s') ∧ p' = { p₁ with metaStore := s' } := by
  have hsound : Sound (x (w, p)).2.1 (x (w, p)).2.2 m :=
    hs.retain (hdata (w, p) hs.handles).1 (hdata (w, p) hs.handles).2 (hstore (w, p))
  rcases Action.bind_cases h with ⟨op, ⟨w₁, p₁⟩, hx, happly⟩ | ⟨e, hx, rfl⟩ | ⟨-, rfl⟩
  · rw [hx] at hsound hfit
    have hfit' : p₁.metaStore.walCursor + (MetaStore.opFrame env.ord op).length ≤ Wal.walCapacityBytes :=
      hfit ⟨env, w₁, p₁.metaStore, op⟩ (List.mem_singleton.mpr rfl)
    rcases hsound.applyMeta_cases hfit' happly hr with herr | ⟨rfl, s', hok, rfl⟩
    · exact Or.inl herr
    · exact Or.inr ⟨op, w₁, p₁, s', hx, hsound, hfit', rfl, hok, rfl⟩
  · rw [hx] at hsound
    exact Or.inl ⟨e, rfl, hsound⟩
  · exact absurd rfl hr

/-! ## The operations, one by one -/

/-- The files after one of them changed. -/
theorem update_dom {inode : InodeId} {content : Bytes} {x : Option Bytes} (hm : m inode = some content) (i : InodeId)
    (hi : (Function.update m inode x i).isSome) : (m i).isSome := by
  by_cases h : i = inode
  · rw [h, hm]
    rfl
  · rwa [Function.update_of_ne h] at hi

/-- The log is shorter than `2^32` bytes, and so is every list that was logged element by element. -/
theorem chunks_lt {n : Nat} (hcur : p.metaStore.walCursor + n ≤ Wal.walCapacityBytes) {k : Nat}
    (hk : k ≤ p.metaStore.walCursor) : k + 1 < 2 ^ 32 := by
  have := Wal.walCapacityBytes_lt
  omega

/-- `append` appends. -/
theorem Sound.append {inode : InodeId} {payload : Bytes} {r : Res PoolError Unit} (hs : Sound w p m)
    (hfit : ∀ c ∈ callAfter env (prepareAppend env inode payload (w, p)), c.Fits)
    (hsmall : r = .ok () → (m.after (.append inode payload) (.ok .unit)).Small)
    (h : Pool.append env inode payload (w, p) = (r, w', p')) (hr : r ≠ .panic) :
    Ends r w' p' m (m.after (.append inode payload) (.ok .unit)) := by
  rcases hs.twoPhase (keepsData_prepareAppend inode payload) (keeps_prepareAppend inode payload) hfit h hr with
    herr | ⟨op, w₁, p₁, s', hprep, hs₁, hfit₁, rfl, happly, rfl⟩
  · exact Or.inl herr
  obtain ⟨rec, chunk, hget, rfl, hlen, -, hrep⟩ := prepareAppend_eq_ok hs.handles hprep
  obtain ⟨hhas, content, hm, hsound, -⟩ := hs.records.of_getInode hget
  rw [hhas.inode_eq] at hm
  have hafter : m.after (.append inode payload) (.ok .unit) = Function.update m inode (some (content ++ payload)) := by
    show Function.update m inode ((m inode).map (· ++ payload)) = _
    rw [hm]
    rfl
  have hpay : payload.length < 2 ^ 32 := by
    have := hsmall rfl inode (content ++ payload) (by rw [hafter, Function.update_self])
    rw [List.length_append] at this
    omega
  have hchunk : ChunkSound (w₁, p₁) chunk payload :=
    ⟨by rw [hlen, UInt32.toNat_ofNat', Nat.mod_eq_of_lt hpay], hrep hsound.scheme⟩
  rw [hafter]
  refine Or.inr ⟨rfl, hs₁.accept hfit₁ happly ?_ (fun i hi => Or.inl (update_dom hm i hi)) ?_⟩
  · intro i hi
    exact Function.update_of_ne (fun h => hi (congrArg some h.symm)) _ _
  · intro rec' hstep
    cases hstep with
    | @appendChunk _ _ old chunks size hrec hdata hsize =>
        obtain ⟨hhas', content', hm', hsound', hcount⟩ := hs₁.records.of_readInode hrec
        rw [hhas'.inode_eq, hm] at hm'
        obtain rfl := Option.some.inj hm'
        have hlays := hsound'.lays
        have hfits := hhas'.fits.2
        rw [hdata] at hlays hfits
        rw [InodeRecord.chunkCount, hdata] at hcount
        refine ⟨⟨hhas'.fits.1, ?_, ?_⟩, content ++ payload, ?_, ⟨?_, hsound'.scheme, hlays.snoc hchunk⟩, ?_⟩
        · rw [List.length_append]
          exact chunks_lt hfit₁ hcount
        · intro c hc
          rcases List.mem_append.mp hc with hold | hnew
          · exact hfits.2 c hold
          · obtain rfl := List.mem_singleton.mp hnew
            exact Nat.lt_of_le_of_lt hchunk.replicas.few (by decide)
        · show Function.update m inode (some (content ++ payload)) old.inode = _
          rw [hhas'.inode_eq, Function.update_self]
        · show size.toNat = _
          rw [hsize, hsound'.size_eq, hchunk.len_eq, List.length_append]
        · show (chunks ++ [chunk]).length ≤ _
          rw [List.length_append]
          exact Nat.add_le_add_right hcount 1

/-- A rewrite stores the planned content as the whole file: the two operations differ in what they plan, and in what
    the record says about the size. -/
theorem Sound.rewrite {inode : InodeId} {plan : World → Pool → Res PoolError (RedundancyScheme × Bytes)}
    {mkOp : List Extent → MetaOp} {r : Res PoolError Unit} {m' : Files} (hs : Sound w p m)
    (hfit : ∀ c ∈ callAfter env (prepareExtents env inode plan mkOp (w, p)), c.Fits)
    (h : (prepareExtents env inode plan mkOp >>= Pool.applyMeta env) (w, p) = (r, w', p')) (hr : r ≠ .panic)
    (htarget : ∀ xs, (mkOp xs).target = some inode)
    (hplan : ∀ redundancy content', r = .ok () → plan w p = .ok (redundancy, content') → ∃ content,
      m inode = some content ∧ redundancy.Placeable ∧ content'.length < 2 ^ 32 ∧
      m' = Function.update m inode (some content') ∧
      ∀ (a : World × Pool) (v : View) xs rec', ExtentsSound a xs content' → v.RecStep (mkOp xs) rec' →
        ∃ rec, v.readInode inode = .ok rec ∧ rec'.inode = rec.inode ∧ rec'.mode = .writable ∧
          rec'.redundancy = rec.redundancy ∧ rec'.data = .extents xs ∧
          (rec.size.toNat = content.length → rec'.size.toNat = content'.length)) :
    Ends r w' p' m m' := by
  rcases hs.twoPhase (keepsData_prepareExtents inode plan mkOp) (keeps_prepareExtents inode plan mkOp) hfit h hr with
    herr | ⟨op, w₁, p₁, s', hprep, hs₁, hfit₁, rfl, happly, rfl⟩
  · exact Or.inl herr
  obtain ⟨redundancy, content', xs, hplanned, rfl, hextents⟩ := prepareExtents_eq_ok hs.handles hprep
  obtain ⟨content, hm, hscheme, hsmall, rfl, hrecord⟩ := hplan redundancy content' rfl hplanned
  have hxs := hextents hscheme hsmall
  refine Or.inr ⟨rfl, hs₁.accept hfit₁ happly ?_ (fun i hi => Or.inl (update_dom hm i hi)) ?_⟩
  · intro i hi
    rw [htarget] at hi
    exact Function.update_of_ne (fun h => hi (congrArg some h.symm)) _ _
  · intro rec' hstep
    obtain ⟨rec, hrec, hinode, hmode, hred, hdata, hsize⟩ := hrecord _ _ _ _ hxs hstep
    obtain ⟨hhas, content₀, hm₀, hsound, -⟩ := hs₁.records.of_readInode hrec
    rw [hhas.inode_eq, hm] at hm₀
    obtain rfl := Option.some.inj hm₀
    have hfits : rec'.Fits := ⟨by rw [hred]; exact hhas.fits.1, by rw [hdata]; exact hxs.fits⟩
    refine ⟨hfits, content', ?_, ⟨hsize hsound.size_eq, ?_, ?_⟩, ?_⟩
    · rw [hinode, hhas.inode_eq, Function.update_self]
    · rw [hred]
      exact hsound.scheme
    · rw [hmode, hdata]
      exact .extents hxs
    · rw [InodeRecord.chunkCount, hdata]
      exact Nat.zero_le _

/-- What `findInode` and `readFullContent` return for a file of the relation. -/
theorem Sound.readFullContent {inode : InodeId} {rec : InodeRecord} {content' : Bytes} (hs : Sound w p m)
    (hfind : p.findInode inode = .ok rec) (hread : p.readFullContent w rec = .ok content') :
    m inode = some content' ∧ rec.redundancy.Placeable := by
  obtain ⟨hhas, content, hm, hsound, -⟩ := hs.records.of_getInode (findInode_eq_ok hfind)
  rw [readFullContent_of_sound hsound] at hread
  obtain rfl := Res.ok.inj hread
  rw [hhas.inode_eq] at hm
  exact ⟨hm, hsound.scheme⟩

/-- `complete_convert` changes no content. -/
theorem Sound.completeConvert {inode : InodeId} {r : Res PoolError Unit} (hs : Sound w p m) (hsmall : m.Small)
    (hfit : ∀ c ∈ callAfter env (prepareCompleteConvert env inode (w, p)), c.Fits)
    (h : Pool.completeConvert env inode (w, p) = (r, w', p')) (hr : r ≠ .panic) : Ends r w' p' m m := by
  refine hs.rewrite hfit h hr (fun _ => rfl) ?_
  intro redundancy content' _ hplan
  obtain ⟨rec, hfind, rfl, -, hread⟩ := planCompleteConvert_eq_ok hplan
  obtain ⟨hm, hscheme⟩ := hs.readFullContent hfind hread
  refine ⟨content', hm, hscheme, hsmall inode content' hm, ?_, ?_⟩
  · rw [← hm, Function.update_eq_self]
  · intro a v xs rec' hxs hstep
    cases hstep with
    | completeConvert hrec hmode => exact ⟨_, hrec, rfl, rfl, rfl, rfl, id⟩

/-- `write` overwrites. -/
theorem Sound.write {inode : InodeId} {offset : UInt64} {data : Bytes} {r : Res PoolError Unit} (hs : Sound w p m)
    (hsmall : r = .ok () → (m.after (.write inode offset data) (.ok .unit)).Small)
    (hfit : ∀ c ∈ callAfter env (prepareWrite env inode offset data (w, p)), c.Fits)
    (h : Pool.write env inode offset data (w, p) = (r, w', p')) (hr : r ≠ .panic) :
    Ends r w' p' m (m.after (.write inode offset data) (.ok .unit)) := by
  refine hs.rewrite hfit h hr (fun _ => rfl) ?_
  intro redundancy content' hok hplan
  obtain ⟨rec, content, hfind, rfl, hread, rfl⟩ := planWrite_eq_overwrite hplan
  obtain ⟨hm, hscheme⟩ := hs.readFullContent hfind hread
  have hafter : m.after (.write inode offset data) (.ok .unit) =
      Function.update m inode (some (overwrite content offset.toNat data)) := by
    show Function.update m inode ((m inode).map (overwrite · offset.toNat data)) = _
    rw [hm]
    rfl
  refine ⟨content, hm, hscheme, ?_, hafter, ?_⟩
  · exact hsmall hok inode _ (by rw [hafter, Function.update_self])
  · intro a v xs rec' hxs hstep
    cases hstep with
    | updateExtents hrec hmode hends =>
        exact ⟨_, hrec, rfl, hmode, rfl, rfl, fun _ => hxs.size_eq hends⟩

/-- `begin_convert` changes no content. -/
theorem Sound.beginConvert {inode : InodeId} {r : Res PoolError Unit} (hs : Sound w p m)
    (hfit : p.metaStore.walCursor + (MetaStore.opFrame env.ord (.beginConvert inode)).length ≤ Wal.walCapacityBytes)
    (h : Pool.beginConvert env inode (w, p) = (r, w', p')) (hr : r ≠ .panic) : Ends r w' p' m m := by
  refine hs.applyMeta hfit h hr ?_
  intro rec' hstep
  cases hstep with
  | @beginConvert _ rec hrec hmode =>
      obtain ⟨hhas, content, hm, hsound, hcount⟩ := hs.records.of_readInode hrec
      refine ⟨hhas.fits, content, hm, ⟨hsound.size_eq, hsound.scheme, ?_⟩, Nat.le_succ_of_le hcount⟩
      -- conversion starts from a chunk log, and keeps it
      have hlays := hsound.lays
      rw [hmode] at hlays
      show Lays (w, p) .converting rec.data content
      generalize rec.data = data at hlays
      cases hlays with
      | chunkLog _ hall => exact .chunkLog (by simp) hall

/-- `set_redundancy` changes no content. -/
theorem Sound.setRedundancy {inode : InodeId} {scheme : RedundancyScheme} {r : Res PoolError Unit} (hs : Sound w p m)
    (hscheme : scheme.Placeable)
    (hfit : p.metaStore.walCursor + (MetaStore.opFrame env.ord (.setRedundancyScheme inode scheme)).length ≤
      Wal.walCapacityBytes)
    (h : Pool.setRedundancy env inode scheme (w, p) = (r, w', p')) (hr : r ≠ .panic) : Ends r w' p' m m := by
  refine hs.applyMeta hfit h hr ?_
  intro rec' hstep
  cases hstep with
  | @setRedundancyScheme _ _ rec hrec =>
      obtain ⟨hhas, content, hm, hsound, hcount⟩ := hs.records.of_readInode hrec
      exact ⟨⟨hscheme.fits, hhas.fits.2⟩, content, hm, ⟨hsound.size_eq, hscheme, hsound.lays⟩,
        Nat.le_succ_of_le hcount⟩

/-- `unlink` changes no content. -/
theorem Sound.unlink {parent : InodeId} {name : String} {r : Res PoolError Unit} (hs : Sound w p m)
    (hfit : p.metaStore.walCursor + (MetaStore.opFrame env.ord (.unlink parent name)).length ≤ Wal.walCapacityBytes)
    (h : Pool.unlink env parent name (w, p) = (r, w', p')) (hr : r ≠ .panic) : Ends r w' p' m m := by
  refine hs.applyMeta hfit h hr ?_
  intro rec' hstep
  cases hstep

/-- The record of a new, empty file. -/
theorem Sound.create {rec : InodeRecord} (hs : Sound w p m) (hscheme : rec.redundancy.Placeable) (hsize : rec.size = 0)
    (hlays : ∀ a, Lays a rec.mode rec.data []) (hcount : rec.chunkCount = 0) (hfits : rec.data.Fits)
    (hfit : p.metaStore.walCursor + (MetaStore.opFrame env.ord (.createInode rec)).length ≤ Wal.walCapacityBytes)
    (h : p.metaStore.apply env w (.createInode rec) = (.ok (), w', s')) :
    Sound w' { p with metaStore := s' } (Function.update m rec.inode (some [])) := by
  refine hs.accept hfit h ?_ ?_ ?_
  · intro i hi
    exact Function.update_of_ne (fun h => hi (congrArg some h.symm)) _ _
  · intro i hi
    by_cases hrec : rec.inode = i
    · exact Or.inr ⟨rec, rfl, hrec⟩
    · exact Or.inl (by rwa [Function.update_of_ne (fun h => hrec h.symm)] at hi)
  · intro rec' hstep
    cases hstep with
    | createInode =>
        exact ⟨⟨hscheme.fits, hfits⟩, [], Function.update_self .., ⟨by rw [hsize]; rfl, hscheme, hlays _⟩, by omega⟩

/-- Handing out an inode number changes no file. -/
theorem Sound.allocInode {id : InodeId} (hs : Sound w p m) (h : p.metaStore.allocInode = .ok (id, s')) :
    Sound w { p with metaStore := s' } m := by
  obtain ⟨next, hadd, hs'⟩ := Res.bind_eq_ok.mp h
  obtain ⟨rfl, rfl⟩ := Prod.mk.inj (Res.ok.inj hs')
  refine ⟨hs.wf, hs.handles, ?_, ?_, hs.present⟩
  · refine View.Each.of_inodes_eq (v := p.metaStore.view) ?_ rfl
    exact hs.records.mono (fun rec hrec => hrec.mono (fun id h hid => retains_refl (w, p) id h hid) (Nat.le_refl _) rfl)
  · intro i hi
    have hnext := Res.checkedAdd_eq_ok.mp hadd
    exact Nat.lt_of_lt_of_le (hs.keys i hi) (by show _ ≤ next.toNat; omega)

/-- On healthy disks a link is always accepted, and changes no file. -/
theorem Sound.link {ord : IterOrder} {parent : InodeId} {name : String} {child : InodeId} {r : Res PoolError Unit}
    (hs : Sound w p m)
    (hfit : p.metaStore.walCursor + (MetaStore.opFrame (Env.healthy ord).ord (.link parent name child)).length ≤
      Wal.walCapacityBytes)
    (h : Pool.applyMeta (Env.healthy ord) (.link parent name child) (w, p) = (r, w', p')) :
    r = .ok () ∧ Sound w' p' m := by
  have hview : p.metaStore.view.applyLocally (.link parent name child) =
      .ok { p.metaStore.view with dirs := p.metaStore.view.dirs.insert (View.dirKey parent name) child } := rfl
  obtain ⟨w₁, s₁, happly⟩ := MetaStore.apply_healthy_of_applyLocally ord w hview
  simp only [Pool.applyMeta, happly, liftMeta, Res.mapErr] at h
  obtain ⟨rfl, hstate⟩ := Prod.mk.inj h
  obtain ⟨rfl, rfl⟩ := Prod.mk.inj hstate
  exact ⟨rfl, hs.accept hfit happly (fun _ _ => rfl) (fun _ hi => Or.inl hi) (fun rec hstep => by cases hstep)⟩

/-- `create_file` adds an empty file. On healthy disks its link never fails, so a refused call added nothing. -/
theorem Sound.createFile {ord : IterOrder} {parent : InodeId} {name : String} {redundancy : RedundancyScheme}
    {uid gid unixMode : UInt32} {now : UInt64} {r : Res PoolError InodeId} (hs : Sound w p m)
    (hscheme : redundancy.Placeable)
    (hfit : ∀ c ∈ p.metaCalls (Env.healthy ord) w (.createFile parent name redundancy uid gid unixMode now), c.Fits)
    (h : Pool.createFile (Env.healthy ord) parent name redundancy uid gid unixMode now (w, p) = (r, w', p'))
    (hr : r ≠ .panic) :
    (∃ e, r = .err e ∧ Sound w' p' m) ∨ ∃ id, r = .ok id ∧ Sound w' p' (Function.update m id (some [])) := by
  obtain ⟨id, s₁, hid, h⟩ := createFile_cases h hr
  have hs₁ := hs.allocInode hid
  obtain ⟨hcall₁, hcall₂⟩ := createFile_calls (Env.healthy ord) w parent name redundancy uid gid unixMode now hid
  have hfit₁ := hfit _ hcall₁
  rcases h with ⟨e, rfl, hmk⟩ | ⟨w₂, s₂, happly, q, hlink, hend⟩
  · rcases hs₁.applyMeta_cases hfit₁ hmk (by simp) with ⟨e', -, hs₂⟩ | ⟨he, -⟩
    · exact Or.inl ⟨e, rfl, hs₂⟩
    · cases he
  · have hempty : DataLocator.Fits (.chunkLog []) := ⟨by decide, by simp⟩
    have hs₂ := hs₁.create hscheme rfl (fun a => .chunkLog (by simp [newFile]) .nil) rfl hempty hfit₁ happly
    obtain ⟨rfl, hs₃⟩ := hs₂.link (hfit _ (hcall₂ w₂ s₂ happly)) hlink
    rcases hend with ⟨-, rfl⟩ | ⟨e, he, -⟩
    · exact Or.inr ⟨id, rfl, hs₃⟩
    · cases he

/-! ## Sessions -/

/-- The scheme an operation sets, if any, is placeable. -/
def SchemeOk : PoolOp → Prop
  | .createFile _ _ redundancy .. => redundancy.Placeable
  | .setRedundancy _ scheme       => scheme.Placeable
  | _                             => True

/-- Every scheme used is `Replicated` with 1 to 16 slots. -/
def Event.SchemesOk : Event → Prop
  | .call _ _ _ op _  => SchemeOk op
  | _                 => True

/-- From the end of an operation to the files after it. -/
theorem sound_of_ends {op : PoolOp} {x : PoolM Unit} {res : Res PoolError PoolVal}
    (h : unitVal x (w, p) = (res, w', p')) (hres : res ≠ .panic) (herr : ∀ e, m.after op (.err e) = m)
    (hends : ∀ r, x (w, p) = (r, w', p') → r ≠ .panic → (r = .ok () → res = .ok .unit) →
      Ends r w' p' m (m.after op (.ok .unit))) : Sound w' p' (m.after op res) := by
  obtain ⟨r, hx, hr, ⟨rfl, rfl⟩ | ⟨e, rfl, rfl⟩⟩ := unitVal_cases h hres
  · rcases hends _ hx hr (fun _ => rfl) with ⟨e, he, -⟩ | ⟨-, hs⟩
    · cases he
    · exact hs
  · rcases hends _ hx hr (fun h => by cases h) with ⟨e', -, hs⟩ | ⟨he, -⟩
    · rw [herr]
      exact hs
    · cases he

/-- **Step lemma.** Every operation of a session does to the pool what `Files.after` says. -/
theorem Sound.step {ord : IterOrder} {op : PoolOp} {res : Res PoolError PoolVal} (hs : Sound w p m) (hsmall : m.Small)
    (hscheme : SchemeOk op) (hfit : ∀ c ∈ p.metaCalls (Env.healthy ord) w op, c.Fits)
    (h : Pool.step (Env.healthy ord) op (w, p) = (res, w', p')) (hres : res ≠ .panic)
    (hsmall' : (m.after op res).Small) : Sound w' p' (m.after op res) := by
  cases op with
  | createFile parent name redundancy uid gid unixMode now =>
      rcases Action.returns_cases h hres with ⟨id, hcreate, rfl⟩ | ⟨e, hcreate, rfl⟩
      · rcases hs.createFile hscheme hfit hcreate (by simp) with ⟨e, he, -⟩ | ⟨id', hid, hs'⟩
        · cases he
        · obtain rfl := Res.ok.inj hid
          exact hs'
      · rcases hs.createFile hscheme hfit hcreate (by simp) with ⟨e', -, hs'⟩ | ⟨id', hid, -⟩
        · exact hs'
        · cases hid
  | append inode payload =>
      exact sound_of_ends h hres (fun _ => rfl) (fun r hx hr hok =>
        hs.append hfit (fun hr' => by rw [hok hr'] at hsmall'; exact hsmall') hx hr)
  | beginConvert inode =>
      exact sound_of_ends h hres (fun _ => rfl) (fun r hx hr _ =>
        hs.beginConvert (hfit _ (List.mem_singleton.mpr rfl)) hx hr)
  | completeConvert inode =>
      exact sound_of_ends h hres (fun _ => rfl) (fun r hx hr _ => hs.completeConvert hsmall hfit hx hr)
  | write inode offset data =>
      exact sound_of_ends h hres (fun _ => rfl) (fun r hx hr hok =>
        hs.write (fun hr' => by rw [hok hr'] at hsmall'; exact hsmall') hfit hx hr)
  | setRedundancy inode scheme =>
      exact sound_of_ends h hres (fun _ => rfl) (fun r hx hr _ =>
        hs.setRedundancy hscheme (hfit _ (List.mem_singleton.mpr rfl)) hx hr)
  | unlink parent name =>
      exact sound_of_ends h hres (fun _ => rfl) (fun r hx hr _ =>
        hs.unlink (hfit _ (List.mem_singleton.mpr rfl)) hx hr)
  | read inode offset len =>
      obtain ⟨rfl, rfl⟩ := step_read h hres
      cases res with
      | ok v => exact hs
      | err e => exact hs
      | panic => exact absurd rfl hres

/-- A pool over freshly created disks, before its root exists, stands for no files. -/
theorem sound_created (w₀ : World) {n : Nat} (hn : n ≠ 0) (classes : List DiskClass) :
    Sound (createDisks w₀ n) ⟨poolMapOf classes, handlesOf n (fun _ => 0), freshStore n⟩ (fun _ => none) :=
  ⟨metaWf_open (openStore_createDisks w₀ hn), fun _ _ hid => (handlesOf_eq_some hid).1, View.each_empty,
    fun i hi => by simp [freshStore, View.empty] at hi, fun i hi => by simp at hi⟩

/-- `format` leaves a pool with an empty root. -/
theorem sound_format {env : Env} {w₀ : World} {n : Nat} {classes : List DiskClass} {now : UInt64}
    (hfit : ∀ c ∈ formatCalls env w₀ n now, c.Fits)
    (h : formatWithClasses env w₀ n classes now = (.ok (), w, some p)) :
    Sound w p (fun i => if i = rootInode then some [] else none) := by
  obtain ⟨hn, -, s, hopen, happly⟩ := formatWithClasses_eq_ok h
  rw [openStore_createDisks w₀ hn] at hopen
  obtain rfl := Res.ok.inj hopen
  have hcall : formatCalls env w₀ n now =
      [⟨env, createDisks w₀ n, freshStore n, .createInode (rootRecord n now)⟩] := by
    unfold formatCalls
    rw [openStore_createDisks w₀ hn]
  rw [hcall] at hfit
  have hfit' := hfit _ (List.mem_singleton.mpr rfl)
  have hscheme : (rootRecord n now).redundancy.Placeable := by
    show 1 ≤ (List.replicate (min 2 n) _).length ∧ (List.replicate (min 2 n) _).length ≤ 16
    rw [List.length_replicate]
    omega
  have hempty : DataLocator.Fits (.extents []) := ⟨by decide, by simp⟩
  rcases (sound_created w₀ hn classes).applyMeta_cases hfit' happly (by simp) with ⟨e, he, -⟩ | ⟨-, s', hok, rfl⟩
  · cases he
  · have hs := (sound_created w₀ hn classes).create hscheme rfl (fun a => .extents .empty) rfl hempty hfit' hok
    have hmap : (fun i => if i = rootInode then some [] else none : Files) =
        Function.update (fun _ => none) rootInode (some []) := by
      funext i
      rw [Function.update_apply]
    rw [hmap]
    exact hs

/-- **Run lemma.** In every state of a session the pool stands for the files of its events. -/
theorem Run.sound {n : Nat} {events : List Event} (hrun : Run n w p events) (hsession : ∀ e ∈ events, e.InSession)
    (hschemes : ∀ e ∈ events, e.SchemesOk) (hsmall : ∀ es, es <+: events → (filesOf es).Small)
    (hfits : LogFits events) : Sound w p (filesOf events) := by
  induction hrun with
  | format env h =>
      refine sound_format ?_ h
      intro c hc
      exact hfits c (by rw [allMetaCalls, List.flatMap_singleton]; exact hc)
  | call env op hrun h hres ih =>
      obtain ⟨hfits₀, hfits₁⟩ := hfits.snoc
      have hs := ih (fun e he => hsession e (List.mem_append_left _ he))
        (fun e he => hschemes e (List.mem_append_left _ he))
        (fun es hes => hsmall es (hes.trans (List.prefix_append _ _))) hfits₀
      have hlast := hsmall _ (List.prefix_refl _)
      obtain ⟨ord, rfl⟩ : ∃ ord, env = Env.healthy ord :=
        Env.eq_healthy (hsession _ (List.mem_append_right _ (List.mem_singleton.mpr rfl)))
      rw [filesOf_snoc] at hlast ⊢
      exact hs.step (hsmall _ (List.prefix_append _ _))
        (hschemes _ (List.mem_append_right _ (List.mem_singleton.mpr rfl))) hfits₁ h hres hlast
  | reopen hrun h hm ih => exact (hsession _ (List.mem_append_right _ (List.mem_singleton.mpr rfl))).elim

/-- What a pool must answer about an inode whose abstract string is given: the bytes `[min off n, min (off + len) n)` of
    the string and its length `n` as the recorded size; or that there is no such inode. -/
inductive Answers (w : World) (p : Pool) (i : InodeId) (off len : UInt64) : Option Bytes → Prop where
  | absent (hread : p.read w i off len = .err .notFound) (hget : p.getInode i = .ok none) : Answers w p i off len none
  | present {s rec} (hread : p.read w i off len =
        .ok ((s.take (min (off.toNat + len.toNat) s.length)).drop (min off.toNat s.length)))
      (hget : p.getInode i = .ok (some rec)) (hsize : rec.size.toNat = s.length) : Answers w p i off len (some s)

/-- **Reads return the abstract bytes.** In every state of a session on disks that do not fail, with schemes of 1 to 16
    replicas, files below `2^32` bytes and the log within its region, the pool answers for every inode, offset and
    length as the abstract map does. -/
theorem read_refines {n : Nat} {events : List Event} (hrun : Run n w p events)
    (hsession : ∀ e ∈ events, e.InSession) (hschemes : ∀ e ∈ events, e.SchemesOk)
    (hsmall : ∀ es, es <+: events → (filesOf es).Small) (hfits : LogFits events) (i : InodeId) (off len : UInt64) :
    Answers w p i off len (filesOf events i) := by
  have hs := hrun.sound hsession hschemes hsmall hfits
  have hbound := hsmall events (List.prefix_refl _) i
  cases hm : filesOf events i with
  | none =>
      have hentry : p.metaStore.view.inodes[i]? = none := by
        cases hentry : p.metaStore.view.inodes[i]? with
        | none => rfl
        | some bytes =>
            obtain ⟨rec, hhas, content, hcontent, -⟩ := hs.records i bytes hentry
            rw [hhas.inode_eq, hm] at hcontent
            cases hcontent
      have hget : p.getInode i = .ok none := by
        refine getInode_of_view ?_
        unfold View.getInode
        rw [hentry]
      refine .absent ?_ hget
      unfold Pool.read findInode
      rw [hget]
      rfl
  | some s =>
      obtain ⟨rec, hhas, hsound⟩ := hs.find hm
      have hget : p.getInode i = .ok (some rec) := getInode_of_view hhas.getInode_eq
      refine .present ?_ hget hsound.size_eq
      have hfind : p.findInode i = .ok rec := findInode_of_getInode hget
      unfold Pool.read
      rw [hfind, Res.ok_bind, readFullContent_of_sound hsound, Res.ok_bind]
      have hlen := hbound s hm
      have hstop : min (min (min off.toNat s.length + len.toNat) (2 ^ 64 - 1)) s.length =
          min (off.toNat + len.toNat) s.length := by omega
      show Res.ok _ = Res.ok _
      rw [hstop]

/-! ## How far files can grow, and a concrete session -/

/-- How much an event can add to a file. -/
def growth : Event → Nat
  | .call _ _ _ (.append _ payload) _      => payload.length
  | .call _ _ _ (.write _ offset data) _   => offset.toNat + data.length
  | _                                      => 0

theorem length_overwrite_le (s : Bytes) (off : Nat) (data : Bytes) :
    (overwrite s off data).length ≤ s.length + (off + data.length) := by
  simp only [overwrite, List.length_append, List.length_take, List.length_drop, List.length_replicate]
  omega

theorem filesStep_le {m : Files} {e : Event} {k : Nat} (hm : ∀ i s, m i = some s → s.length ≤ k) (i : InodeId)
    (s : Bytes) (h : filesStep m e i = some s) : s.length ≤ k + growth e := by
  have hupdate : ∀ (j : InodeId) (x : Option Bytes), (∀ t, x = some t → t.length ≤ k + growth e) →
      Function.update m j x i = some s → s.length ≤ k + growth e := by
    intro j x hx hi
    rw [Function.update_apply] at hi
    split at hi
    · exact hx s hi
    · exact Nat.le_add_right_of_le (hm i s hi)
  cases e with
  | format env w n now =>
      simp only [filesStep] at h
      split at h
      · obtain rfl := Option.some.inj h
        exact Nat.zero_le _
      · cases h
  | reopen n => exact hm i s h
  | call env w p op res =>
      simp only [filesStep, Files.after] at h
      split at h
      · exact hupdate _ _ (fun t ht => by obtain rfl := Option.some.inj ht; exact Nat.zero_le _) h
      · refine hupdate _ _ (fun t ht => ?_) h
        obtain ⟨u, hu, rfl⟩ := Option.map_eq_some_iff.mp ht
        rw [List.length_append]
        exact Nat.add_le_add_right (hm _ u hu) _
      · refine hupdate _ _ (fun t ht => ?_) h
        obtain ⟨u, hu, rfl⟩ := Option.map_eq_some_iff.mp ht
        exact Nat.le_trans (length_overwrite_le _ _ _) (Nat.add_le_add_right (hm _ u hu) _)
      · exact Nat.le_add_right_of_le (hm i s h)

/-- A file is never longer than what was written in all. -/
theorem filesOf_le (events : List Event) (i : InodeId) (s : Bytes) (h : filesOf events i = some s) :
    s.length ≤ (events.map growth).sum := by
  induction events using List.reverseRecOn generalizing i s with
  | nil => cases h
  | append_singleton events e ih =>
      rw [filesOf_snoc] at h
      rw [List.map_append, List.sum_append, List.map_singleton, List.sum_singleton]
      exact filesStep_le ih i s h

theorem small_of_growth {events : List Event} (h : (events.map growth).sum < 2 ^ 32) (es : List Event)
    (hes : es <+: events) : (filesOf es).Small := by
  intro i s hs
  obtain ⟨rest, rfl⟩ := hes
  have hle := filesOf_le es i s hs
  rw [List.map_append, List.sum_append] at h
  omega

instance : DecidablePred RedundancyScheme.Placeable
  | .replicated slots => inferInstanceAs (Decidable (1 ≤ slots.length ∧ slots.length ≤ 16))
  | .erasureCoded _ _ => inferInstanceAs (Decidable False)

instance : DecidablePred SchemeOk
  | .createFile _ _ redundancy .. => inferInstanceAs (Decidable redundancy.Placeable)
  | .setRedundancy _ scheme       => inferInstanceAs (Decidable scheme.Placeable)
  | .append ..                    => inferInstanceAs (Decidable True)
  | .beginConvert _               => inferInstanceAs (Decidable True)
  | .completeConvert _            => inferInstanceAs (Decidable True)
  | .write ..                     => inferInstanceAs (Decidable True)
  | .unlink ..                    => inferInstanceAs (Decidable True)
  | .read ..                      => inferInstanceAs (Decidable True)

instance : DecidablePred Event.SchemesOk
  | .call _ _ _ op _  => inferInstanceAs (Decidable (SchemeOk op))
  | .format ..        => inferInstanceAs (Decidable True)
  | .reopen _         => inferInstanceAs (Decidable True)

/-- The theorem at a session that appends `[1, 2, 3]` to a file, converts it and overwrites it from offset 2 on. -/
theorem read_refines_sample : Run 1 sampleSession.2.1 sampleSession.2.2 sampleEvents ∧
    filesOf sampleEvents 2 = some [1, 2, 9, 9] ∧
    sampleSession.2.2.read sampleSession.2.1 2 1 5 = .ok [2, 9, 9] ∧
    ∃ rec, sampleSession.2.2.getInode 2 = .ok (some rec) ∧ rec.size.toNat = 4 := by
  have hsession : ∀ e ∈ sampleEvents, e.InSession :=
    play_inSession MetaStore.listOrder (World.blank 0) 1 0 sampleOps onDisk
  have hschemes : ∀ e ∈ sampleEvents, e.SchemesOk := by decide +kernel
  have hgrowth : (sampleEvents.map growth).sum < 2 ^ 32 := by decide +kernel
  have hfits : LogFits sampleEvents := by decide +kernel
  have hfile : filesOf sampleEvents 2 = some [1, 2, 9, 9] := by decide +kernel
  have hread := read_refines run_sample hsession hschemes (small_of_growth hgrowth) hfits 2 1 5
  rw [hfile] at hread
  cases hread with
  | present hread hget hsize => exact ⟨run_sample, hfile, hread, _, hget, hsize⟩

end Pool

end Tartine
