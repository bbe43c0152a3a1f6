import Mathlib.Logic.Relation
import Tartine.Fuse.Conversion
import Tartine.Fuse.Requests
import Tartine.Meta.PoolProgress

/-!
# `Fuse.Immutability` — append-only files under any interleaving of requests

Between its creation and the end of its conversion a file is append-only: it is the data of the writes that replied Ok,
each of which arrived at the end of the data before it, and every other change is refused. That is an invariant of
sessions, over three layers: the classifier compares the offset with the recorded size, the pool appends a chunk, the
store advances the size by the chunk's length.

* `append_only_immutable` — the invariant, the moves of the mode, and when a move leaves the content as it was;
* `conversion_zeroes_file` — a file of `2^32` bytes, which its conversion replaces by zeros.
-/

namespace Tartine.Fuse

open Basis Pool

/-! ## What the clients were told -/

/-- The writes to a file that replied Ok, in the order of their replies. -/
def accepted (ino : InodeId) (trace : List (Request × Res Errno Reply)) : List (UInt64 × Bytes) :=
  trace.filterMap fun
    | (.write i offset data, .ok _) => if i = ino then some (offset, data) else none
    | _                             => none

/-- Their data, one after another. -/
def contentOf (ws : List (UInt64 × Bytes)) : Bytes := (ws.map Prod.snd).flatten

/-- Each of them arrived at the end of the data before it. -/
def InOrder (ws : List (UInt64 × Bytes)) : Prop :=
  ∀ before offset data after, ws = before ++ (offset, data) :: after → offset.toNat = (contentOf before).length

/-- The file is the data of the accepted writes. -/
structure Accumulated (w : World) (p : Pool) (ino : InodeId) (rec : InodeRecord) (ws : List (UInt64 × Bytes)) : Prop where
  order : InOrder ws
  size_eq : rec.size.toNat = (contentOf ws).length
  read_eq : ∀ offset len, p.read w ino offset len = .ok (window (contentOf ws) offset len)

/-- Every write at another offset than the end and every other size is refused, and changes nothing. -/
structure Frozen (w : World) (p : Pool) (ino : InodeId) (size : Nat) : Prop where
  write_refused : ∀ env offset data, offset.toNat ≠ size → ∃ e, handle env (.write ino offset data) (w, p) = (.err e, w, p)
  setattr_refused : ∀ env size', size'.toNat ≠ size →
    handle env (.setattr ino (some size')) (w, p) = (.err .eperm, w, p)

variable {env : Env} {w w' : World} {p p' : Pool} {ino i : InodeId} {r : Res Errno Reply} {req : Request} {n : Nat}
  {trace : List (Request × Res Errno Reply)} {ord : IterOrder}

theorem accepted_snoc (i : InodeId) (trace : List (Request × Res Errno Reply)) (e : Request × Res Errno Reply) :
    accepted i (trace ++ [e]) = accepted i trace ++ accepted i [e] := List.filterMap_append

theorem inOrder_nil : InOrder [] := by
  intro before offset data after h
  simp at h

theorem InOrder.snoc {ws : List (UInt64 × Bytes)} {offset : UInt64} {data : Bytes} (h : InOrder ws)
    (hend : offset.toNat = (contentOf ws).length) : InOrder (ws ++ [(offset, data)]) := by
  intro before offset' data' after hsplit
  rcases snoc_eq_append_cons hsplit with ⟨rfl, hlast, -⟩ | ⟨after', -, hws⟩
  · obtain ⟨rfl, -⟩ := Prod.mk.inj hlast
    exact hend
  · exact h _ _ _ _ hws

theorem accepted_of_not_write (hw : ¬req.IsWrite) : accepted i [(req, r)] = [] := by
  cases req with
  | write ino offset data => exact absurd trivial hw
  | _ => rfl

/-- What a request adds: nothing, unless it is a write to the file that replied Ok; then the file exists, and if it is
    not writable the write came at its end. -/
theorem Performs.accepted_cases (h : Performs env w p req r w' p') (i : InodeId) : accepted i [(req, r)] = [] ∨
    ∃ offset data rec, req = .write i offset data ∧ accepted i [(req, r)] = [(offset, data)] ∧
      p.getInode i = .ok (some rec) ∧ (rec.mode ≠ .writable → offset = rec.size) := by
  -- the write, once it is known which record it found
  have hwrite : ∀ ino offset data rec, req = .write ino offset data → p.getInode ino = .ok (some rec) →
      (rec.mode ≠ .writable → offset = rec.size) → accepted i [(req, r)] = [] ∨
      ∃ offset data rec, req = .write i offset data ∧ accepted i [(req, r)] = [(offset, data)] ∧
        p.getInode i = .ok (some rec) ∧ (rec.mode ≠ .writable → offset = rec.size) := by
    rintro ino offset data rec rfl hget hend
    cases r with
    | ok a =>
        by_cases hi : ino = i
        · subst hi
          exact Or.inr ⟨offset, data, rec, rfl, by simp [accepted], hget, hend⟩
        · exact Or.inl (by simp [accepted, hi])
    | err e => exact Or.inl rfl
    | panic => exact Or.inl rfl
  cases h with
  | idle hr =>
      by_cases hw : req.IsWrite
      · refine Or.inl ?_
        cases req with
        | write ino offset data =>
            cases r with
            | ok a => exact absurd rfl (hr trivial a)
            | err e => rfl
            | panic => rfl
        | _ => exact hw.elim
      · exact Or.inl (accepted_of_not_write hw)
  | call hcall h hres hr =>
      cases hcall with
      | create => exact Or.inl rfl
      | unlink => exact Or.inl rfl
      | append hget hmode hend => exact hwrite _ _ _ _ rfl hget (fun _ => hend)
      | overwrite hget hmode => exact hwrite _ _ _ _ rfl hget (fun hne => absurd hmode hne)
      | begin => exact Or.inl rfl
      | policy hdecode => exact Or.inl rfl
  | convert hbegin hcomplete hres => exact Or.inl rfl

/-! ## The invariant of a session -/

/-- Accepted writes name files that exist, and those of a file that is not writable came in order. -/
structure Accounted (p : Pool) (trace : List (Request × Res Errno Reply)) : Prop where
  order : ∀ i rec, p.metaStore.view.Has i rec → rec.mode ≠ .writable → InOrder (accepted i trace)
  absent : ∀ i : InodeId, p.metaStore.view.inodes[i]? = none → accepted i trace = []

/-- The content of a session's files, by their accepted writes. -/
abbrev contents (trace : List (Request × Res Errno Reply)) : InodeId → Bytes := fun i => contentOf (accepted i trace)

theorem contents_of_not_write (hw : ¬req.IsWrite) : contents (trace ++ [(req, r)]) = contents trace := by
  funext i
  show contentOf (accepted i (trace ++ [(req, r)])) = _
  rw [accepted_snoc, accepted_of_not_write hw, List.append_nil]

/-- A write that replied Ok. -/
theorem contents_write {offset : UInt64} {data : Bytes} {a : Reply} :
    contents (trace ++ [(.write ino offset data, .ok a)]) =
      Function.update (contents trace) ino (contents trace ino ++ data) := by
  funext i
  by_cases hi : i = ino
  · subst hi
    simp [contents, accepted, contentOf]
  · simp [contents, accepted, contentOf, Function.update_of_ne hi, Ne.symm hi]

/-- The data a call has accepted is the data its client was told so. -/
theorem contents_call {op : PoolOp} {res : Res PoolError PoolVal} (hcall : Calls p req op) (hres : res ≠ .panic)
    (hr : req.IsWrite → ((∃ a, r = .ok a) ↔ ∃ v, res = .ok v)) :
    contents (trace ++ [(req, r)]) = appended (contents trace) op res := by
  have hwrite : ∀ {ino offset data}, req = .write ino offset data →
      contents (trace ++ [(req, r)]) = appended (contents trace) (.append ino data) res := by
    rintro ino offset data rfl
    cases res with
    | ok v =>
        obtain ⟨a, rfl⟩ := (hr trivial).mpr ⟨v, rfl⟩
        exact contents_write
    | err e =>
        funext i
        cases r with
        | ok a =>
            obtain ⟨v, hv⟩ := (hr trivial).mp ⟨a, rfl⟩
            cases hv
        | err e => simp [contents, accepted, appended]
        | panic => simp [contents, accepted, appended]
    | panic => exact absurd rfl hres
  cases hcall with
  | create => exact contents_of_not_write (fun hw => hw)
  | unlink => exact contents_of_not_write (fun hw => hw)
  | append hget hmode hend => exact hwrite rfl
  | overwrite hget hmode =>
      rw [hwrite rfl]
      cases res <;> rfl
  | begin => exact contents_of_not_write (fun hw => hw)
  | policy hdecode => exact contents_of_not_write (fun hw => hw)

/-- The moves a request makes are those of its calls. -/
theorem moves_trans {i : InodeId} {op : PoolOp} {res : Res PoolError PoolVal} {mode mode' : InodeMode}
    (h : Moves i op res mode mode') : Relation.ReflTransGen ModeStep mode mode' := by
  cases h with
  | stay => exact .refl
  | begin => exact .single .begin
  | complete => exact .single .complete

/-- No move leads from a writable file to one that is not. -/
theorem writable_of_moves {mode mode' : InodeMode} (h : Relation.ReflTransGen ModeStep mode mode')
    (hmode : mode = .writable) : mode' = .writable := by
  induction h with
  | refl => exact hmode
  | tail _ hstep ih =>
      rw [ih] at hstep
      cases hstep

/-- Between the two calls of a conversion that waits. -/
theorem converting_state {m : InodeId → Bytes} {w₁ : World} {p₁ : Pool} {v : PoolVal} {res : Res PoolError PoolVal}
    (hi : Intact w p) (hg : Grown w p m)
    (hbegin : Pool.step (Env.healthy ord) (.beginConvert ino) (w, p) = (.ok v, w₁, p₁))
    (hcomplete : Pool.step (Env.healthy ord) (.completeConvert ino) (w₁, p₁) = (res, w', p')) (hres : res ≠ .panic)
    (hlog : p'.metaStore.walCursor ≤ Wal.walCapacityBytes) :
    (∀ c ∈ p.metaCalls (Env.healthy ord) w (.beginConvert ino), c.Fits) ∧
    (∀ c ∈ p₁.metaCalls (Env.healthy ord) w₁ (.completeConvert ino), c.Fits) ∧ Intact w₁ p₁ ∧ Grown w₁ p₁ m := by
  have hwf₁ := hi.wf.call hbegin (by simp)
  have hfit := fits_of_cursor_le hi.wf hbegin (by simp) (Nat.le_trans (cursor_le_step hwf₁ hcomplete hres) hlog)
  refine ⟨hfit, fits_of_cursor_le hwf₁ hcomplete hres hlog, hi.step hfit hbegin (by simp), ?_⟩
  exact hg.step hi (show SchemeOk (.beginConvert ino) from trivial) hfit hbegin (by simp)

/-- What a request leaves of the invariants, if its frames fit. -/
structure Served (w : World) (p : Pool) (req : Request) (r : Res Errno Reply) (w' : World) (p' : Pool)
    (trace : List (Request × Res Errno Reply)) : Prop where
  intact : Intact w' p'
  grown : Grown w' p' (contents (trace ++ [(req, r)]))
  records : ∀ i rec, p.metaStore.view.Has i rec →
    ∃ rec', p'.metaStore.view.Has i rec' ∧ Relation.ReflTransGen ModeStep rec.mode rec'.mode

/-- **Step lemma.** -/
theorem Performs.served (h : Performs (Env.healthy ord) w p req r w' p') (hi : Intact w p)
    (hg : Grown w p (contents trace)) (hslot : req.Slotted) (hlog : p'.metaStore.walCursor ≤ Wal.walCapacityBytes) :
    Served w p req r w' p' trace := by
  cases h with
  | idle hr =>
      refine ⟨hi, ?_, fun i rec hhas => ⟨rec, hhas, .refl⟩⟩
      have hsame : contents (trace ++ [(req, r)]) = contents trace := by
        by_cases hw : req.IsWrite
        · funext i
          cases req with
          | write ino offset data =>
              cases r with
              | ok a => exact absurd rfl (hr trivial a)
              | err e => simp [contents, accepted]
              | panic => simp [contents, accepted]
          | _ => exact hw.elim
        · exact contents_of_not_write hw
      rw [hsame]
      exact hg
  | call hcall h hres hr =>
      have hfit := fits_of_cursor_le hi.wf h hres hlog
      refine ⟨hi.step hfit h hres, ?_, fun i rec hhas => ?_⟩
      · rw [contents_call hcall hres hr]
        exact hg.step hi (hcall.schemeOk hslot) hfit h hres
      · obtain ⟨rec', hhas', hmoves⟩ := record_step hi hfit h hres hhas
        exact ⟨rec', hhas', moves_trans hmoves⟩
  | convert hbegin hcomplete hres =>
      obtain ⟨hfit, hfit₁, hi₁, hg₁⟩ := converting_state hi hg hbegin hcomplete hres hlog
      refine ⟨hi₁.step hfit₁ hcomplete hres, ?_, fun i rec hhas => ?_⟩
      · rw [contents_of_not_write (show ¬(Request.ioctl _ _ _).IsWrite from fun hw => hw)]
        exact hg₁.step hi₁ (show SchemeOk (.completeConvert _) from trivial) hfit₁ hcomplete hres
      · obtain ⟨rec₁, hhas₁, hmoves⟩ := record_step hi hfit hbegin (by simp) hhas
        obtain ⟨rec₂, hhas₂, hmoves₁⟩ := record_step hi₁ hfit₁ hcomplete hres hhas₁
        exact ⟨rec₂, hhas₂, (moves_trans hmoves).trans (moves_trans hmoves₁)⟩

theorem Accounted.serve (ha : Accounted p trace) (hg : Grown w p (contents trace))
    (hperforms : Performs env w p req r w' p') (hserved : Served w p req r w' p' trace) :
    Accounted p' (trace ++ [(req, r)]) := by
  -- a file that does not exist yet has accepted nothing, and does not accept this
  have hnew : ∀ i : InodeId, p.metaStore.view.inodes[i]? = none → accepted i (trace ++ [(req, r)]) = [] := by
    intro i hnone
    rw [accepted_snoc, ha.absent i hnone, List.nil_append]
    rcases hperforms.accepted_cases i with hnil | ⟨_, _, rec, -, -, hget, -⟩
    · exact hnil
    · obtain ⟨hhas, -⟩ := hg.records.of_getInode (Res.mapErr_eq_ok.mp hget)
      cases hhas.entry_eq.symm.trans hnone
  constructor
  · intro i rec' hhas' hmode'
    cases hentry : p.metaStore.view.inodes[i]? with
    | none =>
        rw [hnew i hentry]
        exact inOrder_nil
    | some bytes =>
        obtain ⟨rec, hhas, hsound⟩ := hg.records i bytes hentry
        obtain ⟨rec'', hhas'', hmoves⟩ := hserved.records i rec hhas
        obtain rfl := Option.some.inj (Res.ok.inj (hhas''.getInode_eq.symm.trans hhas'.getInode_eq))
        have hmode : rec.mode ≠ .writable := fun hw => hmode' (writable_of_moves hmoves hw)
        have horder := ha.order i rec hhas hmode
        rw [accepted_snoc]
        rcases hperforms.accepted_cases i with hnil | ⟨offset, data, rec₀, -, hone, hget, hend⟩
        · rw [hnil, List.append_nil]
          exact horder
        · obtain rfl := Option.some.inj (Res.ok.inj (hhas.getInode_eq.symm.trans (Res.mapErr_eq_ok.mp hget)))
          rw [hone]
          refine horder.snoc ?_
          rw [hend hmode, (hsound hmode).size_eq, hhas.inode_eq]
  · intro i hnone'
    refine hnew i ?_
    cases hentry : p.metaStore.view.inodes[i]? with
    | none => rfl
    | some bytes =>
        obtain ⟨rec, hhas, -⟩ := hg.records i bytes hentry
        obtain ⟨rec', hhas', -⟩ := hserved.records i rec hhas
        cases hhas'.entry_eq.symm.trans hnone'

/-- **Run lemma.** The invariants, in every state of every session. -/
theorem Session.accounted (hs : Session n w p trace) (hslots : ∀ e ∈ trace, e.1.Slotted)
    (hlog : p.metaStore.walCursor ≤ Wal.walCapacityBytes) :
    Intact w p ∧ Grown w p (contents trace) ∧ Accounted p trace := by
  induction hs with
  | @mount w₀ w p classes now ord h =>
      obtain ⟨events, hrun, hsession, hfits⟩ := (Session.mount ord h).run hlog
      exact ⟨hrun.intact (fun e he => (hsession e he).running) hfits, grown_format h, fun _ _ _ _ => inOrder_nil,
        fun _ _ => rfl⟩
  | @serve w p trace r w' p' ord req hs h hr ih =>
      have hperforms := handle_performs h hr
      obtain ⟨hi, hg, ha⟩ := ih (fun e he => hslots e (List.mem_append_left _ he))
        (Nat.le_trans (hperforms.log hs.wf).2 hlog)
      have hserved := hperforms.served hi hg (hslots _ (List.mem_append_right _ (List.mem_singleton.mpr rfl))) hlog
      exact ⟨hserved.intact, hserved.grown, ha.serve hg hperforms hserved⟩

/-! ## What is refused -/

/-- A file that is not writable is frozen but for its end. -/
theorem frozen_of_mode {rec : InodeRecord} (hget : p.getInode ino = .ok (some rec)) (hmode : rec.mode ≠ .writable) :
    Frozen w p ino rec.size.toNat := by
  have hrec : inodeOf ino (w, p) = (.ok rec, w, p) := by
    refine Action.reads_eq_ok.mpr ⟨?_, rfl⟩
    dsimp only
    rw [hget]
  constructor
  · intro env offset data hoffset
    have hne : offset ≠ rec.size := by
      rintro rfl
      exact hoffset rfl
    show ∃ e, write env ino offset data (w, p) = (.err e, w, p)
    -- away from the end of the file every mode but the writable one is refused by the classifier
    have hclass : ∃ e, classifyWrite rec offset = .err e := by
      rw [classifyWrite_eq]
      cases hm : rec.mode with
      | appendOnly => exact ⟨_, if_neg hne⟩
      | converting => exact ⟨_, if_neg hne⟩
      | writable => exact absurd hm hmode
    obtain ⟨e, hclass⟩ := hclass
    have hwrite : write env ino offset data (w, p) = _ := Action.bind_of_ok hrec
    rw [hclass] at hwrite
    cases e with
    | notAppendOnlyOrder => exact ⟨_, hwrite⟩
    | randomWriteDenied => exact ⟨_, hwrite⟩
    | conversionInProgress => exact ⟨_, hwrite⟩
  · intro env size' hsize
    have hne : size' ≠ rec.size := by
      rintro rfl
      exact hsize rfl
    have hdenied : truncateAllowed rec = .err .randomWriteDenied := by
      unfold truncateAllowed
      cases hm : rec.mode with
      | appendOnly => rfl
      | converting => rfl
      | writable => exact absurd hm hmode
    show setattr ino (some size') (w, p) = _
    refine (Action.bind_of_ok hrec).trans ?_
    have hdenies : ∀ g : World × Pool → Res Errno Bool, g (w, p) = .ok true → Action.reads g (w, p) = (.ok true, w, p) :=
      fun _ hg => Action.reads_eq_ok.mpr ⟨hg, rfl⟩
    refine (Action.bind_of_ok (hdenies _ ?_)).trans rfl
    simp only [if_neg hne, hdenied]

/-! ## What a move leaves -/

/-- Reads of a file that is not writable. -/
theorem read_of_grown {rec : InodeRecord} {m : InodeId → Bytes} (hg : Grown w p m) (hhas : p.metaStore.view.Has i rec)
    (hmode : rec.mode ≠ .writable) :
    rec.size.toNat = (m i).length ∧ ∀ offset len, p.read w i offset len = .ok (window (m i) offset len) := by
  obtain ⟨-, hsound⟩ := hg.records.of_readInode hhas.readInode_eq
  have hsound := hsound hmode
  rw [hhas.inode_eq] at hsound
  refine ⟨hsound.size_eq, read_of_content hhas (readFullContent_of_sound hsound) ?_⟩
  rw [← hsound.size_eq]
  exact rec.size.toNat_lt

/-- **What a file reads as once its mode has moved**: as before while it is converting, and as its extent's length field
    has left it once it is writable. -/
theorem Performs.read_moved {rec rec' : InodeRecord} (h : Performs (Env.healthy ord) w p req r w' p') (hi : Intact w p)
    (hg : Grown w p (contents trace)) (hslot : req.Slotted) (hlog : p'.metaStore.walCursor ≤ Wal.walCapacityBytes)
    (hhas : p.metaStore.view.Has i rec) (hhas' : p'.metaStore.view.Has i rec') (hmoved : rec.mode ≠ rec'.mode) :
    rec.mode ≠ .writable ∧ ∀ offset len, p'.read w' i offset len =
      .ok (window (if rec'.mode = .writable then narrowed (contents trace i) else contents trace i) offset len) := by
  have hserved := h.served hi hg hslot hlog
  obtain ⟨rec'', hhas'', hmoves⟩ := hserved.records i rec hhas
  obtain rfl := Option.some.inj (Res.ok.inj (hhas''.getInode_eq.symm.trans hhas'.getInode_eq))
  have hmode : rec.mode ≠ .writable := by
    intro hw
    rw [hw, writable_of_moves hmoves hw] at hmoved
    exact hmoved rfl
  refine ⟨hmode, ?_⟩
  cases h with
  | idle hr =>
      obtain rfl := Option.some.inj (Res.ok.inj (hhas.getInode_eq.symm.trans hhas'.getInode_eq))
      exact absurd rfl hmoved
  | call hcall h hres hr =>
      have hfit := fits_of_cursor_le hi.wf h hres hlog
      obtain ⟨rec₁, hhas₁, hmove⟩ := record_step hi hfit h hres hhas
      obtain rfl := Option.some.inj (Res.ok.inj (hhas₁.getInode_eq.symm.trans hhas'.getInode_eq))
      generalize rec.mode = mode at hmove hmoved
      generalize hmode₁ : rec₁.mode = mode₁ at hmove hmoved
      cases hmove with
      | stay => exact absurd rfl hmoved
      | begin =>
          cases hcall with
          | begin =>
              have hread := (read_of_grown hserved.grown hhas' (by rw [hmode₁]; simp)).2
              rw [contents_of_not_write (show ¬(Request.ioctl _ _ _).IsWrite from fun hw => hw)] at hread
              rw [if_neg (by simp)]
              exact hread
      | complete => cases hcall
  | convert hbegin hcomplete hres =>
      obtain ⟨hfit, hfit₁, hi₁, hg₁⟩ := converting_state hi hg hbegin hcomplete hres hlog
      obtain ⟨rec₁, hhas₁, hmove⟩ := record_step hi hfit hbegin (by simp) hhas
      obtain ⟨rec₂, hhas₂, hmove₁⟩ := record_step hi₁ hfit₁ hcomplete hres hhas₁
      obtain rfl := Option.some.inj (Res.ok.inj (hhas₂.getInode_eq.symm.trans hhas'.getInode_eq))
      by_cases hw : rec₂.mode = .writable
      · -- only completing makes a file writable
        rw [if_pos hw]
        have hmode₁ : rec₁.mode ≠ .writable := by
          intro hw₁
          generalize rec.mode = mode at hmove hmode
          rw [hw₁] at hmove
          cases hmove
          exact hmode rfl
        obtain ⟨-, hsound₁⟩ := hg₁.records.of_readInode hhas₁.readInode_eq
        have hsound₁ := hsound₁ hmode₁
        rw [hhas₁.inode_eq] at hsound₁
        generalize hmode₂ : rec₁.mode = mode₁ at hmove₁ hmode₁
        rw [hw] at hmove₁
        cases hmove₁ with
        | stay => exact absurd rfl hmode₁
        | complete =>
            obtain ⟨rec₃, hhas₃, -, hread⟩ := readFullContent_completed hi₁ hfit₁ hhas₁ hsound₁ hcomplete
            refine read_of_content hhas₃ hread ?_
            rw [length_narrowed, ← hsound₁.size_eq]
            exact rec₁.size.toNat_lt
      · rw [if_neg hw]
        have hread := (read_of_grown hserved.grown hhas' hw).2
        rw [contents_of_not_write (show ¬(Request.ioctl _ _ _).IsWrite from fun hw => hw)] at hread
        exact hread

/-- **Append-only files are immutable**, under any interleaving of requests on healthy disks that sets no policy without
    slots and keeps the metadata log within its region. While a file is append-only or converting, it is the data of the
    writes that replied Ok, each of which arrived at its end, and every other write and every other size is refused and
    changes nothing. Whatever request comes next, the file goes on existing, and its mode only moves from append-only to
    converting to writable; and if it moves, the content stays as it was exactly if the file does not become writable
    with a byte other than zero at or past the offset that is its size modulo `2^32`. -/
theorem append_only_immutable {rec : InodeRecord} (hs : Session n w p trace) (hslots : ∀ e ∈ trace, e.1.Slotted)
    (hlog : p.metaStore.walCursor ≤ Wal.walCapacityBytes) (hget : p.getInode ino = .ok (some rec)) :
    (rec.mode ≠ .writable → Accumulated w p ino rec (accepted ino trace) ∧
      Frozen w p ino (contentOf (accepted ino trace)).length) ∧
    ∀ ord req r w' p', handle (Env.healthy ord) req (w, p) = (r, w', p') → r ≠ .panic → req.Slotted →
      p'.metaStore.walCursor ≤ Wal.walCapacityBytes →
      ∃ rec', p'.getInode ino = .ok (some rec') ∧ Relation.ReflTransGen ModeStep rec.mode rec'.mode ∧
        (rec.mode ≠ rec'.mode → ((∀ offset len, p'.read w' ino offset len = p.read w ino offset len) ↔
          (rec'.mode = .writable → ∀ b ∈ (contentOf (accepted ino trace)).drop
            ((contentOf (accepted ino trace)).length % 2 ^ 32), b = 0))) := by
  obtain ⟨hi, hg, ha⟩ := hs.accounted hslots hlog
  obtain ⟨hhas, -⟩ := hg.records.of_getInode (Res.mapErr_eq_ok.mp hget)
  constructor
  · intro hmode
    obtain ⟨hsize, hread⟩ := read_of_grown hg hhas hmode
    have hfrozen := frozen_of_mode (w := w) hget hmode
    rw [hsize] at hfrozen
    exact ⟨⟨ha.order ino rec hhas hmode, hsize, hread⟩, hfrozen⟩
  · intro ord req r w' p' h hr hslot hlog'
    have hperforms := handle_performs h hr
    obtain ⟨rec', hhas', hmoves⟩ := (hperforms.served hi hg hslot hlog').records ino rec hhas
    refine ⟨rec', ?_, hmoves, fun hmoved => ?_⟩
    · exact getInode_of_view hhas'.getInode_eq
    · obtain ⟨hmode, hread'⟩ := hperforms.read_moved hi hg hslot hlog' hhas hhas' hmoved
      obtain ⟨hsize, hread⟩ := read_of_grown hg hhas hmode
      have hlen : (contents trace ino).length < 2 ^ 64 := by
        rw [← hsize]
        exact rec.size.toNat_lt
      -- only a completed conversion rewrites the data, and it keeps the low 32 bits of the length
      by_cases hw : rec'.mode = .writable
      · simp only [hread, hread', hw, forall_const]
        rw [← narrowed_eq_iff]
        constructor
        · intro hsame
          have hlen' : (narrowed (contents trace ino)).length < 2 ^ 64 := by rwa [length_narrowed]
          exact window_injective hlen' hlen (fun offset len => Res.ok.inj (hsame offset len))
        · intro hsame offset len
          exact congrArg (fun c => Res.ok (window c offset len)) hsame
      · simp [hread, hread', hw]

/-! ## Concrete sessions -/

/-- Requests served one after another, with their replies. -/
def serveAll (env : Env) : List Request → World × Pool → List (Request × Res Errno Reply) × World × Pool
  | [],          s => ([], s)
  | req :: reqs, s =>
      let out := handle env req s
      let rest := serveAll env reqs out.2
      ((req, out.1) :: rest.1, rest.2)

/-- The request was answered. -/
def answered : Request × Res Errno Reply → Bool
  | (_, .panic) => false
  | _           => true

theorem Session.serveAll {reqs : List Request} {s : World × Pool} {out : List (Request × Res Errno Reply) × World × Pool}
    (hs : Session n s.1 s.2 trace) (hout : Fuse.serveAll (Env.healthy ord) reqs s = out)
    (hok : out.1.all answered = true) : Session n out.2.1 out.2.2 (trace ++ out.1) := by
  subst hout
  induction reqs generalizing s trace with
  | nil => simpa [Fuse.serveAll] using hs
  | cons req reqs ih =>
      simp only [Fuse.serveAll, List.all_cons, Bool.and_eq_true] at hok
      have hr : (handle (Env.healthy ord) req s).1 ≠ .panic := by
        intro h
        rw [h] at hok
        exact absurd hok.1 (by simp [answered])
      have hrest := ih (hs.serve ord req rfl hr) hok.2
      rw [List.append_assoc, List.singleton_append] at hrest
      exact hrest

/-- A file is created and written to. -/
def writeRequests : List Request := [.create rootInode [97] 0o644 0 0 0, .write 2 0 [1, 2, 3]]

def writeSession : List (Request × Res Errno Reply) × World × Pool :=
  serveAll (Env.healthy MetaStore.listOrder) writeRequests onDisk

/-- `MAKE_WRITABLE`, waiting for the conversion. -/
def convertRequest : Request := .ioctl 2 tartineIocMakeWritable [1, 0, 0, 0]

instance : DecidablePred Request.Slotted
  | .ioctl _ cmd inData =>
      inferInstanceAs (Decidable (cmd = tartineIocSetRedundancy → decodeSetRedundancy inData ≠ some (.replicated [])))
  | .lookup ..  => .isTrue trivial
  | .getattr .. => .isTrue trivial
  | .setattr .. => .isTrue trivial
  | .create ..  => .isTrue trivial
  | .unlink ..  => .isTrue trivial
  | .read ..    => .isTrue trivial
  | .write ..   => .isTrue trivial
  | .readdir .. => .isTrue trivial

/-- The theorem at a file of three bytes that is then converted: it reads as it did. -/
theorem append_only_immutable_session : ∃ rec rec' r w' p',
    Session 1 writeSession.2.1 writeSession.2.2 writeSession.1 ∧
    writeSession.2.2.getInode 2 = .ok (some rec) ∧ rec.mode = .appendOnly ∧
    Accumulated writeSession.2.1 writeSession.2.2 2 rec [(0, [1, 2, 3])] ∧ Frozen writeSession.2.1 writeSession.2.2 2 3 ∧
    handle (Env.healthy MetaStore.listOrder) convertRequest writeSession.2 = (r, w', p') ∧
    p'.getInode 2 = .ok (some rec') ∧ rec'.mode = .writable ∧
    ∀ offset len, p'.read w' 2 offset len = writeSession.2.2.read writeSession.2.1 2 offset len := by
  have hmount : Session 1 onDisk.1 onDisk.2 [] := .mount MetaStore.listOrder (show formatWithClasses
    (Env.healthy MetaStore.listOrder) (World.blank 0) 1 [.hdd] 0 = (.ok (), onDisk.1, some onDisk.2) from rfl)
  have hplay : serveAll (Env.healthy MetaStore.listOrder) writeRequests onDisk = writeSession := rfl
  have hs : Session 1 writeSession.2.1 writeSession.2.2 ([] ++ writeSession.1) :=
    hmount.serveAll hplay (by decide +kernel)
  rw [List.nil_append] at hs
  have hslots : ∀ e ∈ writeSession.1, e.1.Slotted := by decide +kernel
  have haccepted : accepted 2 writeSession.1 = [(0, [1, 2, 3])] := by decide +kernel
  obtain ⟨rec, hget, hmode⟩ := modeOf_eq_some.mp (show modeOf writeSession.2.2 2 = some .appendOnly by decide +kernel)
  obtain ⟨hstate, hnext⟩ := append_only_immutable hs hslots (by decide +kernel) hget
  rw [haccepted] at hstate hnext
  obtain ⟨haccumulated, hfrozen⟩ := hstate (by rw [hmode]; simp)
  have hr : (handle (Env.healthy MetaStore.listOrder) convertRequest writeSession.2).1 ≠ .panic := by decide +kernel
  have hlog : (handle (Env.healthy MetaStore.listOrder) convertRequest writeSession.2).2.2.metaStore.walCursor ≤
      Wal.walCapacityBytes := by decide +kernel
  have hmoved : modeOf (handle (Env.healthy MetaStore.listOrder) convertRequest writeSession.2).2.2 2 = some .writable := by
    decide +kernel
  generalize hout : handle (Env.healthy MetaStore.listOrder) convertRequest writeSession.2 = out at hr hlog hmoved
  obtain ⟨r, w', p'⟩ := out
  obtain ⟨rec', hget', -, hsame⟩ := hnext MetaStore.listOrder convertRequest r w' p' hout hr (by decide +kernel) hlog
  obtain ⟨rec'', hget'', hmode''⟩ := modeOf_eq_some.mp hmoved
  obtain rfl := Option.some.inj (Res.ok.inj (hget''.symm.trans hget'))
  refine ⟨rec, rec'', r, w', p', hs, hget, hmode, haccumulated, hfrozen, rfl, hget', hmode'', ?_⟩
  exact (hsame (by rw [hmode, hmode'']; simp)).mpr (fun _ => by simp [contentOf])

/-! ## A file that its conversion empties -/

/-- The disks of the pool, and the bytes of one write. -/
def fillDisks : Nat := 17
def blockLen : Nat := 2 ^ 17

/-- The `k`-th block goes to one disk after another. -/
def pinScheme (k : Nat) : RedundancyScheme := .replicated [.pinned (diskId (k % fillDisks))]

def pinRequest (k : Nat) : Request := .ioctl 2 tartineIocSetRedundancy (encodeSetRedundancy (pinScheme k))

def blockRequest (k : Nat) : Request := .write 2 (UInt64.ofNat (k * blockLen)) (List.replicate blockLen 1)

/-- Pinned slots are lookups: the key does not matter. -/
theorem placeLoop_pinned {candidates : List Kcore.DiskCandidate} {slots : List Kcore.ReplicaSlotSpec}
    (h : ∀ slot ∈ slots, slot.pinned ≠ 0) (key key' : UInt64) (j : Nat) (excluded out : List UInt32) :
    Kcore.placeLoop candidates key slots j excluded out = Kcore.placeLoop candidates key' slots j excluded out := by
  induction slots generalizing j excluded out with
  | nil => rfl
  | cons slot slots ih =>
      have hpin := h slot List.mem_cons_self
      have ih := fun j excluded out => ih (fun s hs => h s (List.mem_cons_of_mem _ hs)) j excluded out
      simp only [Kcore.placeLoop, Kcore.chooseSlot, if_pos hpin]
      split
      · exact ih _ _ _
      · exact ih _ _ _

theorem place_pinned_key (p : Pool) (id : DiskId) (key key' : UInt64) :
    p.place ord (.replicated [.pinned id]) key = p.place ord (.replicated [.pinned id]) key' := by
  have hpin : ∀ k, ∀ slot ∈ List.take k [Placement.slotToSpec (.pinned id)], slot.pinned ≠ 0 := by
    intro k slot hslot
    obtain rfl := List.mem_singleton.mp (List.mem_of_mem_take hslot)
    exact (by decide : (1 : UInt8) ≠ 0)
  unfold Pool.place Placement.placeRedundancy Kcore.placeRedundancy
  simp only [List.map_cons, List.map_nil, placeLoop_pinned (hpin _) key key']

theorem place_pin (hmap : p.poolMap = poolMapOf (List.replicate fillDisks .hdd)) (k : Nat) (key : UInt64) :
    p.place MetaStore.listOrder (pinScheme k) key = .ok [diskId (k % fillDisks)] := by
  have hall : ∀ d < fillDisks, place MetaStore.listOrder ⟨poolMapOf (List.replicate fillDisks .hdd), ∅, freshStore fillDisks⟩
      (.replicated [.pinned (diskId d)]) 0 = .ok [diskId d] := by decide +kernel
  have hplace := hall (k % fillDisks) (Nat.mod_lt _ (by decide))
  rw [pinScheme, place_pinned_key p _ key 0, ← hplace]
  unfold Pool.place
  rw [hmap]

theorem decode_pin (k : Nat) : decodeSetRedundancy (encodeSetRedundancy (pinScheme k)) = some (pinScheme k) := by
  have hall : ∀ d < fillDisks, decodeSetRedundancy (encodeSetRedundancy (.replicated [.pinned (diskId d)])) =
      some (.replicated [.pinned (diskId d)]) := by decide +kernel
  exact hall (k % fillDisks) (Nat.mod_lt _ (by decide))

/-- A session that has filled `k` blocks of a file with ones. -/
structure Filled (k : Nat) (w : World) (p : Pool) (trace : List (Request × Res Errno Reply)) : Prop where
  session : Session fillDisks w p trace
  slotted : ∀ e ∈ trace, e.1.Slotted
  content_eq : contents trace 2 = List.replicate (k * blockLen) 1
  mode : modeOf p 2 = some .appendOnly
  poolMap_eq : p.poolMap = poolMapOf (List.replicate fillDisks .hdd)
  cursor : ∀ d < fillDisks, p.disks[diskId d]? = some ⟨d, (k + 16 - d) / 17 * (blockLen + Segment.headerLen)⟩
  log : p.metaStore.walCursor ≤ 1000 + k * 200

/-- Setting the policy for the next block. -/
theorem Filled.pin {k : Nat} (hf : Filled k w p trace) (hk : k ≤ 2 ^ 15) : ∃ w₁ p₁ rec,
    Session fillDisks w₁ p₁ (trace ++ [(pinRequest k, .ok (.ioctl []))]) ∧ p₁.metaStore.view.Has 2 rec ∧
    rec.mode = .appendOnly ∧ rec.redundancy = pinScheme k ∧ p₁.poolMap = p.poolMap ∧ p₁.disks = p.disks ∧
    p₁.metaStore.walCursor ≤ p.metaStore.walCursor + 100 := by
  have hcap : 1000 + (2 ^ 15 + 1) * 200 ≤ Wal.walCapacityBytes := by decide
  have hlog := hf.log
  obtain ⟨hi, -, -⟩ := hf.session.accounted hf.slotted (by omega)
  obtain ⟨rec, hget, hmode⟩ := modeOf_eq_some.mp hf.mode
  obtain ⟨hhas, -⟩ := hi.records.of_getInode (Res.mapErr_eq_ok.mp hget)
  have hlen : (MetaStore.opFrame MetaStore.listOrder (.setRedundancyScheme 2 (pinScheme k))).length ≤ 100 := by
    rw [MetaStore.opFrame, Wal.length_buildFrame]
    simp [Codec.encodeOp, Codec.encodeRedundancyScheme, Codec.encodeReplicaSlot, Codec.Enc.u8, Codec.Enc.u32,
      Codec.Enc.u64, Codec.Enc.u128, Codec.encodeUuid, Codec.Enc.list, Wal.headerLen, pinScheme]
  obtain ⟨w₁, s₁, hset, hcursor, hhas₁⟩ :=
    setRedundancy_healthy hi hhas (Nat.le_trans (Nat.add_le_add_left hlen _) (by omega))
  refine ⟨w₁, { p with metaStore := s₁ }, _, hf.session.serve MetaStore.listOrder (pinRequest k) ?_ (by simp), hhas₁, hmode,
    rfl, rfl, rfl, by show s₁.walCursor ≤ _; omega⟩
  show ioctl _ 2 tartineIocSetRedundancy _ (w, p) = _
  unfold ioctl
  rw [if_neg (by decide), if_neg (by decide), if_pos rfl]
  refine (Action.bind_of_ok (a := pinScheme k) (Action.reads_eq_ok.mpr ⟨?_, rfl⟩)).trans ?_
  · rw [decode_pin]
    rfl
  · exact (Action.bind_of_ok (Action.mapErr_eq_ok.mpr hset)).trans rfl

theorem slotted_pin (k : Nat) : (pinRequest k).Slotted := by
  intro _
  rw [decode_pin]
  simp [pinScheme]

theorem diskId_inj : ∀ d < fillDisks, ∀ d' < fillDisks, diskId d = diskId d' → d = d' := by decide

/-- A write at the end of an append-only file is an append. -/
theorem write_of_append {rec : InodeRecord} {data : Bytes} (hhas : p.metaStore.view.Has i rec)
    (hmode : rec.mode = .appendOnly) (happend : Pool.append env i data (w, p) = (.ok (), w', p')) :
    handle env (.write i rec.size data) (w, p) = (.ok (.written (UInt32.ofNat data.length)), w', p') := by
  have hrec : inodeOf i (w, p) = (.ok rec, w, p) := by
    refine Action.reads_eq_ok.mpr ⟨?_, rfl⟩
    dsimp only
    rw [getInode_of_view hhas.getInode_eq]
  refine (Action.bind_of_ok hrec).trans ?_
  rw [classifyWrite_eq, hmode]
  dsimp only
  rw [if_pos rfl]
  exact (Action.bind_of_ok (Action.mapErr_eq_ok.mpr happend)).trans rfl

/-- One more block, at the end of the file. -/
theorem Filled.next {k : Nat} (hf : Filled k w p trace) (hk : k < 2 ^ 15) : ∃ w' p' trace', Filled (k + 1) w' p' trace' := by
  have hcap : 1000 + (2 ^ 15 + 1) * 200 ≤ Wal.walCapacityBytes := by decide
  have hlog := hf.log
  obtain ⟨w₁, p₁, rec, hs₁, hhas, hmode, hscheme, hmap, hdisks, hcursor⟩ := hf.pin (by omega)
  have hslots₁ : ∀ e ∈ trace ++ [(pinRequest k, .ok (.ioctl []))], e.1.Slotted :=
    List.forall_mem_append.mpr ⟨hf.slotted, List.forall_mem_singleton.mpr (slotted_pin k)⟩
  obtain ⟨hi, hg, -⟩ := hs₁.accounted hslots₁ (by omega)
  have hsame : contents (trace ++ [(pinRequest k, .ok (.ioctl []))]) 2 = List.replicate (k * blockLen) 1 := by
    rw [contents_of_not_write (show ¬(pinRequest k).IsWrite from fun hw => hw), hf.content_eq]
  obtain ⟨hsize, -⟩ := read_of_grown hg hhas (by rw [hmode]; simp)
  rw [hsame, List.length_replicate] at hsize
  have hchunks : ∃ chunks, rec.data = .chunkLog chunks := by
    obtain ⟨-, hsound⟩ := hg.records.of_readInode hhas.readInode_eq
    have hlays := (hsound (by rw [hmode]; simp)).lays
    rw [hmode] at hlays
    generalize rec.data = data at hlays
    generalize contents _ rec.inode = content at hlays
    cases hlays with
    | chunkLog _ _ => exact ⟨_, rfl⟩
  obtain ⟨chunks, hdata⟩ := hchunks
  have hd : k % fillDisks < fillDisks := Nat.mod_lt _ (by decide)
  have hid := hf.cursor (k % fillDisks) hd
  rw [← hdisks] at hid
  have hlen : (List.replicate blockLen (1 : UInt8)).length = blockLen := List.length_replicate
  -- the blocks go to the disks in turn; each disk has taken every seventeenth of them
  have hroom : (k + 16 - k % 17) / 17 * (2 ^ 17 + 28) + (28 + 2 ^ 17) ≤ 2 ^ 28 := by omega
  have hend : k * 2 ^ 17 + 2 ^ 32 < 2 ^ 64 := by omega
  obtain ⟨w₂, s₂, rec', happend, hcursor₂, hhas', hmode', -⟩ := append_healthy hi hhas hmode hdata
    (by rw [hscheme]; exact place_pin (hmap.trans hf.poolMap_eq) k _) hid (by rw [hlen]; exact hroom)
    (by rw [hsize]; exact hend) (by omega)
  have hserve := write_of_append hhas hmode happend
  rw [show rec.size = UInt64.ofNat (k * blockLen) by rw [← hsize, UInt64.ofNat_toNat]] at hserve
  rw [hlen] at hserve
  refine ⟨_, _, _, hs₁.serve MetaStore.listOrder (blockRequest k) hserve (by simp), ?_, ?_, ?_, ?_, ?_, ?_⟩
  · exact List.forall_mem_append.mpr ⟨hslots₁, List.forall_mem_singleton.mpr trivial⟩
  · rw [blockRequest, contents_write, Function.update_self, hsame, List.replicate_append_replicate, Nat.succ_mul]
  · exact modeOf_eq_some.mpr ⟨rec', getInode_of_view hhas'.getInode_eq, hmode'⟩
  · exact hmap.trans hf.poolMap_eq
  · intro d hd'
    have hid' := hf.cursor d hd'
    rw [← hdisks] at hid'
    show (p₁.moveCursor _ _ _).disks[diskId d]? = _
    rw [moveCursor_disks]
    by_cases hsame : d = k % fillDisks
    · subst hsame
      have hnext : (k + 16 - k % 17) / 17 * (2 ^ 17 + 28) + (28 + 2 ^ 17) = (k + 1 + 16 - k % 17) / 17 * (2 ^ 17 + 28) := by
        omega
      rw [if_pos rfl]
      exact congrArg (fun c => some (DiskHandle.mk _ c)) hnext
    · have hnext : (k + 16 - d) / 17 * (2 ^ 17 + 28) = (k + 1 + 16 - d) / 17 * (2 ^ 17 + 28) := by
        have hlt : d < 17 := hd'
        have hne : d ≠ k % 17 := hsame
        omega
      rw [if_neg (fun h => hsame (diskId_inj _ hd _ hd' h).symm), hid']
      exact congrArg (fun c => some (DiskHandle.mk _ c)) hnext
  · show s₂.walCursor ≤ _
    omega

/-- The pool just formatted, with an empty file. -/
def emptySession : List (Request × Res Errno Reply) × World × Pool :=
  let out := formatWithClasses (Env.healthy MetaStore.listOrder) (World.blank 0) fillDisks (List.replicate fillDisks .hdd) 0
  serveAll (Env.healthy MetaStore.listOrder) [.create rootInode [97] 0o644 0 0 0]
    (out.2.1, out.2.2.getD ⟨poolMapOf [], ∅, freshStore 1⟩)

theorem filled_zero : Filled 0 emptySession.2.1 emptySession.2.2 emptySession.1 := by
  have hs : Session fillDisks emptySession.2.1 emptySession.2.2 ([] ++ emptySession.1) :=
    Session.serveAll (.mount MetaStore.listOrder (show formatWithClasses (Env.healthy MetaStore.listOrder) (World.blank 0)
      fillDisks (List.replicate fillDisks .hdd) 0 = (.ok (), _, some _) from rfl)) rfl (by decide +kernel)
  rw [List.nil_append] at hs
  exact ⟨hs, by decide +kernel, by decide +kernel, by decide +kernel, rfl, by decide +kernel, by decide +kernel⟩

/-- **Run lemma.** -/
theorem exists_filled {k : Nat} (hk : k ≤ 2 ^ 15) : ∃ w p trace, Filled k w p trace := by
  induction k with
  | zero => exact ⟨_, _, _, filled_zero⟩
  | succ k ih =>
      obtain ⟨w, p, trace, hf⟩ := ih (by omega)
      exact hf.next (by omega)

theorem window_replicate {k : Nat} (b : UInt8) (hk : 3 ≤ k) : window (List.replicate k b) 0 3 = [b, b, b] := by
  show ((List.replicate k b).drop 0).take 3 = _
  rw [List.drop_zero, List.take_replicate, Nat.min_eq_left hk]
  rfl

/-- A file of `2^32` bytes, written in blocks of 128 KiB over 17 disks, is converted: it was all ones, the request
    replies Ok, and the file reads as zeros. -/
theorem conversion_zeroes_file : ∃ w p trace w' p' rec rec', Session fillDisks w p trace ∧ (∀ e ∈ trace, e.1.Slotted) ∧
    handle (Env.healthy MetaStore.listOrder) convertRequest (w, p) = (.ok (.ioctl []), w', p') ∧
    p'.metaStore.walCursor ≤ Wal.walCapacityBytes ∧ p.getInode 2 = .ok (some rec) ∧ rec.mode = .appendOnly ∧
    p'.getInode 2 = .ok (some rec') ∧ rec'.mode = .writable ∧
    p.read w 2 0 3 = .ok [1, 1, 1] ∧ p'.read w' 2 0 3 = .ok [0, 0, 0] := by
  obtain ⟨w₀, p₀, trace₀, hf⟩ := exists_filled (Nat.le_refl (2 ^ 15))
  have hcap : 1000 + (2 ^ 15 + 2) * 200 ≤ Wal.walCapacityBytes := by decide
  have hlog := hf.log
  obtain ⟨w, p, rec, hs, hhas, hmode, hscheme, hmap, hdisks, hcursor⟩ := hf.pin (Nat.le_refl _)
  have hslots : ∀ e ∈ trace₀ ++ [(pinRequest (2 ^ 15), .ok (.ioctl []))], e.1.Slotted :=
    List.forall_mem_append.mpr ⟨hf.slotted, List.forall_mem_singleton.mpr (slotted_pin _)⟩
  obtain ⟨hi, hg, -⟩ := hs.accounted hslots (by omega)
  have hcontent : contents (trace₀ ++ [(pinRequest (2 ^ 15), .ok (.ioctl []))]) 2 = List.replicate (2 ^ 32) 1 := by
    rw [contents_of_not_write (show ¬(pinRequest _).IsWrite from fun hw => hw), hf.content_eq,
      show 2 ^ 15 * blockLen = 2 ^ 32 from rfl]
  generalize htrace : trace₀ ++ [(pinRequest (2 ^ 15), .ok (.ioctl []))] = trace at hs hslots hg hcontent
  -- the conversion begins
  obtain ⟨w₁, s₁, hbegin, hcursor₁, hhas₁⟩ :=
    beginConvert_healthy MetaStore.listOrder (w := w) hi hhas hmode (by omega)
  have hcall₁ : Pool.step (Env.healthy MetaStore.listOrder) (.beginConvert 2) (w, p) =
      (.ok .unit, w₁, { p with metaStore := s₁ }) := Action.bind_of_ok hbegin
  have hfit₁ := fits_of_cursor_le hi.wf hcall₁ (by simp) (by show s₁.walCursor ≤ _; omega)
  have hi₁ := hi.step hfit₁ hcall₁ (by simp)
  have hg₁ : Grown w₁ { p with metaStore := s₁ } (contents trace) :=
    hg.step hi (show SchemeOk (.beginConvert 2) from trivial) hfit₁ hcall₁ (by simp)
  -- and completes
  obtain ⟨-, hsound⟩ := hg₁.records.of_readInode hhas₁.readInode_eq
  have hsound := hsound (by simp)
  rw [show contents trace rec.inode = List.replicate (2 ^ 32) 1 by rw [hhas.inode_eq]; exact hcontent] at hsound
  have hid := hf.cursor (2 ^ 15 % fillDisks) (by decide)
  rw [← hdisks] at hid
  obtain ⟨w', p', hcomplete, hcursor'⟩ := completeConvert_healthy MetaStore.listOrder hi₁ hhas₁ rfl hsound
    (by rw [Ne, List.replicate_eq_nil_iff]; decide)
    (by show Pool.place _ _ rec.redundancy _ = _; rw [hscheme]; exact place_pin (hmap.trans hf.poolMap_eq) (2 ^ 15) _) hid
    (by rw [List.length_replicate]; decide) (by show s₁.walCursor + _ ≤ _; omega)
  have hcall₂ : Pool.step (Env.healthy MetaStore.listOrder) (.completeConvert 2) (w₁, { p with metaStore := s₁ }) =
      (.ok .unit, w', p') := Action.bind_of_ok hcomplete
  have hlog' : p'.metaStore.walCursor ≤ Wal.walCapacityBytes := by
    have hle : p'.metaStore.walCursor ≤ s₁.walCursor + 100 := hcursor'
    omega
  have hfit₂ := fits_of_cursor_le hi₁.wf hcall₂ (by simp) hlog'
  obtain ⟨rec', hhas', hmode', hread'⟩ := readFullContent_completed hi₁ hfit₂ hhas₁ hsound hcall₂
  have hserve : handle (Env.healthy MetaStore.listOrder) convertRequest (w, p) = (.ok (.ioctl []), w', p') := by
    show ioctl _ 2 tartineIocMakeWritable [1, 0, 0, 0] (w, p) = _
    unfold ioctl
    rw [if_pos rfl, if_neg (by decide)]
    refine (Action.bind_of_ok (Action.mapErr_eq_ok.mpr hbegin)).trans ?_
    rw [if_pos (by decide)]
    exact (Action.bind_of_ok (Action.mapErr_eq_ok.mpr hcomplete)).trans rfl
  refine ⟨w, p, trace, w', p', rec, rec', hs, hslots, hserve, hlog', getInode_of_view hhas.getInode_eq, hmode,
    getInode_of_view hhas'.getInode_eq, hmode', ?_, ?_⟩
  · obtain ⟨-, hread⟩ := read_of_grown hg hhas (by rw [hmode]; simp)
    rw [hread, hcontent, window_replicate _ (by decide)]
  · have hzero : narrowed (List.replicate (2 ^ 32) 1) = List.replicate (2 ^ 32) 0 := by
      rw [narrowed, List.length_replicate, Nat.mod_self, List.take_zero, List.nil_append, Nat.sub_zero]
    rw [hzero] at hread'
    rw [read_of_content hhas' hread' (by rw [List.length_replicate]; decide), window_replicate _ (by decide)]

end Tartine.Fuse
