import Tartine.Fuse.Restart

/-!
# `Fuse.Durable` — what clients were told of a file stays true

A client is told bytes of a file when a write of them is granted, and when a read returns them. In a history of the daemon
without whole-file extents (`Fuse.Restart`) no byte it was told ever changes, and no number is given to a second file:
whatever happens in between, crashes and mounts included, and also after the file has lost its name.

* `FileSystem.Grows` — the contents of a file system only grow: what one act keeps;
* `told_stays` — so every later read returns what was told;
* `numbers_differ` — and a file that is created is another than those before.
-/

namespace Tartine.Fuse

open Basis Codec Pool

variable {env : Env} {ord : IterOrder} {w w' : World} {p p' q : Pool} {s s' : FileSystem} {n : Nat} {ino i : InodeId}
  {f : File} {req : Request} {r : Res Errno Reply} {acts : List Act}

/-! ## What one act keeps -/

namespace FileSystem

/-- Every file is there, with its bytes and perhaps more. -/
def Grows (s s' : FileSystem) : Prop := ∀ i f, s.file i = some f → ∃ f', s'.file i = some f' ∧ f.content <+: f'.content

theorem Grows.refl (s : FileSystem) : s.Grows s := fun _ f hf => ⟨f, hf, List.prefix_rfl⟩

/-- A write that is granted and no overwrite is at the end. -/
theorem written_eq_ok {offset : UInt64} {data content : Bytes} (hmode : f.mode ≠ .writable)
    (h : f.written offset data = .ok content) : offset.toNat = f.content.length ∧ content = f.content ++ data := by
  unfold File.written at h
  cases hm : f.mode with
  | appendOnly =>
      rw [hm] at h
      by_cases hend : offset.toNat = f.content.length
      · simp only [if_pos hend, Res.ok.injEq] at h
        exact ⟨hend, h.symm⟩
      · simp [if_neg hend] at h
  | converting =>
      rw [hm] at h
      by_cases hend : offset.toNat = f.content.length
      · simp only [if_pos hend, Res.ok.injEq] at h
        exact ⟨hend, h.symm⟩
      · simp [if_neg hend] at h
  | writable => exact absurd hm hmode

/-- **A plain request lets every file grow**, as long as the next number is free. -/
theorem Serves.grows (h : s.Serves n (req, r) s') (hplain : req.Plain) (honly : s.OnlyRoot) (hfree : s.file s.next = none) :
    s.Grows s' := by
  intro i f hf
  have hbecame := h.became i
  generalize s'.file i = stands at hbecame ⊢
  cases hbecame with
  | same => exact ⟨f, hf, List.prefix_rfl⟩
  | created hi =>
      subst hi
      cases hfree.symm.trans hf
  | @written offset data content g hg hwrite =>
      obtain rfl := Option.some.inj (hf.symm.trans hg)
      obtain ⟨-, rfl⟩ := written_eq_ok (fun hmode => hplain (honly i f hf hmode)) hwrite
      exact ⟨_, rfl, List.prefix_append _ _⟩
  | @converted inData mode g hg hmode =>
      obtain rfl := Option.some.inj (hf.symm.trans hg)
      exact ⟨_, rfl, List.prefix_rfl⟩
  | @policed inData scheme g hg hdecode =>
      obtain rfl := Option.some.inj (hf.symm.trans hg)
      exact ⟨_, rfl, List.prefix_rfl⟩

theorem Leaves.grows (h : s.Leaves n req s') (hplain : req.Plain) (honly : s.OnlyRoot) (hfree : s.file s.next = none) :
    s.Grows s' := by
  cases h with
  | nothing => exact .refl s
  | all hreq => exact (Serves.granted hreq).grows hplain honly hfree
  | unnamed hreq => exact (Serves.granted hreq).grows hplain honly hfree

end FileSystem

/-! ## What was told, and what was made -/

/-- The act told a client that these bytes are in the file, at this offset. -/
inductive Act.Told : Act → InodeId → Nat → Bytes → Prop where
  | written {ino offset data reply} : Told (.serve (.write ino offset data) (.ok reply)) ino offset.toNat data
  | read {ino offset size bytes} : Told (.serve (.read ino offset size) (.ok (.data bytes))) ino offset.toNat bytes

/-- The act made a file of this number. -/
inductive Act.Made : Act → InodeId → Prop where
  | created {parent name mode uid gid now attr} :
      Made (.serve (.create parent name mode uid gid now) (.ok (.created attr))) attr.ino

namespace FileSystem

/-- These bytes are in the file, at this offset. -/
def Stands (s : FileSystem) (ino : InodeId) (offset : Nat) (bytes : Bytes) : Prop :=
  ∃ f, s.file ino = some f ∧ bytes <+: f.content.drop offset

theorem Stands.grows {offset : Nat} {bytes : Bytes} (h : s.Stands ino offset bytes) (hgrows : s.Grows s') :
    s'.Stands ino offset bytes := by
  obtain ⟨f, hf, hbytes⟩ := h
  obtain ⟨f', hf', hinit⟩ := hgrows ino f hf
  exact ⟨f', hf', hbytes.trans (hinit.drop offset)⟩

/-- What is told is so. -/
theorem Serves.told {offset : Nat} {bytes : Bytes} (h : s.Serves n (req, r) s') (hplain : req.Plain) (honly : s.OnlyRoot)
    (htold : (Act.serve req r).Told ino offset bytes) : s'.Stands ino offset bytes := by
  cases htold with
  | written =>
      cases h with
      | granted hreq =>
          obtain ⟨f, hf, hreq⟩ := Res.bind_eq_ok.mp hreq
          obtain ⟨content, hwrite, hreq⟩ := Res.bind_eq_ok.mp hreq
          obtain ⟨-, rfl⟩ := Prod.mk.inj (Res.ok.inj hreq)
          have hfile := find_eq_ok hf
          obtain ⟨hend, rfl⟩ := written_eq_ok (fun hmode => hplain (honly ino f hfile hmode)) hwrite
          refine ⟨f.setContent (f.content ++ bytes), by simp [hfile], ?_⟩
          rw [hend]
          simp [File.setContent]
  | read =>
      cases h with
      | granted hreq =>
          obtain ⟨f, hf, hreq⟩ := Res.bind_eq_ok.mp hreq
          obtain ⟨hdata, rfl⟩ := Prod.mk.inj (Res.ok.inj hreq)
          refine ⟨f, find_eq_ok hf, ?_⟩
          rw [← Reply.data.inj hdata]
          exact List.take_prefix _ _

/-- A file that is made has the next number. -/
theorem Serves.made (h : s.Serves n (req, r) s') (hmade : (Act.serve req r).Made ino) :
    ino = s.next ∧ (s'.file ino).isSome := by
  cases hmade with
  | created =>
      cases h with
      | granted hreq =>
          obtain ⟨name', -, hreq⟩ := Res.bind_eq_ok.mp hreq
          split at hreq
          · cases hreq
          · obtain ⟨hattr, rfl⟩ := Prod.mk.inj (Res.ok.inj hreq)
            rw [← Reply.created.inj hattr]
            exact ⟨rfl, by simp [File.attr]⟩

end FileSystem

/-! ## Histories -/

/-- Everything these acts told is so, and everything they made is there. -/
structure Remembers (acts : List Act) (s : FileSystem) : Prop where
  told : ∀ act ∈ acts, ∀ ino offset bytes, act.Told ino offset bytes → s.Stands ino offset bytes
  made : ∀ act ∈ acts, ∀ ino, act.Made ino → (s.file ino).isSome

theorem Remembers.snoc {act : Act} (h : Remembers acts s) (hgrows : s.Grows s')
    (htold : ∀ ino offset bytes, act.Told ino offset bytes → s'.Stands ino offset bytes)
    (hmade : ∀ ino, act.Made ino → (s'.file ino).isSome) : Remembers (acts ++ [act]) s' := by
  refine ⟨List.forall_mem_append.mpr ⟨fun a ha ino offset bytes hold => ?_, List.forall_mem_singleton.mpr htold⟩,
    List.forall_mem_append.mpr ⟨fun a ha ino hold => ?_, List.forall_mem_singleton.mpr hmade⟩⟩
  · exact (h.told a ha ino offset bytes hold).grows hgrows
  · obtain ⟨f, hf⟩ := Option.isSome_iff_exists.mp (h.made a ha ino hold)
    obtain ⟨f', hf', -⟩ := hgrows ino f hf
    rw [hf']
    rfl

/-- The next number is free. -/
theorem Mirrors.next_free (hm : Mirrors n w p s) : s.file s.next = none := by
  cases hm.find s.next with
  | absent hget hfile => exact hfile
  | file hget hfile hrec hhas hsound =>
      have hbelow := hm.sound.keys s.next (by simp [hhas.entry_eq])
      rw [hm.next] at hbelow
      exact absurd hbelow (lt_irrefl _)

/-- **Step lemma.** -/
theorem Remembers.endures {t t' : FileSystem × Bool} {a : World × Option Pool} {act : Act} (hreflects : Reflects n a t)
    (h : Remembers acts t.1) (hstep : Endures n t act t') (hadmitted : act.Admitted) : Remembers (acts ++ [act]) t'.1 := by
  have hsilent : (∀ ino offset bytes, ¬act.Told ino offset bytes) → (∀ ino, ¬act.Made ino) → t.1.Grows t'.1 →
      Remembers (acts ++ [act]) t'.1 := fun htold hmade hgrows =>
    h.snoc hgrows (fun ino offset bytes hnot => absurd hnot (htold _ _ _)) (fun ino hnot => absurd hnot (hmade _))
  cases hstep with
  | serve hserves =>
      cases hreflects with
      | up hlive =>
          refine h.snoc (hserves.grows hadmitted.1 hlive.onlyRoot hlive.mirrors.next_free) ?_ ?_
          · exact fun ino offset bytes htold => hserves.told hadmitted.1 hlive.onlyRoot htold
          · exact fun ino hmade => (hserves.made hmade).2
  | crash hleaves =>
      cases hreflects with
      | up hlive =>
          refine hsilent (fun _ _ _ htold => by cases htold) (fun _ hmade => by cases hmade) ?_
          exact hleaves.grows hadmitted.1 hlive.onlyRoot hlive.mirrors.next_free
  | stop => exact hsilent (fun _ _ _ htold => by cases htold) (fun _ hmade => by cases hmade) (.refl _)
  | restart => exact hsilent (fun _ _ _ htold => by cases htold) (fun _ hmade => by cases hmade) (.refl _)

/-- **Run lemma**, up to a request that is served next. -/
theorem remembered {a : World × Option Pool} (hrun : (service n).Run (acts ++ [.serve req r]) a)
    (hadmitted : ∀ act ∈ acts ++ [.serve req r], act.Admitted) :
    ∃ s s' w p, Remembers acts s ∧ Mirrors n w p s ∧ s.Serves n (req, r) s' := by
  obtain ⟨b, hbefore, hstep⟩ := hrun.of_snoc
  obtain ⟨hacts, hlast⟩ := List.forall_mem_append.mp hadmitted
  obtain ⟨t, -, hreflects, hremembers⟩ := (service_simulates n).history (I := fun acts t => Remembers acts t.1)
    (fun _ _ _ _ _ _ _ => trivial) (fun t _ => ⟨by simp, by simp⟩)
    (fun acts a t act t' hreflects hI hN hP => hI.endures hreflects hN hP) hbefore trivial hacts
  obtain ⟨hplain, hrange⟩ := List.forall_mem_singleton.mp hlast
  cases hstep with
  | serve h hroom =>
      cases hreflects with
      | up hlive =>
          unfold Roomy at hroom
          rw [h] at hroom
          obtain ⟨-, s', hserves, -⟩ := hlive.serve hplain hrange h hroom
          exact ⟨_, s', _, _, hremembers, hlive.mirrors, hserves⟩

/-- **What a client was told stays true.** Bytes that a write was granted with or a read returned are read again, at the
    same offset, whatever was done since. -/
theorem told_stays {a : World × Option Pool} {act : Act} {offset : UInt64} {size : UInt32} {bytes : Bytes}
    (hrun : (service n).Run (acts ++ [.serve (.read ino offset size) r]) a)
    (hadmitted : ∀ act ∈ acts ++ [.serve (.read ino offset size) r], act.Admitted) (hact : act ∈ acts)
    (htold : act.Told ino offset.toNat bytes) (hsize : bytes.length ≤ size.toNat) :
    ∃ again, r = .ok (.data again) ∧ bytes <+: again := by
  obtain ⟨s, s', w, p, hremembers, -, hserves⟩ := remembered hrun hadmitted
  obtain ⟨f, hf, hbytes⟩ := hremembers.told act hact ino _ bytes htold
  have hreq : s.request n (.read ino offset size) = .ok (.data (window f.content offset size.toUInt64), s) := by
    simp [FileSystem.request, find_file hf]
  cases hserves with
  | granted hgranted =>
      obtain ⟨rfl, -⟩ := Prod.mk.inj (Res.ok.inj (hgranted.symm.trans hreq))
      refine ⟨_, rfl, List.prefix_take_iff.mpr ⟨hbytes, ?_⟩⟩
      simpa using hsize
  | refused hrefused => cases hrefused.symm.trans hreq

/-- **No number is given twice**, whatever crashes lie between. -/
theorem numbers_differ {a : World × Option Pool} {act last : Act} {i j : InodeId}
    (hrun : (service n).Run (acts ++ [last]) a) (hadmitted : ∀ act ∈ acts ++ [last], act.Admitted) (hact : act ∈ acts)
    (hmade : act.Made i) (hlast : last.Made j) : i ≠ j := by
  cases hlast with
  | created =>
      obtain ⟨s, s', w, p, hremembers, hm, hserves⟩ := remembered hrun hadmitted
      rintro rfl
      have hthere := hremembers.made act hact _ hmade
      rw [(hserves.made .created).1, hm.next_free] at hthere
      cases hthere

/-! ## After a crash -/

/-- The theorem at a read after the first mount. -/
theorem told_stays_revived : (∃ a, (service 1).Run (revived ++ [.serve (.read 2 0 9) (.ok (.data [1, 2, 3, 4]))]) a) ∧
    ∃ again, (.ok (.data [1, 2, 3, 4]) : Res Errno Reply) = .ok (.data again) ∧ [1, 2, 3] <+: again := by
  have hacts : (performAll (cues.take 5) (onDisk.1, some onDisk.2)).map Prod.fst =
      some (revived ++ [.serve (.read 2 0 9) (.ok (.data [1, 2, 3, 4]))]) := by decide +kernel
  obtain ⟨a, hrun⟩ := run_of_cues hacts
  have hwritten : Act.serve (.write 2 0 [1, 2, 3]) (.ok (.written 3)) ∈ revived := by simp [revived]
  exact ⟨⟨a, hrun⟩, told_stays hrun (by decide +kernel) hwritten .written (by simp)⟩

/-- A second file. -/
def second : Act :=
  .serve (.create rootInode [98] 0o644 0 0 9) (.ok (.created ⟨3, 0, 0, 9, .regularFile, 0o644, 0, 0⟩))

/-- The theorem at that file. -/
theorem numbers_differ_revived : (∃ a, (service 1).Run (revived ++ [second]) a) ∧ (2 : InodeId) ≠ 3 := by
  have hacts : (performAll (cues.take 4 ++ [.serve (.create rootInode [98] 0o644 0 0 9)]) (onDisk.1, some onDisk.2)).map
      Prod.fst = some (revived ++ [second]) := by decide +kernel
  obtain ⟨a, hrun⟩ := run_of_cues hacts
  have hfirst : Act.serve (.create rootInode [97] 0o644 0 0 7)
      (.ok (.created ⟨2, 0, 0, 7, .regularFile, 0o644, 0, 0⟩)) ∈ revived := by simp [revived]
  exact ⟨⟨a, hrun⟩, numbers_differ hrun (by decide +kernel) hfirst .created .created⟩

end Tartine.Fuse
