import Tartine.Fuse.Fs
import Tartine.Meta.PoolPolicy

/-!
# `Fuse.Policies` — an acknowledged write is stored as its file's policy says

A policy reaches the replica loop through a wire decoder, the metadata store and the placement wrapper. What the decoder
accepts has at most sixteen slots, so placement serves every one of them; but the decoder accepts a policy of no slots as
well, and then the loop writes nothing and the chunk pointer is committed all the same.

* `acknowledged_write_stored` — in every run in which no file is given a policy without slots;
* `empty_policy_loses_write` — what happens to a file that is.
-/

namespace Tartine

open Basis

namespace Pool

/-- A policy the control interface has accepted for a file, or the one every file starts with. -/
def Accepted (scheme : RedundancyScheme) : Prop :=
  (∃ diskCount, scheme = Fuse.defaultRedundancy diskCount) ∨
  ∃ buf slots, Fuse.decodeSetRedundancy buf = some scheme ∧ scheme = .replicated slots

theorem Accepted.slots {scheme : RedundancyScheme} (h : Accepted scheme) :
    ∃ slots, scheme = .replicated slots ∧ slots.length ≤ 16 := by
  rcases h with ⟨diskCount, rfl⟩ | ⟨buf, slots, hdecode, rfl⟩
  · refine ⟨_, rfl, ?_⟩
    rw [List.length_replicate]
    omega
  · exact ⟨slots, rfl, Fuse.decodeSetRedundancy_slots hdecode⟩

/-- What a call stores, and for which file. -/
inductive Stores (w : World) (p : Pool) : PoolOp → InodeId → Bytes → Prop where
  | append {inode payload} : Stores w p (.append inode payload) inode payload
  | completeConvert {inode redundancy content} (h : p.planCompleteConvert w inode = .ok (redundancy, content)) :
      Stores w p (.completeConvert inode) inode content
  | write {inode offset data redundancy content} (h : p.planWrite w inode offset data = .ok (redundancy, content)) :
      Stores w p (.write inode offset data) inode content

/-- Replicas of `content` as a policy wants them: one per slot and at least one, on different disks that meet the slots,
    each with the bytes, and their checksum recorded. -/
structure Kept (a : World × Pool) (slots : List ReplicaSlot) (headerLen : Nat) (content : Bytes)
    (replicas : List (DiskId × UInt64)) (checksum : UInt32) : Prop where
  nonempty : replicas ≠ []
  meets : List.Forall₂ (fun slot r => slot.MetBy a.2.poolMap r.1) slots replicas
  distinct : (replicas.map Prod.fst).Nodup
  stored : ∀ r ∈ replicas, Stored a headerLen content r
  checksum_eq : checksum = Crc32c.checksum content

/-- The chunk or extent a call recorded for `content`. -/
inductive Recorded (a : World × Pool) (slots : List ReplicaSlot) : PoolOp → DataLocator → Bytes → Prop where
  | chunk {inode payload chunks chunk} (hlen : chunk.len = UInt32.ofNat payload.length)
      (hkept : Kept a slots Segment.headerLen payload chunk.replicas chunk.checksum) :
      Recorded a slots (.append inode payload) (.chunkLog (chunks ++ [chunk])) payload
  | empty {op} : Recorded a slots op (.extents []) []
  | extent {op x content} (hlen : x.len = UInt32.ofNat content.length)
      (hkept : Kept a slots 0 content x.replicas x.checksum) : Recorded a slots op (.extents [x]) content

variable {env : Env} {w w' w₁ : World} {p p' p₁ : Pool} {s' : MetaStore} {op : PoolOp} {mop : MetaOp} {n : Nat}
  {slots : List ReplicaSlot} {replicas : List (DiskId × UInt64)}

/-- What the replica loop stored on the disks a policy was placed on. -/
theorem kept_of_place {key : UInt64} {ids : List DiskId} {headerLen : Nat} {content : Bytes}
    (hpool : p.poolMap.disks.size < 2 ^ 32 - 1) (hfew : slots.length ≤ 16) (hslots : slots ≠ [])
    (hplace : p.place env.ord (.replicated slots) key = .ok ids) (hids : replicas.map Prod.fst = ids)
    (hmap : p₁.poolMap = p.poolMap) (hstored : ∀ r ∈ replicas, Stored (w₁, p₁) headerLen content r) :
    Kept (w₁, p₁) slots headerLen content replicas (Crc32c.checksum content) := by
  obtain ⟨hmeets, hnodup⟩ := place_meets hpool hfew hplace
  subst hids
  refine ⟨ne_nil_of_place (by simpa using hslots) hplace rfl, ?_, hnodup, hstored, rfl⟩
  rw [show (w₁, p₁).2.poolMap = p.poolMap from hmap]
  exact List.forall₂_map_right_iff.mp hmeets

theorem Kept.mono {headerLen : Nat} {content : Bytes} {checksum : UInt32}
    (h : Kept (w₁, p₁) slots headerLen content replicas checksum) (hret : Retains (w₁, p₁) (w', p'))
    (hmap : p'.poolMap = p₁.poolMap) : Kept (w', p') slots headerLen content replicas checksum := by
  refine ⟨h.nonempty, ?_, h.distinct, fun r hr => (h.stored r hr).mono hret, h.checksum_eq⟩
  rw [show (w', p').2.poolMap = p₁.poolMap from hmap]
  exact h.meets

/-- What a rewrite recorded, as its metadata operation was handed over. -/
theorem recorded_of_rewrite {inode : InodeId} {plan : World → Pool → Res PoolError (RedundancyScheme × Bytes)}
    {mkOp : List Extent → MetaOp} (hpool : p.poolMap.disks.size < 2 ^ 32 - 1) (hfew : slots.length ≤ 16)
    (hslots : slots ≠ []) (hok : HandlesOk p) (hmap : p₁.poolMap = p.poolMap)
    (hplan : ∀ redundancy content, plan w p = .ok (redundancy, content) → redundancy = .replicated slots)
    (hx : prepareExtents env inode plan mkOp (w, p) = (.ok mop, w₁, p₁)) :
    ∃ redundancy content xs, plan w p = .ok (redundancy, content) ∧ mop = mkOp xs ∧
      Recorded (w₁, p₁) slots op (.extents xs) content := by
  obtain ⟨redundancy, content, hcontent, hend⟩ := prepareExtents_stores hok hx
  rcases hend with ⟨rfl, rfl⟩ | ⟨-, ids, replicas, hplace, hids, hstored, rfl⟩
  · exact ⟨redundancy, [], [], hcontent, rfl, .empty⟩
  · obtain rfl := hplan _ _ hcontent
    exact ⟨_, content, _, hcontent, rfl, .extent rfl (kept_of_place hpool hfew hslots hplace hids hmap hstored)⟩

theorem Recorded.mono {data : DataLocator} {content : Bytes} (h : Recorded (w₁, p₁) slots op data content)
    (hret : Retains (w₁, p₁) (w', p')) (hmap : p'.poolMap = p₁.poolMap) : Recorded (w', p') slots op data content := by
  cases h with
  | chunk hlen hkept => exact .chunk hlen (hkept.mono hret hmap)
  | empty => exact .empty
  | extent hlen hkept => exact .extent hlen (hkept.mono hret hmap)

/-- **The record a data phase leads to** describes what the phase has stored. -/
theorem recorded_of_phase {x : PoolM MetaOp} {inode : InodeId} {rec rec' : InodeRecord}
    (hpool : p.poolMap.disks.size < 2 ^ 32 - 1) (hfew : slots.length ≤ 16) (hslots : slots ≠ []) (hok : HandlesOk p)
    (hget : p.getInode inode = .ok (some rec)) (hscheme : rec.redundancy = .replicated slots)
    (hop : dataPhase env op = some x) (htarget : mop.target = some inode) (hx : x (w, p) = (.ok mop, w₁, p₁))
    (hstep : p₁.metaStore.view.RecStep mop rec') :
    ∃ content, Stores w p op inode content ∧ Recorded (w₁, p₁) slots op rec'.data content := by
  have hmap : p₁.poolMap = p.poolMap := by
    have hkeep := poolMap_dataPhase (w := w) (p := p) hop
    rwa [hx] at hkeep
  -- the plan of the phase reads the record again, and finds the same scheme
  have hfind : ∀ rec', p.findInode inode = .ok rec' → rec'.redundancy = .replicated slots := by
    intro rec' hfind
    unfold findInode at hfind
    rw [hget] at hfind
    obtain rfl := Res.ok.inj hfind
    exact hscheme
  cases dataPhase_cases hop with
  | @append _ payload =>
      obtain ⟨old, chunks, ids, replicas, hrec, -, -, hplace, hids, hstored, rfl⟩ := prepareAppend_stores hok hx
      obtain rfl := Option.some.inj htarget
      rw [hfind old hrec] at hplace
      refine ⟨payload, .append, ?_⟩
      cases hstep with
      | appendChunk _ _ _ => exact .chunk rfl (kept_of_place hpool hfew hslots hplace hids hmap hstored)
  | @completeConvert i =>
      obtain ⟨xs, rfl⟩ := prepareExtents_mkOp hx
      obtain rfl := Option.some.inj htarget
      obtain ⟨redundancy, content, xs', hplan, heq, hrecorded⟩ := recorded_of_rewrite hpool hfew hslots hok hmap
        (fun redundancy content hplan => by
          obtain ⟨old, hrec, rfl, -⟩ := planCompleteConvert_eq_ok hplan
          exact hfind old hrec) hx
      obtain ⟨-, rfl⟩ := MetaOp.completeConvert.inj heq
      refine ⟨content, .completeConvert hplan, ?_⟩
      cases hstep with
      | completeConvert _ _ => exact hrecorded
  | @write i _ _ =>
      obtain ⟨xs, rfl⟩ := prepareExtents_mkOp hx
      obtain rfl := Option.some.inj htarget
      obtain ⟨redundancy, content, xs', hplan, heq, hrecorded⟩ := recorded_of_rewrite hpool hfew hslots hok hmap
        (fun redundancy content hplan => by
          obtain ⟨old, hrec, rfl, -⟩ := planWrite_eq_ok hplan
          exact hfind old hrec) hx
      obtain ⟨-, rfl⟩ := MetaOp.updateExtents.inj heq
      refine ⟨content, .write hplan, ?_⟩
      cases hstep with
      | updateExtents _ _ _ => exact hrecorded

/-- The three calls that store content. -/
def StoresTo (op : PoolOp) (i : InodeId) : Prop :=
  (∃ payload, op = .append i payload) ∨ (∃ offset data, op = .write i offset data) ∨ op = .completeConvert i

/-- How such a call ends well. -/
theorem StoresTo.ok {i : InodeId} {v : PoolVal} (hop : StoresTo op i) (h : step env op (w, p) = (.ok v, w', p')) :
    ∃ x mop w₁ p₁ s', dataPhase env op = some x ∧ x (w, p) = (.ok mop, w₁, p₁) ∧ mop.target = some i ∧
      p₁.metaStore.apply env w₁ mop = (.ok (), w', s') ∧ p' = { p₁ with metaStore := s' } := by
  rcases step_cases h (by simp) with ⟨⟨_, _, _, rfl⟩, -⟩ | ⟨x, e, -, -, he⟩ |
    ⟨mop, w₁, p₁, q, s', hhands, happly, rfl, hcloses⟩
  · rcases hop with ⟨_, h⟩ | ⟨_, _, h⟩ | h
    · cases h
    · cases h
    · cases h
  · cases he
  · cases hcloses with
    | accepted hnew =>
        cases hhands with
        | @phase op x mop w₁ p₁ hphase hx =>
            refine ⟨x, mop, w₁, p₁, s', hphase, hx, ?_, happly, rfl⟩
            rcases dataPhase_eq_ok hphase hx with ⟨_, _, _, rfl, rfl⟩ | ⟨_, _, rfl, rfl⟩ | ⟨_, _, _, _, rfl, rfl⟩
            · rcases hop with ⟨_, h⟩ | ⟨_, _, h⟩ | h <;> cases h
              rfl
            · rcases hop with ⟨_, h⟩ | ⟨_, _, h⟩ | h <;> cases h
              rfl
            · rcases hop with ⟨_, h⟩ | ⟨_, _, h⟩ | h <;> cases h
              rfl
        | beginConvert => rcases hop with ⟨_, h⟩ | ⟨_, _, h⟩ | h <;> cases h
        | setRedundancy => rcases hop with ⟨_, h⟩ | ⟨_, _, h⟩ | h <;> cases h
        | unlink => rcases hop with ⟨_, h⟩ | ⟨_, _, h⟩ | h <;> cases h
        | create halloc => rcases hop with ⟨_, h⟩ | ⟨_, _, h⟩ | h <;> cases h
        | link halloc hcreate => rcases hop with ⟨_, h⟩ | ⟨_, _, h⟩ | h <;> cases h

/-- **An acknowledged write is stored.** In every run on healthy disks, with reopens, whose log frames fit their region and
    in which no file is given a policy without slots: if an append, a write or the end of a conversion returns Ok for a
    file with an accepted policy, then the chunk or extent it recorded has exactly one replica per slot and at least one,
    on different disks that meet the slots, each with the bytes whose checksum is recorded; and the file can be read. -/
theorem acknowledged_write_stored {events : List Event} {i : InodeId} {rec : InodeRecord} {v : PoolVal}
    (hrun : Run n w p events) (hhealthy : ∀ e ∈ events, e.Healthy) (henv : env.io = healthy)
    (hfits : LogFits (events ++ [.call env w p op (.ok v)])) (hslot : ∀ e ∈ events, e.Slotted)
    (hpool : p.poolMap.disks.size < 2 ^ 32 - 1) (hop : StoresTo op i) (hget : p.getInode i = .ok (some rec))
    (haccept : Accepted rec.redundancy) (h : step env op (w, p) = (.ok v, w', p')) :
    ∃ slots content rec', rec.redundancy = .replicated slots ∧ Stores w p op i content ∧
      p'.getInode i = .ok (some rec') ∧ Recorded (w', p') slots op rec'.data content ∧
      ∀ offset len, ∃ bytes, p'.read w' i offset len = .ok bytes := by
  have hrun' : Run n w' p' (events ++ [.call env w p op (.ok v)]) := hrun.call env op h (by simp)
  have hhealthy' : ∀ e ∈ events ++ [.call env w p op (.ok v)], e.Healthy :=
    List.forall_mem_append.mpr ⟨hhealthy, List.forall_mem_singleton.mpr henv⟩
  have hslot' : ∀ e ∈ events ++ [.call env w p op (.ok v)], e.Slotted := by
    refine List.forall_mem_append.mpr ⟨hslot, List.forall_mem_singleton.mpr ?_⟩
    rcases hop with ⟨_, rfl⟩ | ⟨_, _, rfl⟩ | rfl
    · trivial
    · trivial
    · trivial
  obtain ⟨hfits₀, hfits₁⟩ := hfits.snoc
  have hdurable : ∀ {events : List Event}, (∀ e ∈ events, e.Healthy) → ReopenedDurable events :=
    fun hh => beforeReopens_of_healthy hh (fun _ _ => primaryUp_of_healthy)
  have htable : Tabled n (Readable True n) w p := hrun.readable hfits₀ (hdurable hhealthy) (fun _ => hslot)
  have htable' : Tabled n (Readable True n) w' p' := hrun'.readable hfits (hdurable hhealthy') (fun _ => hslot')
  obtain ⟨slots, hscheme, hfew⟩ := haccept.slots
  -- a record without slots would have come from an unslotted call, and there was none
  have hslots : slots ≠ [] := by
    rintro rfl
    exact (htable.records.of_getInode (Res.mapErr_eq_ok.mp hget)).2.1.slotted trivial hscheme
  obtain ⟨x, mop, w₁, p₁, s', hphase, hx, htarget, happly, rfl⟩ := hop.ok h
  have hhands : Hands env w p op mop w₁ p₁ := .phase hphase hx
  have hfit := hfits₁ _ hhands.mem_metaCalls
  have htable₁ : Tabled n (Readable True n) w₁ p₁ := by
    have hkept := htable.phase (fun _ _ _ hlonger hrec => hrec.mono hlonger) hphase
    rwa [hx] at hkept
  obtain ⟨rec', hstep, hhas⟩ := htable₁.has_apply happly hfit (fun _ => hhands.chunkCount_eq) htarget
  obtain ⟨content, hstores, hrecorded⟩ := recorded_of_phase hpool hfew hslots htable.handles hget hscheme hphase htarget
    hx hstep
  have hret := retains_applyMeta htable₁.wf hfit happly
  have hget' : getInode { p₁ with metaStore := s' } i = .ok (some rec') :=
    getInode_of_view hhas.getInode_eq
  exact ⟨slots, content, rec', hscheme, hstores, hget', hrecorded.mono hret rfl, read_of_readable htable' hget'⟩

/-! ## Concrete sessions -/

/-- A file is created. -/
def createSession : List Event × World × Pool := play (Env.healthy MetaStore.listOrder) (sampleOps.take 1) onDisk

instance : DecidablePred Slotted
  | .createFile _ _ redundancy _ _ _ _ => inferInstanceAs (Decidable (redundancy ≠ .replicated []))
  | .setRedundancy _ scheme            => inferInstanceAs (Decidable (scheme ≠ .replicated []))
  | .append ..                         => .isTrue trivial
  | .beginConvert _                    => .isTrue trivial
  | .completeConvert _                 => .isTrue trivial
  | .write ..                          => .isTrue trivial
  | .unlink ..                         => .isTrue trivial
  | .read ..                           => .isTrue trivial

instance : DecidablePred Event.Slotted
  | .format ..       => .isTrue trivial
  | .call _ _ _ op _ => inferInstanceAs (Decidable (Slotted op))
  | .reopen _        => .isTrue trivial

/-- The policy of a file. -/
def policyOf (p : Pool) (i : InodeId) : Option RedundancyScheme :=
  match p.getInode i with
  | .ok (some rec) => some rec.redundancy
  | _              => none

theorem policyOf_eq_some {i : InodeId} {scheme : RedundancyScheme} (h : p.policyOf i = some scheme) :
    ∃ rec, p.getInode i = .ok (some rec) ∧ rec.redundancy = scheme := by
  unfold policyOf at h
  split at h
  · rename_i rec hget
    exact ⟨rec, hget, Option.some.inj h⟩
  · cases h

/-- The theorem at an append of three bytes to a new file. -/
theorem acknowledged_write_stored_append : ∃ w' p' rec',
    step (Env.healthy MetaStore.listOrder) (.append 2 [1, 2, 3]) createSession.2 = (.ok .unit, w', p') ∧
    p'.getInode 2 = .ok (some rec') ∧
    Recorded (w', p') [.anyOfClass none] (.append 2 [1, 2, 3]) rec'.data [1, 2, 3] ∧
    ∃ bytes, p'.read w' 2 0 3 = .ok bytes := by
  have hplay : play (Env.healthy MetaStore.listOrder) (sampleOps.take 1) onDisk = createSession := rfl
  obtain ⟨hrun, hsession⟩ := run_session hplay (by decide +kernel)
  have hres : (step (Env.healthy MetaStore.listOrder) (.append 2 [1, 2, 3]) createSession.2).1 = .ok .unit := by
    decide +kernel
  have hpolicy : createSession.2.2.policyOf 2 = some (.replicated [.anyOfClass none]) := by decide +kernel
  obtain ⟨rec, hget, hscheme⟩ := policyOf_eq_some hpolicy
  have haccept : Accepted rec.redundancy := Or.inl ⟨1, by rw [hscheme]; rfl⟩
  have hfits : LogFits (eventsOf createSession ++ [.call (Env.healthy MetaStore.listOrder) createSession.2.1
      createSession.2.2 (.append 2 [1, 2, 3]) (.ok .unit)]) := by decide +kernel
  generalize hstep : step (Env.healthy MetaStore.listOrder) (.append 2 [1, 2, 3]) createSession.2 = out at hres
  obtain ⟨res, w', p'⟩ := out
  obtain rfl : res = .ok .unit := hres
  obtain ⟨slots, content, rec', hslots, hstores, hget', hrecorded, hread⟩ := acknowledged_write_stored hrun
    (fun e he => (hsession e he).healthy) rfl hfits (by decide +kernel) (by decide +kernel) (Or.inl ⟨_, rfl⟩) hget haccept
    hstep
  rw [hscheme] at hslots
  obtain rfl := RedundancyScheme.replicated.inj hslots
  cases hstores
  exact ⟨w', p', rec', rfl, hget', hrecorded, hread 0 3⟩

/-- A file is created, given a policy of no slots and appended to. -/
def unslottedOps : List PoolOp :=
  [.createFile rootInode "a" (.replicated [.anyOfClass none]) 0 0 0o100644 0, .setRedundancy 2 (.replicated []),
    .append 2 [1]]

def unslottedSession : List Event × World × Pool := play (Env.healthy MetaStore.listOrder) unslottedOps onDisk

/-- What is left of the append: whether it was acknowledged, the replicas of its chunk, and what a read returns. -/
def unslottedOutcome : List Bool × Option (List (List (DiskId × UInt64))) × Res PoolError Bytes :=
  (unslottedSession.1.map (fun e => match e with | .call _ _ _ _ (.ok _) => true | _ => false),
    match unslottedSession.2.2.getInode 2 with
    | .ok (some rec) =>
        match rec.data with
        | .chunkLog chunks => some (chunks.map ChunkPointer.replicas)
        | .extents _       => none
    | _ => none,
    unslottedSession.2.2.read unslottedSession.2.1 2 0 1)

/-- The control interface accepts 400 zero bytes as a policy of no slots. An append to a file with that policy is
    acknowledged, no disk holds its byte, and the file can no longer be read. -/
theorem empty_policy_loses_write :
    Fuse.decodeSetRedundancy (List.replicate 400 0) = some (.replicated []) ∧
    Run 1 unslottedSession.2.1 unslottedSession.2.2 (eventsOf unslottedSession) ∧
    (∀ e ∈ eventsOf unslottedSession, e.InSession) ∧ LogFits (eventsOf unslottedSession) ∧
    unslottedOutcome = ([true, true, true], some [[]], .err .unplaceable) := by
  have hplay : play (Env.healthy MetaStore.listOrder) unslottedOps onDisk = unslottedSession := rfl
  obtain ⟨hrun, hsession⟩ := run_session hplay (by decide +kernel)
  exact ⟨by decide +kernel, hrun, hsession, by decide +kernel, by decide +kernel⟩

end Pool

end Tartine
