import Tartine.Meta.Pool

/-!
# `Meta.PoolStep` — one call of the pool's interface, taken apart

`PoolOp` is one call of the pool's interface and `Pool.step` performs it. `Pool.metaCalls` lists the calls of
`MetaStore::apply` it makes, each with the world and the store it finds, and `Hands` says the same with the whole state:
which operation is handed to the log, and where the data phase or the call before it left the pool.

* `step_cases` — every way a call can end;
* `step_rule` — what data phases, allocations and metadata operations keep, a call keeps;
* `step_world` — where a call leaves the disks, also if it panics.
-/

namespace Tartine

open Basis Codec

/-- One call of the pool's interface. `now` is the clock the source reads. -/
inductive PoolOp where
  | createFile (parent : InodeId) (name : String) (redundancy : RedundancyScheme) (uid gid unixMode : UInt32)
      (now : UInt64)
  | append (inode : InodeId) (payload : Bytes)
  | beginConvert (inode : InodeId)
  | completeConvert (inode : InodeId)
  | write (inode : InodeId) (offset : UInt64) (data : Bytes)
  | setRedundancy (inode : InodeId) (scheme : RedundancyScheme)
  | unlink (parent : InodeId) (name : String)
  | read (inode : InodeId) (offset len : UInt64)

/-- What a call returns. -/
inductive PoolVal where
  | unit
  | inode (id : InodeId)
  | bytes (b : Bytes)
  deriving DecidableEq, Repr

namespace Pool

/-- A call without a value. -/
def unitVal (x : PoolM Unit) : PoolM PoolVal := do
  x
  pure .unit

/-- One call of the interface. -/
def step (env : Env) : PoolOp → PoolM PoolVal
  | .createFile parent name redundancy uid gid unixMode now => do
      let id ← createFile env parent name redundancy uid gid unixMode now
      pure (.inode id)
  | .append inode payload => unitVal (append env inode payload)
  | .beginConvert inode => unitVal (beginConvert env inode)
  | .completeConvert inode => unitVal (completeConvert env inode)
  | .write inode offset data => unitVal (write env inode offset data)
  | .setRedundancy inode scheme => unitVal (setRedundancy env inode scheme)
  | .unlink parent name => unitVal (unlink env parent name)
  | .read inode offset len => do
      let b ← Action.reads (fun (w, p) => p.read w inode offset len)
      pure (.bytes b)

/-- A call of `MetaStore::apply`: the environment and the state it runs in, and its operation. -/
structure MetaCall where
  env : Env
  world : World
  store : MetaStore
  op : MetaOp

/-- The call a data phase leads to. -/
def callAfter (env : Env) : Res PoolError MetaOp × World × Pool → List MetaCall
  | (.ok op, w, p) => [⟨env, w, p.metaStore, op⟩]
  | _              => []

/-- The calls of `MetaStore::apply` that one call of the interface makes, in order. -/
def metaCalls (env : Env) (w : World) (p : Pool) : PoolOp → List MetaCall
  | .createFile parent name redundancy uid gid unixMode now =>
      match p.metaStore.allocInode with
      | .ok (inode, s) =>
          let create := MetaOp.createInode (newFile inode redundancy uid gid unixMode now)
          match s.apply env w create with
          | (.ok (), w', s') => [⟨env, w, s, create⟩, ⟨env, w', s', .link parent name inode⟩]
          | _                => [⟨env, w, s, create⟩]
      | _ => []
  | .append inode payload => callAfter env (prepareAppend env inode payload (w, p))
  | .beginConvert inode => [⟨env, w, p.metaStore, .beginConvert inode⟩]
  | .completeConvert inode => callAfter env (prepareCompleteConvert env inode (w, p))
  | .write inode offset data => callAfter env (prepareWrite env inode offset data (w, p))
  | .setRedundancy inode scheme => [⟨env, w, p.metaStore, .setRedundancyScheme inode scheme⟩]
  | .unlink parent name => [⟨env, w, p.metaStore, .unlink parent name⟩]
  | .read _ _ _ => []

namespace MetaCall

/-- The frame the call writes. -/
def frame (c : MetaCall) : Bytes := MetaStore.opFrame c.env.ord c.op

/-- The frame ends inside the region recovery reads. -/
def Fits (c : MetaCall) : Prop := c.store.walCursor + c.frame.length ≤ Wal.walCapacityBytes

instance (c : MetaCall) : Decidable c.Fits := inferInstanceAs (Decidable (_ ≤ _))

/-- The call keeps clear of file data on every disk; if it returns Ok its frame can be read back; and if its frame does
    not fit it is refused. -/
def Safe (c : MetaCall) : Prop :=
  (∀ r i, segmentBaseOffset ≤ i →
    ((c.store.apply c.env c.world c.op).2.1.disk r).bytes i = (c.world.disk r).bytes i) ∧
  ((c.store.apply c.env c.world c.op).1 = .ok () → c.Fits) ∧
  (¬c.Fits → ∃ e, (c.store.apply c.env c.world c.op).1 = .err e)

end MetaCall

/-! ## Looking up a file -/

section Lookup

variable {p : Pool} {inode : InodeId} {rec : InodeRecord}

theorem findInode_eq_ok (h : p.findInode inode = .ok rec) :
    p.metaStore.view.getInode inode = .ok (some rec) := by
  obtain ⟨found, hget, h⟩ := Res.bind_eq_ok.mp h
  cases found with
  | none => cases h
  | some rec' =>
      obtain rfl := Res.ok.inj h
      exact Res.mapErr_eq_ok.mp hget

/-- The pool reads the store's table. -/
theorem getInode_of_view {found : Option InodeRecord} (h : p.metaStore.view.getInode inode = .ok found) :
    p.getInode inode = .ok found := by
  unfold getInode MetaStore.getInode
  rw [h]
  rfl

theorem findInode_of_getInode (h : p.getInode inode = .ok (some rec)) : p.findInode inode = .ok rec := by
  unfold findInode
  rw [h]
  rfl

end Lookup

/-! ## How operations end -/

theorem unitVal_cases {w w' : World} {p p' : Pool} {x : PoolM Unit} {res : Res PoolError PoolVal}
    (h : unitVal x (w, p) = (res, w', p')) (hres : res ≠ .panic) : ∃ r, x (w, p) = (r, w', p') ∧ r ≠ .panic ∧
      ((r = .ok () ∧ res = .ok .unit) ∨ ∃ e, r = .err e ∧ res = .err e) := by
  rcases Action.returns_cases h hres with ⟨u, hx, rfl⟩ | ⟨e, hx, rfl⟩
  · exact ⟨.ok (), hx, by simp, Or.inl ⟨rfl, rfl⟩⟩
  · exact ⟨.err e, hx, by simp, Or.inr ⟨e, rfl, rfl⟩⟩

/-- A read changes nothing. -/
theorem step_read {env : Env} {w w' : World} {p p' : Pool} {inode : InodeId} {offset len : UInt64}
    {res : Res PoolError PoolVal} (h : step env (.read inode offset len) (w, p) = (res, w', p'))
    (hres : res ≠ .panic) : w' = w ∧ p' = p := by
  have hstate : (w', p') = (w, p) := by
    rcases Action.returns_cases h hres with ⟨b, hread, -⟩ | ⟨e, hread, -⟩
    · exact Action.state_of_reads hread
    · exact Action.state_of_reads hread
  exact Prod.mk.inj hstate

/-- A metadata step is a call of `MetaStore::apply` on the pool's store. -/
theorem applyMeta_cases {env : Env} {w w' : World} {p p' : Pool} {op : MetaOp} {r : Res PoolError Unit}
    (h : applyMeta env op (w, p) = (r, w', p')) :
    ∃ q s', p.metaStore.apply env w op = (q, w', s') ∧ r = liftMeta q ∧ p' = { p with metaStore := s' } := by
  unfold applyMeta at h
  dsimp only at h
  generalize p.metaStore.apply env w op = out at h ⊢
  obtain ⟨q, w₁, s₁⟩ := out
  obtain ⟨rfl, rfl, rfl⟩ := h
  exact ⟨q, s₁, rfl, rfl, rfl⟩

theorem applyMeta_of_apply {env : Env} {w w' : World} {p : Pool} {op : MetaOp} {q : Res MetaStoreError Unit}
    {s' : MetaStore} (h : p.metaStore.apply env w op = (q, w', s')) :
    applyMeta env op (w, p) = (liftMeta q, w', { p with metaStore := s' }) := by
  unfold applyMeta
  dsimp only
  rw [h]

theorem applyMeta_eq_ok {env : Env} {w w' : World} {p p' : Pool} {op : MetaOp}
    (h : applyMeta env op (w, p) = (.ok (), w', p')) :
    ∃ s', p.metaStore.apply env w op = (.ok (), w', s') ∧ p' = { p with metaStore := s' } := by
  obtain ⟨q, s', happly, hq, hp⟩ := applyMeta_cases h
  obtain rfl := Res.mapErr_eq_ok.mp hq.symm
  exact ⟨s', happly, hp⟩

/-- `alloc_inode` either hands out a number or panics. -/
theorem allocInode_cases {w w' : World} {p p' : Pool} {r : Res PoolError InodeId}
    (h : allocInode (w, p) = (r, w', p')) (hr : r ≠ .panic) :
    ∃ id s', p.metaStore.allocInode = .ok (id, s') ∧ r = .ok id ∧ w' = w ∧ p' = { p with metaStore := s' } := by
  unfold allocInode at h
  dsimp only at h
  split at h
  · rename_i id s' hid
    obtain ⟨rfl, rfl, rfl⟩ := h
    exact ⟨id, s', hid, rfl, rfl, rfl⟩
  · rename_i e herr
    unfold MetaStore.allocInode Res.checkedAdd at herr
    split at herr
    · cases herr
    · cases herr
  · obtain ⟨rfl, -⟩ := Prod.mk.inj h
    exact absurd rfl hr

/-- **Every way `create_file` can end**: refused when it creates the inode, or with the inode created and the link
    refused or made. -/
theorem createFile_cases {env : Env} {w w' : World} {p p' : Pool} {parent : InodeId} {name : String}
    {redundancy : RedundancyScheme} {uid gid unixMode : UInt32} {now : UInt64} {r : Res PoolError InodeId}
    (h : createFile env parent name redundancy uid gid unixMode now (w, p) = (r, w', p')) (hr : r ≠ .panic) :
    ∃ id s₁, p.metaStore.allocInode = .ok (id, s₁) ∧
      ((∃ e, r = .err e ∧ applyMeta env (.createInode (newFile id redundancy uid gid unixMode now))
          (w, { p with metaStore := s₁ }) = (.err e, w', p')) ∨
        ∃ w₂ s₂, s₁.apply env w (.createInode (newFile id redundancy uid gid unixMode now)) = (.ok (), w₂, s₂) ∧
          ∃ q, applyMeta env (.link parent name id) (w₂, { p with metaStore := s₂ }) = (q, w', p') ∧
            ((q = .ok () ∧ r = .ok id) ∨ ∃ e, q = .err e ∧ r = .err e)) := by
  rcases Action.bind_cases h with ⟨id, ⟨w₁, p₁⟩, halloc, h⟩ | ⟨e, halloc, rfl⟩ | ⟨-, rfl⟩
  · obtain ⟨id', s₁, hid, hok, rfl, rfl⟩ := allocInode_cases halloc (by simp)
    obtain rfl := Res.ok.inj hok
    refine ⟨_, s₁, hid, ?_⟩
    rcases Action.bind_cases h with ⟨u, ⟨w₂, p₂⟩, hmk, h⟩ | ⟨e, hmk, rfl⟩ | ⟨-, rfl⟩
    · obtain ⟨s₂, happly, rfl⟩ := applyMeta_eq_ok hmk
      refine Or.inr ⟨w₂, s₂, happly, ?_⟩
      rcases Action.bind_cases h with ⟨u, s₃, hlink, hpure⟩ | ⟨e, hlink, rfl⟩ | ⟨-, rfl⟩
      · obtain ⟨rfl, rfl⟩ := Prod.mk.inj hpure
        exact ⟨_, hlink, Or.inl ⟨rfl, rfl⟩⟩
      · exact ⟨_, hlink, Or.inr ⟨e, rfl, rfl⟩⟩
      · exact absurd rfl hr
    · exact Or.inl ⟨e, rfl, hmk⟩
    · exact absurd rfl hr
  · obtain ⟨id, s₁, -, hok, -⟩ := allocInode_cases halloc (by simp)
    cases hok
  · exact absurd rfl hr

/-- The calls of `create_file`. -/
theorem createFile_calls {p : Pool} {s' : MetaStore} (env : Env) (w : World) (parent : InodeId) (name : String)
    (redundancy : RedundancyScheme) (uid gid unixMode : UInt32) (now : UInt64) {id : InodeId}
    (halloc : p.metaStore.allocInode = .ok (id, s')) :
    ⟨env, w, s', .createInode (newFile id redundancy uid gid unixMode now)⟩ ∈
      p.metaCalls env w (.createFile parent name redundancy uid gid unixMode now) ∧
    ∀ w₂ s₂, s'.apply env w (.createInode (newFile id redundancy uid gid unixMode now)) = (.ok (), w₂, s₂) →
      ⟨env, w₂, s₂, .link parent name id⟩ ∈
        p.metaCalls env w (.createFile parent name redundancy uid gid unixMode now) := by
  simp only [metaCalls, halloc]
  constructor
  · split
    · exact List.mem_cons_self
    · exact List.mem_cons_self
  · intro w₂ s₂ happly
    rw [happly]
    exact List.mem_cons_of_mem _ List.mem_cons_self

/-! ## Data phases keep what every turn of the replica loop keeps -/

section Phases

variable {R : World × Pool → World × Pool → Prop} {env : Env} {inode : InodeId}

theorem keeps_writeReplicas (hrefl : ∀ a, R a a) (htrans : ∀ a b c, R a b → R b c → R a c)
    {writeOne : World → DiskHandle → Res PoolError Nat × World}
    (hturn : ∀ id, Action.Keeps R (writeReplica writeOne id)) (ids : List DiskId) :
    Action.Keeps R (writeReplicas writeOne ids) := by
  induction ids with
  | nil => exact Action.keeps_pure hrefl _
  | cons id ids ih =>
      refine (hturn id).bind htrans (fun written => ?_)
      exact ih.bind htrans (fun rest => Action.keeps_pure hrefl _)

/-- The data phase of `append`. -/
theorem keeps_appendPhase (hrefl : ∀ a, R a a) (htrans : ∀ a b c, R a b → R b c → R a c) {payload : Bytes}
    (hturn : ∀ chunkSeq id,
      Action.Keeps R (writeReplica (appendRecord env (Segment.Record.new inode chunkSeq payload)) id)) :
    Action.Keeps R (prepareAppend env inode payload) := by
  refine (Action.keeps_reads hrefl _).bind htrans ?_
  rintro ⟨chunkSeq, ids⟩
  exact (keeps_writeReplicas hrefl htrans (hturn chunkSeq) ids).bind htrans (fun _ => Action.keeps_pure hrefl _)

/-- The data phase of `complete_convert` and `write`. -/
theorem keeps_extentPhase (hrefl : ∀ a, R a a) (htrans : ∀ a b c, R a b → R b c → R a c)
    {plan : World → Pool → Res PoolError (RedundancyScheme × Bytes)} {mkOp : List Extent → MetaOp}
    (hturn : ∀ content id, Action.Keeps R (writeReplica (storeExtent env content) id)) :
    Action.Keeps R (prepareExtents env inode plan mkOp) := by
  refine (Action.keeps_reads hrefl _).bind htrans ?_
  rintro ⟨redundancy, content⟩
  have hextent : Action.Keeps R (writeWholeFileExtent env inode redundancy 0 content) := by
    unfold writeWholeFileExtent
    split
    · exact Action.keeps_pure hrefl _
    · refine (Action.keeps_reads hrefl _).bind htrans (fun ids => ?_)
      exact (keeps_writeReplicas hrefl htrans (hturn content) ids).bind htrans (fun _ => Action.keeps_pure hrefl _)
  exact hextent.bind htrans (fun _ => Action.keeps_pure hrefl _)

end Phases

/-- The metadata store is as it was. -/
def SameStore (a b : World × Pool) : Prop := b.2.metaStore = a.2.metaStore

theorem sameStore_refl (a : World × Pool) : SameStore a a := rfl

theorem sameStore_trans (a b c : World × Pool) (h : SameStore a b) (h' : SameStore b c) : SameStore a c :=
  Eq.trans h' h

variable {env : Env}

theorem keeps_writeReplica (writeOne : World → DiskHandle → Res PoolError Nat × World) (id : DiskId) :
    Action.Keeps SameStore (writeReplica writeOne id) := by
  rintro ⟨w, p⟩
  unfold writeReplica
  dsimp only
  split
  · rfl
  · split <;> rfl

theorem keeps_prepareAppend (inode : InodeId) (payload : Bytes) :
    Action.Keeps SameStore (prepareAppend env inode payload) :=
  keeps_appendPhase sameStore_refl sameStore_trans (fun _ id => keeps_writeReplica _ id)

theorem keeps_prepareExtents (inode : InodeId) (plan : World → Pool → Res PoolError (RedundancyScheme × Bytes))
    (mkOp : List Extent → MetaOp) : Action.Keeps SameStore (prepareExtents env inode plan mkOp) :=
  keeps_extentPhase sameStore_refl sameStore_trans (fun _ id => keeps_writeReplica _ id)

/-! ## What is handed to the log -/

/-- The data phase of a call, if it has one. -/
def dataPhase (env : Env) : PoolOp → Option (PoolM MetaOp)
  | .append inode payload     => some (prepareAppend env inode payload)
  | .completeConvert inode    => some (prepareCompleteConvert env inode)
  | .write inode offset data  => some (prepareWrite env inode offset data)
  | _                         => none

/-- The calls that have one. -/
inductive DataPhase (env : Env) : PoolOp → PoolM MetaOp → Prop where
  | append {inode payload} : DataPhase env (.append inode payload) (prepareAppend env inode payload)
  | completeConvert {inode} : DataPhase env (.completeConvert inode) (prepareCompleteConvert env inode)
  | write {inode offset data} : DataPhase env (.write inode offset data) (prepareWrite env inode offset data)

theorem dataPhase_cases {op : PoolOp} {x : PoolM MetaOp} (hop : dataPhase env op = some x) : DataPhase env op x := by
  cases op with
  | append inode payload =>
      obtain rfl := Option.some.inj hop
      exact .append
  | completeConvert inode =>
      obtain rfl := Option.some.inj hop
      exact .completeConvert
  | write inode offset data =>
      obtain rfl := Option.some.inj hop
      exact .write
  | createFile parent name redundancy uid gid unixMode now => cases hop
  | beginConvert inode => cases hop
  | setRedundancy inode scheme => cases hop
  | unlink parent name => cases hop
  | read inode offset len => cases hop

/-- No data phase touches the metadata store. -/
theorem sameStore_dataPhase {op : PoolOp} {x : PoolM MetaOp} (hop : dataPhase env op = some x) :
    Action.Keeps SameStore x := by
  cases dataPhase_cases hop with
  | @append inode payload =>
      exact keeps_prepareAppend inode payload
  | completeConvert =>
      exact keeps_prepareExtents _ _ _
  | write =>
      exact keeps_prepareExtents _ _ _

theorem metaStore_of_dataPhase {op : PoolOp} {x : PoolM MetaOp} {r : Res PoolError MetaOp} {w₁ : World} {p₁ : Pool}
    (hop : dataPhase env op = some x) (hx : x (w, p) = (r, w₁, p₁)) : p₁.metaStore = p.metaStore := by
  have hkept := sameStore_dataPhase hop (w, p)
  rwa [hx] at hkept

/-- What a rewrite comes to, from the extents it has written. -/
theorem prepareExtents_mkOp {inode : InodeId} {plan : World → Pool → Res PoolError (RedundancyScheme × Bytes)}
    {mkOp : List Extent → MetaOp} {a b : World × Pool} {mop : MetaOp}
    (hx : prepareExtents env inode plan mkOp a = (.ok mop, b)) : ∃ xs, mop = mkOp xs := by
  obtain ⟨_, s₁, -, hx⟩ := Action.bind_eq_ok.mp hx
  obtain ⟨xs, s₂, -, hx⟩ := Action.bind_eq_ok.mp hx
  obtain ⟨rfl, -⟩ := Action.pure_eq_ok.mp hx
  exact ⟨xs, rfl⟩

/-- The operation a data phase comes to. -/
theorem dataPhase_eq_ok {op : PoolOp} {x : PoolM MetaOp} {a b : World × Pool} {mop : MetaOp}
    (hop : dataPhase env op = some x) (hx : x a = (.ok mop, b)) :
    (∃ inode payload chunk, op = .append inode payload ∧ mop = .appendChunk inode chunk) ∨
    (∃ inode xs, op = .completeConvert inode ∧ mop = .completeConvert inode xs) ∨
    ∃ inode offset data xs, op = .write inode offset data ∧ mop = .updateExtents inode xs := by
  cases dataPhase_cases hop with
  | @append inode payload =>
      obtain ⟨_, s₁, -, hx⟩ := Action.bind_eq_ok.mp hx
      obtain ⟨replicas, s₂, -, hx⟩ := Action.bind_eq_ok.mp hx
      obtain ⟨rfl, -⟩ := Action.pure_eq_ok.mp hx
      exact Or.inl ⟨inode, payload, _, rfl, rfl⟩
  | @completeConvert inode =>
      obtain ⟨extents, rfl⟩ := prepareExtents_mkOp hx
      exact Or.inr (Or.inl ⟨inode, extents, rfl, rfl⟩)
  | @write inode offset data =>
      obtain ⟨extents, rfl⟩ := prepareExtents_mkOp hx
      exact Or.inr (Or.inr ⟨inode, offset, data, extents, rfl, rfl⟩)

/-- The operations that data phases come to. -/
def StoresData : MetaOp → Prop
  | .appendChunk _ _     => True
  | .completeConvert _ _ => True
  | .updateExtents _ _   => True
  | _                    => False

/-- A data phase comes to no other. -/
theorem dataPhase_storesData {op : PoolOp} {x : PoolM MetaOp} {a b : World × Pool} {mop : MetaOp}
    (hop : dataPhase env op = some x) (hx : x a = (.ok mop, b)) : StoresData mop := by
  rcases dataPhase_eq_ok hop hx with ⟨_, _, _, -, rfl⟩ | ⟨_, _, -, rfl⟩ | ⟨_, _, _, _, -, rfl⟩
  · trivial
  · trivial
  · trivial

/-- A call with a data phase hands its outcome to the log. -/
theorem step_of_dataPhase {op : PoolOp} {x : PoolM MetaOp} (hop : dataPhase env op = some x) :
    step env op = unitVal (x >>= applyMeta env) := by
  cases dataPhase_cases hop with
  | append => rfl
  | completeConvert => rfl
  | write => rfl

/-- The operations a call hands to `MetaStore::apply`, each with the state it then finds. -/
inductive Hands (env : Env) (w : World) (p : Pool) : PoolOp → MetaOp → World → Pool → Prop where
  | phase {op x mop w₁ p₁} (hop : dataPhase env op = some x) (hx : x (w, p) = (.ok mop, w₁, p₁)) :
      Hands env w p op mop w₁ p₁
  | beginConvert {inode} : Hands env w p (.beginConvert inode) (.beginConvert inode) w p
  | setRedundancy {inode scheme} :
      Hands env w p (.setRedundancy inode scheme) (.setRedundancyScheme inode scheme) w p
  | unlink {parent name} : Hands env w p (.unlink parent name) (.unlink parent name) w p
  | create {parent name redundancy uid gid unixMode now id s} (halloc : p.metaStore.allocInode = .ok (id, s)) :
      Hands env w p (.createFile parent name redundancy uid gid unixMode now)
        (.createInode (newFile id redundancy uid gid unixMode now)) w { p with metaStore := s }
  | link {parent name redundancy uid gid unixMode now id s w₂ s₂} (halloc : p.metaStore.allocInode = .ok (id, s))
      (hcreate : s.apply env w (.createInode (newFile id redundancy uid gid unixMode now)) = (.ok (), w₂, s₂)) :
      Hands env w p (.createFile parent name redundancy uid gid unixMode now) (.link parent name id) w₂
        { p with metaStore := s₂ }

variable {w w' w₁ : World} {p p' p₁ : Pool} {op : PoolOp} {mop : MetaOp} {res : Res PoolError PoolVal}

/-- What is handed over is one of the calls listed. -/
theorem Hands.mem_metaCalls (h : Hands env w p op mop w₁ p₁) :
    ⟨env, w₁, p₁.metaStore, mop⟩ ∈ p.metaCalls env w op := by
  cases h with
  | phase hop hx =>
      cases op <;> cases hop <;> simp [metaCalls, hx, callAfter]
  | beginConvert => exact List.mem_singleton.mpr rfl
  | setRedundancy => exact List.mem_singleton.mpr rfl
  | unlink => exact List.mem_singleton.mpr rfl
  | create halloc => exact (createFile_calls env w _ _ _ _ _ _ _ halloc).1
  | link halloc hcreate => exact (createFile_calls env w _ _ _ _ _ _ _ halloc).2 _ _ hcreate

/-- Every call listed is one that is handed over. -/
theorem exists_hands {c : MetaCall} (hc : c ∈ p.metaCalls env w op) :
    ∃ mop w₁ p₁, c = ⟨env, w₁, p₁.metaStore, mop⟩ ∧ Hands env w p op mop w₁ p₁ := by
  have hafter : ∀ x, dataPhase env op = some x → c ∈ callAfter env (x (w, p)) →
      ∃ mop w₁ p₁, c = ⟨env, w₁, p₁.metaStore, mop⟩ ∧ Hands env w p op mop w₁ p₁ := by
    intro x hop hc
    generalize hx : x (w, p) = out at hc
    obtain ⟨r, w₁, p₁⟩ := out
    cases r with
    | ok mop => exact ⟨mop, w₁, p₁, List.mem_singleton.mp hc, .phase hop hx⟩
    | err e => cases hc
    | panic => cases hc
  cases op with
  | createFile parent name redundancy uid gid unixMode now =>
      simp only [metaCalls] at hc
      split at hc
      · rename_i inode s halloc
        have hcreate : Hands env w p (.createFile parent name redundancy uid gid unixMode now)
            (.createInode (newFile inode redundancy uid gid unixMode now)) w { p with metaStore := s } := .create halloc
        split at hc
        · rename_i w' s' happly
          rcases List.mem_cons.mp hc with rfl | hc
          · exact ⟨_, _, _, rfl, hcreate⟩
          · obtain rfl := List.mem_singleton.mp hc
            exact ⟨_, _, { p with metaStore := s' }, rfl, .link halloc happly⟩
        · obtain rfl := List.mem_singleton.mp hc
          exact ⟨_, _, _, rfl, hcreate⟩
      · cases hc
  | append inode payload => exact hafter _ rfl hc
  | beginConvert inode => exact ⟨_, w, p, List.mem_singleton.mp hc, .beginConvert⟩
  | completeConvert inode => exact hafter _ rfl hc
  | write inode offset data => exact hafter _ rfl hc
  | setRedundancy inode scheme => exact ⟨_, w, p, List.mem_singleton.mp hc, .setRedundancy⟩
  | unlink parent name => exact ⟨_, w, p, List.mem_singleton.mp hc, .unlink⟩
  | read inode offset len => cases hc

/-- What a call returns once the last operation it handed over was accepted. -/
def valOf : MetaOp → PoolVal
  | .link _ _ id => .inode id
  | _            => .unit

/-- How a call ends, by its last metadata operation. -/
inductive Closes (mop : MetaOp) : Res MetaStoreError Unit → Res PoolError PoolVal → Prop where
  | accepted (hmop : ∀ rec, mop ≠ .createInode rec) : Closes mop (.ok ()) (.ok (valOf mop))
  | refused (e : MetaStoreError) : Closes mop (.err e) (.err (.metaErr e))

/-- From the end of a metadata step to the end of the call it closes. -/
theorem closes_of_applyMeta {r : Res PoolError Unit} (hr : r ≠ .panic)
    (h : applyMeta env mop (w₁, p₁) = (r, w', p')) (hmop : ∀ rec, mop ≠ .createInode rec)
    (hval : (r = .ok () ∧ res = .ok (valOf mop)) ∨ ∃ e, r = .err e ∧ res = .err e) :
    ∃ q s', p₁.metaStore.apply env w₁ mop = (q, w', s') ∧ p' = { p₁ with metaStore := s' } ∧ Closes mop q res := by
  obtain ⟨q, s', happly, rfl, rfl⟩ := applyMeta_cases h
  refine ⟨q, s', happly, rfl, ?_⟩
  cases q with
  | ok u =>
      rcases hval with ⟨-, rfl⟩ | ⟨e, he, -⟩
      · exact .accepted hmop
      · cases he
  | err e =>
      rcases hval with ⟨he, -⟩ | ⟨e', he, rfl⟩
      · cases he
      · obtain rfl := Res.err.inj he
        exact .refused e
  | panic => exact absurd rfl hr

/-- **Every way a call can end**: it was a read; it was refused in its data phase; or its last metadata operation was
    accepted or refused. -/
theorem step_cases (h : step env op (w, p) = (res, w', p')) (hres : res ≠ .panic) :
    ((∃ inode offset len, op = .read inode offset len) ∧ w' = w ∧ p' = p) ∨
    (∃ x e, dataPhase env op = some x ∧ x (w, p) = (.err e, w', p') ∧ res = .err e) ∨
    ∃ mop w₁ p₁ q s', Hands env w p op mop w₁ p₁ ∧ p₁.metaStore.apply env w₁ mop = (q, w', s') ∧
      p' = { p₁ with metaStore := s' } ∧ Closes mop q res := by
  -- a data phase followed by its metadata operation
  have hphase : ∀ x : PoolM MetaOp, dataPhase env op = some x →
      unitVal (x >>= applyMeta env) (w, p) = (res, w', p') →
      (∃ x e, dataPhase env op = some x ∧ x (w, p) = (.err e, w', p') ∧ res = .err e) ∨
      ∃ mop w₁ p₁ q s', Hands env w p op mop w₁ p₁ ∧ p₁.metaStore.apply env w₁ mop = (q, w', s') ∧
        p' = { p₁ with metaStore := s' } ∧ Closes mop q res := by
    intro x hop h
    obtain ⟨r, hbind, hr, hend⟩ := unitVal_cases h hres
    rcases Action.bind_cases hbind with ⟨mop, ⟨w₁, p₁⟩, hx, happly⟩ | ⟨e, hx, rfl⟩ | ⟨-, rfl⟩
    · have hval : (∀ rec, mop ≠ .createInode rec) ∧ valOf mop = .unit := by
        rcases dataPhase_eq_ok hop hx with ⟨_, _, _, -, rfl⟩ | ⟨_, _, -, rfl⟩ | ⟨_, _, _, _, -, rfl⟩
        · exact ⟨by simp, rfl⟩
        · exact ⟨by simp, rfl⟩
        · exact ⟨by simp, rfl⟩
      obtain ⟨hne, hunit⟩ := hval
      obtain ⟨q, s', happly, hp', hcloses⟩ := closes_of_applyMeta hr happly hne (by rw [hunit]; exact hend)
      exact Or.inr ⟨mop, w₁, p₁, q, s', .phase hop hx, happly, hp', hcloses⟩
    · rcases hend with ⟨he, -⟩ | ⟨e', he, rfl⟩
      · cases he
      · obtain rfl := Res.err.inj he
        exact Or.inl ⟨x, e, hop, hx, rfl⟩
    · exact absurd rfl hr
  -- a metadata operation by itself
  have hmeta : ∀ mop, Hands env w p op mop w p → (∀ rec, mop ≠ .createInode rec) → valOf mop = .unit →
      unitVal (applyMeta env mop) (w, p) = (res, w', p') →
      ∃ mop w₁ p₁ q s', Hands env w p op mop w₁ p₁ ∧ p₁.metaStore.apply env w₁ mop = (q, w', s') ∧
        p' = { p₁ with metaStore := s' } ∧ Closes mop q res := by
    intro mop hhands hne hunit h
    obtain ⟨r, hx, hr, hend⟩ := unitVal_cases h hres
    obtain ⟨q, s', happly, hp', hcloses⟩ := closes_of_applyMeta hr hx hne (by rw [hunit]; exact hend)
    exact ⟨mop, w, p, q, s', hhands, happly, hp', hcloses⟩
  cases op with
  | createFile parent name redundancy uid gid unixMode now =>
      refine Or.inr (Or.inr ?_)
      have hcreate : ∀ r : Res PoolError InodeId, r ≠ .panic →
          createFile env parent name redundancy uid gid unixMode now (w, p) = (r, w', p') →
          ((∃ id, r = .ok id ∧ res = .ok (.inode id)) ∨ ∃ e, r = .err e ∧ res = .err e) →
          ∃ mop w₁ p₁ q s', Hands env w p (.createFile parent name redundancy uid gid unixMode now) mop w₁ p₁ ∧
            p₁.metaStore.apply env w₁ mop = (q, w', s') ∧ p' = { p₁ with metaStore := s' } ∧ Closes mop q res := by
        intro r hr h hend
        obtain ⟨id, s₁, hid, h⟩ := createFile_cases h hr
        rcases h with ⟨e, rfl, hmk⟩ | ⟨w₂, s₂, happly, q, hlink, hclose⟩
        · obtain ⟨q, s', happly, hq, hp'⟩ := applyMeta_cases hmk
          refine ⟨_, _, _, q, s', .create hid, happly, hp', ?_⟩
          cases q with
          | ok u => cases hq
          | panic => cases hq
          | err e' =>
              obtain rfl : e = .metaErr e' := Res.err.inj hq
              rcases hend with ⟨id', he, -⟩ | ⟨e'', he, rfl⟩
              · cases he
              · obtain rfl := Res.err.inj he
                exact .refused e'
        · have hqne : q ≠ .panic := by
            rcases hclose with ⟨rfl, -⟩ | ⟨e, rfl, -⟩
            · simp
            · simp
          have hval : (q = .ok () ∧ res = .ok (valOf (.link parent name id))) ∨ ∃ e, q = .err e ∧ res = .err e := by
            rcases hclose with ⟨rfl, rfl⟩ | ⟨e, rfl, rfl⟩
            · rcases hend with ⟨id', he, rfl⟩ | ⟨e, he, -⟩
              · cases he
                exact Or.inl ⟨rfl, rfl⟩
              · cases he
            · rcases hend with ⟨id', he, -⟩ | ⟨e', he, rfl⟩
              · cases he
              · cases he
                exact Or.inr ⟨_, rfl, rfl⟩
          obtain ⟨q', s', happly', hp', hcloses⟩ := closes_of_applyMeta hqne hlink (by simp) hval
          exact ⟨_, _, _, q', s', .link hid happly, happly', hp', hcloses⟩
      rcases Action.returns_cases h hres with ⟨id, hc, rfl⟩ | ⟨e, hc, rfl⟩
      · exact hcreate _ (by simp) hc (Or.inl ⟨id, rfl, rfl⟩)
      · exact hcreate _ (by simp) hc (Or.inr ⟨e, rfl, rfl⟩)
  | append inode payload => exact Or.inr (hphase _ rfl h)
  | beginConvert inode => exact Or.inr (Or.inr (hmeta _ .beginConvert (by simp) rfl h))
  | completeConvert inode => exact Or.inr (hphase _ rfl h)
  | write inode offset data => exact Or.inr (hphase _ rfl h)
  | setRedundancy inode scheme => exact Or.inr (Or.inr (hmeta _ .setRedundancy (by simp) rfl h))
  | unlink parent name => exact Or.inr (Or.inr (hmeta _ .unlink (by simp) rfl h))
  | read inode offset len => exact Or.inl ⟨⟨_, _, _, rfl⟩, step_read h hres⟩

/-- What data phases, allocations and accepted metadata operations keep, holds where the last operation is handed
    over. -/
theorem Hands.rule {I : World → Pool → Prop} (hI : I w p)
    (hdata : ∀ x, dataPhase env op = some x → I (x (w, p)).2.1 (x (w, p)).2.2)
    (halloc : ∀ id s, p.metaStore.allocInode = .ok (id, s) → I w { p with metaStore := s })
    (happly : ∀ mop w₁ p₁ w₂ s₂, Hands env w p op mop w₁ p₁ → I w₁ p₁ →
      p₁.metaStore.apply env w₁ mop = (.ok (), w₂, s₂) → I w₂ { p₁ with metaStore := s₂ })
    (h : Hands env w p op mop w₁ p₁) : I w₁ p₁ := by
  cases h with
  | phase hop hx =>
      have := hdata _ hop
      rwa [hx] at this
  | beginConvert => exact hI
  | setRedundancy => exact hI
  | unlink => exact hI
  | create ha => exact halloc _ _ ha
  | link ha hcreate =>
      have hcreated := happly _ _ _ w₁ _ (.create ha) (halloc _ _ ha) hcreate
      exact hcreated

/-- **Rule of steps.** What they keep, a call keeps. -/
theorem step_rule {I : World → Pool → Prop} (hI : I w p)
    (hdata : ∀ x, dataPhase env op = some x → I (x (w, p)).2.1 (x (w, p)).2.2)
    (halloc : ∀ id s, p.metaStore.allocInode = .ok (id, s) → I w { p with metaStore := s })
    (happly : ∀ mop w₁ p₁ q w₂ s₂, Hands env w p op mop w₁ p₁ → I w₁ p₁ →
      p₁.metaStore.apply env w₁ mop = (q, w₂, s₂) → q ≠ .panic → I w₂ { p₁ with metaStore := s₂ })
    (h : step env op (w, p) = (res, w', p')) (hres : res ≠ .panic) : I w' p' := by
  rcases step_cases h hres with ⟨-, rfl, rfl⟩ | ⟨x, e, hop, hx, -⟩ | ⟨mop, w₁, p₁, q, s', hh, ha, rfl, hcloses⟩
  · exact hI
  · have := hdata _ hop
    rwa [hx] at this
  · have hI₁ : I w₁ p₁ := hh.rule hI hdata halloc
      (fun _ _ _ _ _ hh' hI' ha' => happly _ _ _ _ _ _ hh' hI' ha' (by simp))
    refine happly _ _ _ _ _ _ hh hI₁ ha ?_
    rintro rfl
    cases hcloses

/-- **Where a call leaves the disks**, also if it panics: as they were, as its data phase left them, or as the last
    metadata operation it handed over did. -/
theorem step_world (env : Env) (w : World) (p : Pool) (op : PoolOp) :
    (step env op (w, p)).2.1 = w ∨
    (∃ x, dataPhase env op = some x ∧ (step env op (w, p)).2.1 = (x (w, p)).2.1) ∨
    ∃ mop w₁ p₁, Hands env w p op mop w₁ p₁ ∧ (step env op (w, p)).2.1 = (p₁.metaStore.apply env w₁ mop).2.1 := by
  have hphase : ∀ x : PoolM MetaOp, dataPhase env op = some x → step env op = unitVal (x >>= applyMeta env) →
      (∃ x, dataPhase env op = some x ∧ (step env op (w, p)).2.1 = (x (w, p)).2.1) ∨
      ∃ mop w₁ p₁, Hands env w p op mop w₁ p₁ ∧ (step env op (w, p)).2.1 = (p₁.metaStore.apply env w₁ mop).2.1 := by
    intro x hop hstep
    rw [hstep, show (unitVal (x >>= applyMeta env) (w, p)).2 = _ from Action.state_returns]
    by_cases hok : ∃ mop, (x (w, p)).1 = .ok mop
    · obtain ⟨mop, hok⟩ := hok
      have hx : x (w, p) = (.ok mop, (x (w, p)).2.1, (x (w, p)).2.2) := Prod.ext hok rfl
      refine Or.inr ⟨mop, _, _, .phase hop hx, ?_⟩
      rw [Action.bind_of_ok hx]
      rfl
    · refine Or.inl ⟨x, hop, ?_⟩
      rw [Action.state_bind_of_fail fun mop heq => hok ⟨mop, heq⟩]
  have hmeta : ∀ mop, Hands env w p op mop w p → step env op = unitVal (applyMeta env mop) →
      ∃ mop w₁ p₁, Hands env w p op mop w₁ p₁ ∧ (step env op (w, p)).2.1 = (p₁.metaStore.apply env w₁ mop).2.1 := by
    intro mop hhands hstep
    refine ⟨mop, w, p, hhands, ?_⟩
    rw [hstep, show (unitVal (applyMeta env mop) (w, p)).2 = _ from Action.state_returns]
    rfl
  cases op with
  | createFile parent name redundancy uid gid unixMode now =>
      rw [show (step env (.createFile parent name redundancy uid gid unixMode now) (w, p)).2 = _ from
        Action.state_returns]
      cases halloc : p.metaStore.allocInode with
      | err e =>
          refine Or.inl ?_
          have hfail : allocInode (w, p) = (.err (.metaErr e), w, p) := by simp only [allocInode, halloc]
          rw [show createFile env parent name redundancy uid gid unixMode now (w, p) = _ from Action.bind_of_err hfail]
      | panic =>
          refine Or.inl ?_
          have hfail : allocInode (w, p) = (.panic, w, p) := by simp only [allocInode, halloc]
          rw [show (createFile env parent name redundancy uid gid unixMode now (w, p)).2 = (allocInode (w, p)).2 from
            Action.state_bind_of_fail (by rw [hfail]; simp), hfail]
      | ok out =>
          obtain ⟨id, s⟩ := out
          refine Or.inr (Or.inr ?_)
          have hok : allocInode (w, p) = (.ok id, w, { p with metaStore := s }) := by simp only [allocInode, halloc]
          rw [show createFile env parent name redundancy uid gid unixMode now (w, p) = _ from Action.bind_of_ok hok]
          -- the link is made only once the inode is in the log
          by_cases hcreate : (s.apply env w (.createInode (newFile id redundancy uid gid unixMode now))).1 = .ok ()
          · have happly : s.apply env w (.createInode (newFile id redundancy uid gid unixMode now)) =
                (.ok (), (s.apply env w (.createInode (newFile id redundancy uid gid unixMode now))).2.1,
                  (s.apply env w (.createInode (newFile id redundancy uid gid unixMode now))).2.2) := Prod.ext hcreate rfl
            refine ⟨_, _, _, .link halloc happly, ?_⟩
            have hmk := applyMeta_of_apply (p := { p with metaStore := s }) happly
            rw [Action.bind_of_ok hmk, Action.state_returns]
            rfl
          · refine ⟨_, _, _, .create halloc, ?_⟩
            rw [Action.state_bind_of_fail]
            · rfl
            · intro u heq
              exact hcreate (Res.mapErr_eq_ok.mp heq)
  | append inode payload => exact Or.inr (hphase _ rfl rfl)
  | beginConvert inode => exact Or.inr (Or.inr (hmeta _ .beginConvert rfl))
  | completeConvert inode => exact Or.inr (hphase _ rfl rfl)
  | write inode offset data => exact Or.inr (hphase _ rfl rfl)
  | setRedundancy inode scheme => exact Or.inr (Or.inr (hmeta _ .setRedundancy rfl))
  | unlink parent name => exact Or.inr (Or.inr (hmeta _ .unlink rfl))
  | read inode offset len =>
      refine Or.inl ?_
      rw [show (step env (.read inode offset len) (w, p)).2 = _ from Action.state_returns]
      rfl

end Pool

end Tartine
