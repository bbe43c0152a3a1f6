import Tartine.Fuse.Requests
import Tartine.Meta.WholeFile

/-!
# `Fuse.Resize` — resizes, writes and reads of one writable file

A `setattr` that asks a writable file for a new size passes the truncation check and is answered with the file's
attributes; nothing is stored. What the requests mean is stated beside the handlers: a content that each write overwrites
and each resize cuts or zero-extends. The requests of a run act on that content exactly if no resize changes the size and
every write can be stored whole.

* `actsOn_iff` — one request;
* `Interleaving.actOn_iff` — a run of them, by induction, the content moving with the requests;
* `resizes_mean_iff` — what every resize of a run leaves, and what the requests after it act on.
-/

namespace Tartine.Fuse

open Basis Pool

variable {n : Nat} {w w' : World} {p p' : Pool} {events : List Event} {ino : InodeId} {rec : InodeRecord} {c : Bytes}

/-! ## What the requests mean -/

/-- The content cut to `size` bytes, or zero-extended to them. -/
def resized (size : Nat) (c : Bytes) : Bytes := c.take size ++ List.replicate (size - c.length) 0

theorem length_resized (size : Nat) (c : Bytes) : (resized size c).length = size := by
  rw [resized, List.length_append, List.length_take, List.length_replicate]
  omega

theorem resized_length (c : Bytes) : resized c.length c = c := by
  rw [resized, List.take_length, Nat.sub_self, List.replicate_zero, List.append_nil]

/-- A write, a read or a `setattr` of the file. -/
def Request.OnFile (ino : InodeId) : Request → Prop
  | .read i ..    => i = ino
  | .write i ..   => i = ino
  | .setattr i .. => i = ino
  | _             => False

/-- One request, its reply, and the states around it. -/
structure Exchange where
  ord : IterOrder
  world : World
  pool : Pool
  req : Request
  reply : Res Errno Reply
  world' : World
  pool' : Pool

/-- Requests of one file, answered one after the other on healthy disks. -/
inductive Interleaving (ino : InodeId) : World → Pool → List Exchange → World → Pool → Prop where
  | done {w : World} {p : Pool} : Interleaving ino w p [] w p
  | next {w p ord req reply w₁ p₁ rest w' p'} (hon : req.OnFile ino)
      (h : handle (Env.healthy ord) req (w, p) = (reply, w₁, p₁)) (hreply : reply ≠ .panic)
      (hrest : Interleaving ino w₁ p₁ rest w' p') :
      Interleaving ino w p (⟨ord, w, p, req, reply, w₁, p₁⟩ :: rest) w' p'

/-- The file has this content. -/
def HasContent (ino : InodeId) (c : Bytes) (w : World) (p : Pool) : Prop :=
  ∃ rec, p.getInode ino = .ok (some rec) ∧ rec.size.toNat = c.length ∧ p.readFullContent w rec = .ok c

/-- The content after the exchange: a request that was refused means nothing. -/
def Exchange.meaning (s : Exchange) (c : Bytes) : Bytes :=
  match s.req, s.reply with
  | .write _ offset data, .ok _    => overwrite c offset.toNat data
  | .setattr _ (some size), .ok _  => resized size.toNat c
  | _, _                           => c

/-- The exchange acts on the content `c`: it leaves what it means, and a read returns its window of `c`. -/
def Exchange.ActsOn (ino : InodeId) (c : Bytes) (s : Exchange) : Prop :=
  HasContent ino (s.meaning c) s.world' s.pool' ∧
    ∀ offset size, s.req = .read ino offset size → s.reply = .ok (.data (window c offset size.toUInt64))

/-- One exchange after the other acts on what those before it mean. -/
def ActOn (ino : InodeId) : Bytes → List Exchange → Prop
  | _, []        => True
  | c, s :: rest => s.ActsOn ino c ∧ ActOn ino (s.meaning c) rest

/-- After each `setattr` with a size that replied success, the file has that size and its content is the one before, cut
    or zero-extended; what follows acts on that content. -/
def ResizesMean (ino : InodeId) (steps : List Exchange) : Prop :=
  ∀ s rest size reply, s :: rest <:+ steps → s.req = .setattr ino (some size) → s.reply = .ok reply →
    (∃ rec', s.pool'.getInode ino = .ok (some rec') ∧ rec'.size = size) ∧
      ∀ c, HasContent ino c s.world s.pool → ActOn ino c (s :: rest)

/-- A resize asks for the size the file has; a write that changes the file to one that is not empty and can be placed is
    placed on a disk, and its length fits an extent. -/
def Exchange.Plain (ino : InodeId) (s : Exchange) : Prop :=
  ∀ rec, s.pool.getInode ino = .ok (some rec) →
    match s.req with
    | .setattr _ (some size) => size = rec.size
    | .write _ offset data   => 0 < max rec.size.toNat (offset.toNat + data.length) →
        ∀ ids, s.pool.place s.ord rec.redundancy (wholeFileKey ino) = .ok ids →
          ids ≠ [] ∧ max rec.size.toNat (offset.toNat + data.length) < 2 ^ 32
    | _                      => True

/-! ## One request -/

/-- A writable file of a reachable pool. -/
structure Resizable (n : Nat) (w : World) (p : Pool) (ino : InodeId) (rec : InodeRecord) : Prop
    extends Rewritable n w p ino rec where
  get : p.getInode ino = .ok (some rec)
  mode : rec.mode = .writable

/-- The content as the record at hand has it. -/
theorem HasContent.of_get (h : HasContent ino c w p) (hget : p.getInode ino = .ok (some rec)) :
    rec.size.toNat = c.length ∧ p.readFullContent w rec = .ok c := by
  obtain ⟨rec', hget', hrest⟩ := h
  obtain rfl := Option.some.inj (Res.ok.inj (hget.symm.trans hget'))
  exact hrest

/-- A file has one content. -/
theorem HasContent.eq {c' : Bytes} (h : HasContent ino c w p) (h' : HasContent ino c' w p) : c = c' := by
  obtain ⟨rec, hget, -, hread⟩ := h
  exact Res.ok.inj (hread.symm.trans (h'.of_get hget).2)

/-- A `setattr` of a writable file is answered, and stores nothing. -/
theorem setattr_writable {size : Option UInt64} {reply : Res Errno Reply} (hget : p.getInode ino = .ok (some rec))
    (hmode : rec.mode = .writable) (h : setattr ino size (w, p) = (reply, w', p')) (hreply : reply ≠ .panic) :
    (∃ a, reply = .ok a) ∧ w' = w ∧ p' = p := by
  have hrec : inodeOf ino (w, p) = (.ok rec, w, p) := by
    refine Action.reads_eq_ok.mpr ⟨?_, rfl⟩
    dsimp only
    rw [hget]
  have hallowed : truncateAllowed rec = .ok () := by
    unfold truncateAllowed
    rw [hmode]
    rfl
  have hanswer : setattr ino size (w, p) = attrReply rec .attr (w, p) := by
    refine (Action.bind_of_ok hrec).trans ((Action.bind_of_ok (?_ : _ = (Res.ok false, w, p))).trans rfl)
    refine Action.reads_eq_ok.mpr ⟨?_, rfl⟩
    cases size with
    | none => rfl
    | some newSize =>
        dsimp only
        rw [hallowed, ite_self]
  rw [hanswer] at h
  obtain ⟨hattr, hsame⟩ := Prod.mk.inj h
  obtain ⟨rfl, rfl⟩ := Prod.mk.inj hsame
  refine ⟨?_, rfl, rfl⟩
  unfold attrOf at hattr
  split at hattr
  · exact absurd hattr.symm hreply
  · exact ⟨_, hattr.symm⟩

/-- A write to a writable file is one call of the pool. -/
theorem write_writable {env : Env} {offset : UInt64} {data : Bytes} {reply : Res Errno Reply}
    (hget : p.getInode ino = .ok (some rec)) (hmode : rec.mode = .writable)
    (h : write env ino offset data (w, p) = (reply, w', p')) (hreply : reply ≠ .panic) :
    ∃ res, Pool.step env (.write ino offset data) (w, p) = (res, w', p') ∧ res ≠ .panic ∧
      ((∃ a, reply = .ok a) ↔ ∃ v, res = .ok v) := by
  have hrec : inodeOf ino (w, p) = (.ok rec, w, p) := by
    refine Action.reads_eq_ok.mpr ⟨?_, rfl⟩
    dsimp only
    rw [hget]
  have hcall := (Action.bind_of_ok hrec).symm.trans h
  rw [classifyWrite_eq] at hcall
  simp only [hmode] at hcall
  exact unitVal_of_reply hcall hreply

/-- Extents without replicas cannot be read, if there is one. -/
theorem readFullContent_unreplicated {x : Extent} (hdata : rec.data = .extents [x]) (hnone : x.replicas = []) :
    p.readFullContent w rec = .err .unplaceable := by
  unfold readFullContent
  rw [hdata]
  simp only [List.foldlM_cons, hnone]
  rfl

/-- A write that returned Err has changed nothing. -/
theorem write_eq_err {ord : IterOrder} {offset : UInt64} {data : Bytes} {e : PoolError} (h : Resizable n w p ino rec)
    (hstep : Pool.step (Env.healthy ord) (.write ino offset data) (w, p) = (.err e, w', p')) :
    (w', p') = (w, p) ∧ ∀ redundancy content, p.planWrite w ino offset data = .ok (redundancy, content) →
      ∀ ids, p.place ord redundancy (wholeFileKey ino) ≠ .ok ids :=
  rewrite_eq_err h.tabled.handles h.membered rfl (dataPhase_write (Env.healthy ord) ino offset data)
    (fun _ _ hwhole => exists_updateExtents h.has h.mode hwhole) hstep

/-- A write leaves the file writable. -/
theorem writable_of_write {ord : IterOrder} {offset : UInt64} {data : Bytes} {res : Res PoolError PoolVal}
    (h : Resizable n w p ino rec) (hstep : Pool.step (Env.healthy ord) (.write ino offset data) (w, p) = (res, w', p'))
    (hres : res ≠ .panic) : ∃ rec', p'.getInode ino = .ok (some rec') ∧ rec'.mode = .writable := by
  cases res with
  | ok v =>
      obtain ⟨-, -, rec', -, -, -, hget, hmode, -⟩ := h.write_eq_ok hstep
      exact ⟨rec', hget, hmode⟩
  | err e =>
      obtain ⟨-, rfl⟩ := Prod.mk.inj (write_eq_err h hstep).1
      exact ⟨rec, h.get, h.mode⟩
  | panic => exact absurd rfl hres

section Write

variable {ord : IterOrder} {offset : UInt64} {data : Bytes}

/-- A write that does not panic has planned the content it means. -/
theorem planWrite_eq (h : Resizable n w p ino rec) (hread : p.readFullContent w rec = .ok c)
    (hres : (Pool.step (Env.healthy ord) (.write ino offset data) (w, p)).1 ≠ .panic) :
    p.planWrite w ino offset data = .ok (rec.redundancy, overwrite c offset.toNat data) := by
  have hplan := planWrite_of_content h.find h.mode hread offset data
  split at hplan
  · have hphase := phase_ne_panic (dataPhase_write (Env.healthy ord) ino offset data) hres
    exact absurd (Action.bind_of_panic hplan) hphase
  · exact hplan

/-- **A write that returned Ok** leaves the content it means exactly if that is on a disk, and its length fits an extent. -/
theorem hasContent_write {v : PoolVal} (h : Resizable n w p ino rec) (hread : p.readFullContent w rec = .ok c)
    (hstep : Pool.step (Env.healthy ord) (.write ino offset data) (w, p) = (.ok v, w', p'))
    (hlog : p'.metaStore.walCursor ≤ Wal.walCapacityBytes) :
    HasContent ino (overwrite c offset.toNat data) w' p' ↔
      (0 < max rec.size.toNat (offset.toNat + data.length) →
        ∀ ids, p.place ord rec.redundancy (wholeFileKey ino) = .ok ids →
          ids ≠ [] ∧ max rec.size.toNat (offset.toNat + data.length) < 2 ^ 32) := by
  have hlen := h.length_stored hread offset data
  obtain ⟨c', xs, rec', hread', hwhole, hplaced, hget, -, hdata, hsize⟩ := h.write_eq_ok hstep
  obtain rfl := Res.ok.inj (hread.symm.trans hread')
  rw [hwhole.size_eq] at hsize
  rw [← hlen]
  generalize hnew : overwrite c offset.toNat data = new at hwhole hplaced hlen hsize ⊢
  constructor
  · intro hafter hpos ids hplace
    obtain ⟨hsize', hread''⟩ := hafter.of_get hget
    obtain ⟨a, ids', replicas, hstored, -⟩ := hplaced (List.ne_nil_of_length_pos hpos)
    obtain rfl := Res.ok.inj (hplace.symm.trans hstored.place_eq)
    refine ⟨fun hnil => ?_, ?_⟩
    · -- stored on no disk, the one extent has no replica to read
      have hids := hstored.ids_eq
      rw [hnil] at hids
      rw [hstored.extents_eq] at hdata
      rw [readFullContent_unreplicated hdata (List.map_eq_nil_iff.mp hids)] at hread''
      cases hread''
    · rw [← hsize', hsize]
      exact Nat.mod_lt _ (by decide)
  · intro hplain
    refine ⟨rec', hget, ?_⟩
    rcases Nat.eq_zero_or_pos new.length with hzero | hpos
    · rcases hwhole with ⟨rfl, rfl⟩ | ⟨hne, -⟩
      · refine ⟨hsize, ?_⟩
        unfold readFullContent
        rw [hdata]
        show Res.ok (List.replicate rec'.size.toNat 0) = _
        rw [hsize]
        rfl
      · exact absurd (List.length_eq_zero_iff.mp hzero) hne
    · obtain ⟨a, ids, replicas, hstored, hret⟩ := hplaced (List.ne_nil_of_length_pos hpos)
      obtain ⟨hne, hsmall⟩ := hplain hpos ids hstored.place_eq
      have hkept := hret (fits_of_cursor_le h.tabled.wf hstep (by simp) hlog)
      have hmod := Nat.mod_eq_of_lt hsmall
      rw [hmod] at hsize
      refine ⟨hsize, ?_⟩
      have hreplicas : replicas ≠ [] := by
        rintro rfl
        exact hne hstored.ids_eq.symm
      rw [readFullContent_extent (hdata.trans (by rw [hstored.extents_eq])) (by rw [hmod, hsize]) hreplicas
        (fun r hr => (hstored.stored r hr).mono hkept), hmod, hsize, List.take_length, Nat.sub_self]
      exact congrArg Res.ok (List.append_nil new)

end Write

/-! ## What an exchange acts on -/

variable {ord : IterOrder} {req : Request} {reply : Res Errno Reply} {steps : List Exchange}

/-- A resize that changes nothing is one to the size the file has. -/
theorem hasContent_resized (hc : HasContent ino c w p) (hget : p.getInode ino = .ok (some rec)) (size : UInt64) :
    HasContent ino (resized size.toNat c) w p ↔ size = rec.size := by
  obtain ⟨hsize, -⟩ := hc.of_get hget
  constructor
  · intro hresized
    have hlen := (hresized.of_get hget).1
    rw [length_resized] at hlen
    exact UInt64.toNat.inj hlen.symm
  · rintro rfl
    rw [hsize, resized_length]
    exact hc

/-- **An exchange acts on the content of the file exactly if it is plain.** -/
theorem actsOn_iff (hon : req.OnFile ino) (hhandle : handle (Env.healthy ord) req (w, p) = (reply, w', p'))
    (hreply : reply ≠ .panic) (h : Resizable n w p ino rec) (hc : HasContent ino c w p)
    (hlog : p'.metaStore.walCursor ≤ Wal.walCapacityBytes) :
    Exchange.ActsOn ino c ⟨ord, w, p, req, reply, w', p'⟩ ↔ Exchange.Plain ino ⟨ord, w, p, req, reply, w', p'⟩ := by
  have hplain : ∀ P : InodeRecord → Prop, (∀ rec, p.getInode ino = .ok (some rec) → P rec) ↔ P rec := by
    intro P
    refine ⟨fun hall => hall rec h.get, fun hrec rec' hget => ?_⟩
    obtain rfl := Option.some.inj (Res.ok.inj (h.get.symm.trans hget))
    exact hrec
  obtain ⟨hsize, hread⟩ := hc.of_get h.get
  cases req with
  | setattr i size =>
      obtain rfl : i = ino := hon
      obtain ⟨⟨a, rfl⟩, rfl, rfl⟩ := setattr_writable h.get h.mode hhandle hreply
      cases size with
      | none => exact ⟨fun _ _ _ => trivial, fun _ => ⟨hc, fun _ _ heq => by cases heq⟩⟩
      | some size =>
          refine Iff.trans ?_ (hplain fun rec => size = rec.size).symm
          refine Iff.trans ?_ (hasContent_resized hc h.get size)
          exact ⟨And.left, fun hafter => ⟨hafter, fun _ _ heq => by cases heq⟩⟩
  | read i offset size =>
      obtain rfl : i = ino := hon
      refine ⟨fun _ _ _ => trivial, fun _ => ?_⟩
      have hsmall : c.length < 2 ^ 64 := by
        rw [← hsize]
        exact rec.size.toNat_lt
      have hanswer : read i offset size (w, p) = (.ok (.data (window c offset size.toUInt64)), w, p) :=
        Action.bind_of_ok (Action.mapErr_eq_ok.mpr
          (Action.reads_eq_ok.mpr ⟨read_of_content h.has hread hsmall offset size.toUInt64, rfl⟩))
      obtain ⟨rfl, hsame⟩ := Prod.mk.inj (hanswer.symm.trans hhandle)
      obtain ⟨rfl, rfl⟩ := Prod.mk.inj hsame
      refine ⟨hc, fun offset' size' heq => ?_⟩
      obtain ⟨-, rfl, rfl⟩ := Request.read.inj heq
      rfl
  | write i offset data =>
      obtain rfl : i = ino := hon
      refine Iff.trans ?_ (hplain fun rec => 0 < max rec.size.toNat (offset.toNat + data.length) →
        ∀ ids, p.place ord rec.redundancy (wholeFileKey i) = .ok ids →
          ids ≠ [] ∧ max rec.size.toNat (offset.toNat + data.length) < 2 ^ 32).symm
      obtain ⟨res, hstep, hres, hiff⟩ := write_writable h.get h.mode hhandle hreply
      cases res with
      | ok v =>
          obtain ⟨a, rfl⟩ := hiff.mpr ⟨v, rfl⟩
          refine Iff.trans ?_ (hasContent_write h hread hstep hlog)
          exact ⟨And.left, fun hafter => ⟨hafter, fun _ _ heq => by cases heq⟩⟩
      | err e =>
          obtain ⟨hsame, hno⟩ := write_eq_err h hstep
          have hplan := planWrite_eq h hread (by rw [hstep]; exact hres)
          obtain ⟨rfl, rfl⟩ := Prod.mk.inj hsame
          refine ⟨fun _ _ ids hplace => absurd hplace (hno _ _ hplan ids), fun _ => ?_⟩
          cases reply with
          | ok a =>
              obtain ⟨v, hv⟩ := hiff.mp ⟨a, rfl⟩
              cases hv
          | err e => exact ⟨hc, fun _ _ heq => by cases heq⟩
          | panic => exact absurd rfl hreply
      | panic => exact absurd rfl hres
  | lookup parent name => exact hon.elim
  | getattr i => exact hon.elim
  | create parent name mode uid gid now => exact hon.elim
  | unlink parent name => exact hon.elim
  | readdir i offset room => exact hon.elim
  | ioctl i cmd inData => exact hon.elim

/-! ## Runs of requests -/

/-- A request of the file leaves it writable. -/
theorem writable_of_handle (hon : req.OnFile ino) (hhandle : handle (Env.healthy ord) req (w, p) = (reply, w', p'))
    (hreply : reply ≠ .panic) (h : Resizable n w p ino rec) :
    ∃ rec', p'.getInode ino = .ok (some rec') ∧ rec'.mode = .writable := by
  have hidle : Performs (Env.healthy ord) w p req reply w' p' → p' = p ∨ ∃ op res,
      Calls p req op ∧ Pool.step (Env.healthy ord) op (w, p) = (res, w', p') ∧ res ≠ .panic := by
    intro hperforms
    cases hperforms with
    | idle => exact Or.inl rfl
    | call hcall hstep hres => exact Or.inr ⟨_, _, hcall, hstep, hres⟩
    | convert => exact hon.elim
  rcases hidle (handle_performs hhandle hreply) with rfl | ⟨op, res, hcall, hstep, hres⟩
  · exact ⟨rec, h.get, h.mode⟩
  · cases hcall with
    | create => exact hon.elim
    | unlink => exact hon.elim
    | append hget hmode =>
        obtain rfl : _ = ino := hon
        obtain rfl := Option.some.inj (Res.ok.inj (h.get.symm.trans hget))
        exact absurd h.mode hmode
    | overwrite =>
        obtain rfl : _ = ino := hon
        exact writable_of_write h hstep hres
    | begin => exact hon.elim
    | policy => exact hon.elim

/-- A reachable pool, with what a run up to it promises, in which the file is writable. -/
def Reached (n : Nat) (ino : InodeId) (w : World) (p : Pool) : Prop :=
  (∃ events, Run n w p events ∧ LogFits events ∧ ReopenedDurable events) ∧
    ∃ rec, p.getInode ino = .ok (some rec) ∧ rec.mode = .writable

theorem Reached.resizable (h : Reached n ino w p) : ∃ rec, Resizable n w p ino rec := by
  obtain ⟨⟨events, hrun, hfits, hdurable⟩, rec, hget, hmode⟩ := h
  exact ⟨rec, hrun.rewritable hfits hdurable (findInode_of_getInode hget), hget, hmode⟩

theorem Reached.wf (h : Reached n ino w p) : MetaWf p.metaStore := by
  obtain ⟨⟨events, hrun, -⟩, -⟩ := h
  exact hrun.wf.1

/-- One more request of the file. -/
theorem Reached.next (hreached : Reached n ino w p) (hon : req.OnFile ino)
    (hhandle : handle (Env.healthy ord) req (w, p) = (reply, w', p')) (hreply : reply ≠ .panic)
    (hlog : p'.metaStore.walCursor ≤ Wal.walCapacityBytes) : Reached n ino w' p' := by
  obtain ⟨rec, h⟩ := hreached.resizable
  have hrule := (handle_performs hhandle hreply).rule (I := fun v q => MetaWf q.metaStore ∧
    (q.metaStore.walCursor ≤ Wal.walCapacityBytes → ∃ events, Run n v q events ∧ LogFits events ∧ ReopenedDurable events))
    ⟨hreached.wf, fun _ => hreached.1⟩ ?_
  · exact ⟨hrule.2 hlog, writable_of_handle hon hhandle hreply h⟩
  · rintro w p op res w' p' hstep hres ⟨hwf, hrun⟩
    refine ⟨hwf.call hstep hres, fun hlog => ?_⟩
    obtain ⟨events, hrun, hfits, hdurable⟩ := hrun (Nat.le_trans (cursor_le_step hwf hstep hres) hlog)
    exact ⟨_, hrun.call _ _ hstep hres, hfits.call hwf hstep hres hlog, BeforeReopens.call hdurable⟩

/-- A run of requests leaves the log where it was, or longer. -/
theorem Interleaving.cursor_le (h : Interleaving ino w p steps w' p') (hwf : MetaWf p.metaStore) :
    p.metaStore.walCursor ≤ p'.metaStore.walCursor := by
  induction h with
  | done => exact Nat.le_refl _
  | next hon hhandle hreply hrest ih =>
      obtain ⟨hwf₁, hle⟩ := (handle_performs hhandle hreply).log hwf
      exact Nat.le_trans hle (ih hwf₁)

/-- **A run of requests acts on the content of the file exactly if each of them is plain.** -/
theorem Interleaving.actOn_iff (h : Interleaving ino w p steps w' p') (hreached : Reached n ino w p)
    (hc : HasContent ino c w p) (hlog : p'.metaStore.walCursor ≤ Wal.walCapacityBytes) :
    ActOn ino c steps ↔ ∀ s ∈ steps, s.Plain ino := by
  induction h generalizing c with
  | done => exact ⟨fun _ s hs => absurd hs (List.not_mem_nil), fun _ => trivial⟩
  | next hon hhandle hreply hrest ih =>
      obtain ⟨rec, hfile⟩ := hreached.resizable
      have hwf₁ := ((handle_performs hhandle hreply).log hreached.wf).1
      have hlog₁ := Nat.le_trans (hrest.cursor_le hwf₁) hlog
      have hfirst := actsOn_iff hon hhandle hreply hfile hc hlog₁
      have hnext := hreached.next hon hhandle hreply hlog₁
      rw [List.forall_mem_cons]
      constructor
      · rintro ⟨hacts, hrestacts⟩
        exact ⟨hfirst.mp hacts, (ih hnext hacts.1 hlog).mp hrestacts⟩
      · rintro ⟨hplain, hrestplain⟩
        have hacts := hfirst.mpr hplain
        exact ⟨hacts, (ih hnext hacts.1 hlog).mpr hrestplain⟩

/-- What is left of a run at one of its requests. -/
theorem Interleaving.suffix {s : Exchange} {rest : List Exchange} (h : Interleaving ino w p steps w' p')
    (hreached : Reached n ino w p) (hlog : p'.metaStore.walCursor ≤ Wal.walCapacityBytes) (hs : s :: rest <:+ steps) :
    Interleaving ino s.world s.pool (s :: rest) w' p' ∧ Reached n ino s.world s.pool := by
  induction h with
  | done => cases List.suffix_nil.mp hs
  | next hon hhandle hreply hrest ih =>
      have hwf₁ := ((handle_performs hhandle hreply).log hreached.wf).1
      rcases List.suffix_cons_iff.mp hs with heq | hs
      · obtain ⟨rfl, rfl⟩ := List.cons.inj heq
        exact ⟨.next hon hhandle hreply hrest, hreached⟩
      · exact ih (hreached.next hon hhandle hreply (Nat.le_trans (hrest.cursor_le hwf₁) hlog)) hlog hs

/-- A resize is answered, and leaves the size it asked for exactly if it is the size the file has. -/
theorem Interleaving.resize {s : Exchange} {rest : List Exchange} {size : UInt64}
    (h : Interleaving ino w p (s :: rest) w' p') (hreached : Reached n ino w p) (hreq : s.req = .setattr ino (some size)) :
    (∃ a, s.reply = .ok a) ∧
      ((∃ rec', s.pool'.getInode ino = .ok (some rec') ∧ rec'.size = size) ↔ s.Plain ino) := by
  obtain ⟨rec, hfile⟩ := hreached.resizable
  cases h with
  | @next _ _ ord req reply w₁ p₁ _ _ _ hon hhandle hreply hrest =>
      obtain rfl : req = .setattr ino (some size) := hreq
      have hsetattr : setattr ino (some size) (w, p) = (reply, w₁, p₁) := hhandle
      obtain ⟨hanswered, rfl, rfl⟩ := setattr_writable hfile.get hfile.mode hsetattr hreply
      refine ⟨hanswered, ?_, fun hplain => ⟨rec, hfile.get, (hplain rec hfile.get).symm⟩⟩
      rintro ⟨rec₁, hget₁, rfl⟩ rec' hget'
      obtain rfl := Option.some.inj (Res.ok.inj (Eq.trans hget₁.symm hget'))
      rfl

/-- **When resizing a writable file means what it says.** For every run of writes, reads and `setattr`s of a writable file on
    healthy disks: every resize leaves the size it asked for, and it and what follows act on the content as cut or
    extended, exactly if every resize asks for the size the file has and, where the file can be read, every request that
    follows is plain. -/
theorem resizes_mean_iff (hrun : Run n w p events) (hfits : LogFits events) (hdurable : ReopenedDurable events)
    (hget : p.getInode ino = .ok (some rec)) (hmode : rec.mode = .writable) (h : Interleaving ino w p steps w' p')
    (hlog : p'.metaStore.walCursor ≤ Wal.walCapacityBytes) :
    ResizesMean ino steps ↔
      ∀ s rest size, s :: rest <:+ steps → s.req = .setattr ino (some size) → s.Plain ino ∧
        ((∃ c, HasContent ino c s.world s.pool) → ∀ t ∈ rest, t.Plain ino) := by
  have hreached : Reached n ino w p := ⟨⟨events, hrun, hfits, hdurable⟩, rec, hget, hmode⟩
  constructor
  · intro hmean s rest size hs hreq
    obtain ⟨htail, hreached⟩ := h.suffix hreached hlog hs
    obtain ⟨⟨a, hanswered⟩, hsize⟩ := htail.resize hreached hreq
    obtain ⟨hleft, hacts⟩ := hmean s rest size a hs hreq hanswered
    refine ⟨hsize.mp hleft, ?_⟩
    rintro ⟨c, hc⟩
    exact (List.forall_mem_cons.mp ((htail.actOn_iff hreached hc hlog).mp (hacts c hc))).2
  · intro hplain s rest size a hs hreq _
    obtain ⟨htail, hreached⟩ := h.suffix hreached hlog hs
    obtain ⟨hfirst, hrest⟩ := hplain s rest size hs hreq
    refine ⟨(htail.resize hreached hreq).2.mpr hfirst, fun c hc => ?_⟩
    exact (htail.actOn_iff hreached hc hlog).mpr (List.forall_mem_cons.mpr ⟨hfirst, hrest ⟨c, hc⟩⟩)

theorem getInode_sample : sampleSession.2.2.getInode 2 = .ok (some sampleFile) := by decide +kernel

/-- The theorem at a resize to the size the file has, a write and a read. -/
theorem resizes_mean_iff_sample : ∃ w p steps w' p', Run 1 w p sampleEvents ∧
    steps.map Exchange.req = [.setattr 2 (some 4), .write 2 1 [7, 7, 7], .read 2 0 4] ∧
    Interleaving 2 w p steps w' p' ∧ ResizesMean 2 steps := by
  have hset : (handle (Env.healthy MetaStore.listOrder) (.setattr 2 (some 4))
      (sampleSession.2.1, sampleSession.2.2)).1 ≠ .panic := by decide +kernel
  have hwrite : (handle (Env.healthy MetaStore.listOrder) (.write 2 1 [7, 7, 7])
      (sampleSession.2.1, sampleSession.2.2)).1 ≠ .panic := by decide +kernel
  have hread : (handle (Env.healthy MetaStore.listOrder) (.read 2 0 4) (handle (Env.healthy MetaStore.listOrder)
      (.write 2 1 [7, 7, 7]) (sampleSession.2.1, sampleSession.2.2)).2).1 ≠ .panic := by decide +kernel
  have hlog : (handle (Env.healthy MetaStore.listOrder) (.read 2 0 4) (handle (Env.healthy MetaStore.listOrder)
      (.write 2 1 [7, 7, 7]) (sampleSession.2.1, sampleSession.2.2)).2).2.2.metaStore.walCursor ≤
        Wal.walCapacityBytes := by decide +kernel
  have hrun := run_sample
  have hget := getInode_sample
  have hplace := place_sample
  refine ⟨sampleSession.2.1, sampleSession.2.2, ?_⟩
  generalize sampleSession.2.1 = w at *
  generalize sampleSession.2.2 = p at *
  generalize hout₁ : handle (Env.healthy MetaStore.listOrder) (.setattr 2 (some 4)) (w, p) = out₁ at hset
  generalize hout₂ : handle (Env.healthy MetaStore.listOrder) (.write 2 1 [7, 7, 7]) (w, p) = out₂ at hwrite hread hlog
  obtain ⟨r₁, w₁, p₁⟩ := out₁
  obtain ⟨r₂, w₂, p₂⟩ := out₂
  generalize hout₃ : handle (Env.healthy MetaStore.listOrder) (.read 2 0 4) (w₂, p₂) = out₃ at hread hlog
  obtain ⟨r₃, w₃, p₃⟩ := out₃
  have hsame : setattr 2 (some 4) (w, p) = (r₁, w₁, p₁) := hout₁
  obtain ⟨-, rfl, rfl⟩ := setattr_writable hget rfl hsame hset
  have hlast := Interleaving.next (show Request.OnFile 2 (.read 2 0 4) from rfl) hout₃ hread .done
  have hsteps := Interleaving.next (show Request.OnFile 2 (.setattr 2 (some 4)) from rfl) hout₁ hset
    (.next (show Request.OnFile 2 (.write 2 1 [7, 7, 7]) from rfl) hout₂ hwrite hlast)
  refine ⟨_, _, _, hrun, rfl, hsteps, (resizes_mean_iff hrun (by decide +kernel) durable_sample hget rfl hsteps hlog).mpr ?_⟩
  intro s rest size hs hreq
  have hfile : ∀ rec, p₁.getInode 2 = .ok (some rec) → rec = sampleFile := fun rec h =>
    (Option.some.inj (Res.ok.inj (hget.symm.trans h))).symm
  rcases List.suffix_cons_iff.mp hs with heq | hs
  · obtain ⟨rfl, rfl⟩ := List.cons.inj heq
    obtain ⟨-, hsize⟩ := Request.setattr.inj hreq
    obtain rfl := Option.some.inj hsize
    refine ⟨fun rec h => ?_, fun _ => List.forall_mem_cons.mpr ⟨fun rec h hpos ids hids => ?_,
      List.forall_mem_singleton.mpr fun _ _ => trivial⟩⟩
    · obtain rfl := hfile rec h
      rfl
    · obtain rfl := hfile rec h
      obtain rfl := Res.ok.inj (hplace.symm.trans hids)
      exact ⟨by decide, by decide⟩
  · -- no other request is a resize
    rcases List.suffix_cons_iff.mp hs with heq | hs
    · obtain ⟨rfl, -⟩ := List.cons.inj heq
      cases hreq
    · rcases List.suffix_cons_iff.mp hs with heq | hs
      · obtain ⟨rfl, -⟩ := List.cons.inj heq
        cases hreq
      · cases List.suffix_nil.mp hs

/-- A file of four bytes, asked to be one byte long: the request replies success, and the four bytes are still there. -/
theorem shrink_ignored : ∃ w p reply, Run 1 w p sampleEvents ∧ p.getInode 2 = .ok (some sampleFile) ∧
    Interleaving 2 w p [⟨MetaStore.listOrder, w, p, .setattr 2 (some 1), .ok reply, w, p⟩] w p ∧
    ¬ResizesMean 2 [⟨MetaStore.listOrder, w, p, .setattr 2 (some 1), .ok reply, w, p⟩] := by
  have hset : (handle (Env.healthy MetaStore.listOrder) (.setattr 2 (some 1))
      (sampleSession.2.1, sampleSession.2.2)).1 ≠ .panic := by decide +kernel
  have hget := getInode_sample
  refine ⟨sampleSession.2.1, sampleSession.2.2, ?_⟩
  have hrun := run_sample
  generalize sampleSession.2.1 = w at *
  generalize sampleSession.2.2 = p at *
  generalize hout : handle (Env.healthy MetaStore.listOrder) (.setattr 2 (some 1)) (w, p) = out at hset
  obtain ⟨r, w', p'⟩ := out
  have hsame : setattr 2 (some 1) (w, p) = (r, w', p') := hout
  obtain ⟨⟨reply, rfl⟩, rfl, rfl⟩ := setattr_writable hget rfl hsame hset
  refine ⟨reply, hrun, hget, .next (show Request.OnFile 2 (.setattr 2 (some 1)) from rfl) hout hset .done, fun hmean => ?_⟩
  obtain ⟨⟨rec, hget', hsize⟩, -⟩ := hmean _ _ _ _ List.suffix_rfl rfl rfl
  obtain rfl := Option.some.inj (Res.ok.inj (hget.symm.trans hget'))
  exact absurd hsize (by decide)

end Tartine.Fuse
