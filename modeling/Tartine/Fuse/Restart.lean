import Tartine.Fuse.Answered
import Tartine.Meta.PoolCrash

/-!
# `Fuse.Restart` — the daemon is stopped, and mounted again

A mount lasts until its process ends: between two requests, or in the middle of one. Whoever mounts the disks next finds
what is on them. `service n` is the daemon over `n` disks with all of this: it serves, it is stopped, it crashes in a
request (some of whose writes are made, each whole or not at all), and it is mounted again. `lasting n` is the file system
of `Fuse.FileSystem` under the same acts: being stopped and mounted again changes nothing in it, and a crash only leaves
open what became of the request that was being served.

Extents are not found again by the scan of `open`, so no request may store one (`Request.Plain`).

* `handle_asks` — a plain request is one call of the pool, or none;
* `Mirrors.stands` — a pool mirrors what the pool it stands for mirrored;
* `Live.serve`, `Live.crash`, `Rests.restart` — one act;
* `restarts_refine` — and any number of them.
-/

namespace Tartine.Fuse

open Basis Codec Pool

variable {env : Env} {ord : IterOrder} {w w' w₁ : World} {p p' p₁ q : Pool} {s s' : FileSystem} {n : Nat} {ino i : InodeId}
  {rec : InodeRecord} {f : File} {req : Request} {r : Res Errno Reply} {op : PoolOp}

/-! ## Requests that store no extent -/

/-- The request completes no conversion, and writes no bytes into the root, the one file that is writable without one. -/
def Request.Plain : Request → Prop
  | .write ino _ _        => ino ≠ rootInode
  | .ioctl _ cmd inData   => cmd = tartineIocMakeWritable → FileSystem.waits inData = false
  | _                     => True

instance : DecidablePred Request.Plain := fun req => by
  cases req <;> unfold Request.Plain <;> infer_instance

/-- The call a plain request makes, with what it was found to be asking. -/
inductive Asks (p : Pool) : Request → PoolOp → Prop where
  | create {parent name name' mode uid gid now} (hname : FileSystem.decodeName name = .ok name')
      (hfree : p.metaStore.view.lookup parent name' = none) : Asks p (.create parent name mode uid gid now)
      (.createFile parent name' (defaultRedundancy p.diskCount) uid gid (sIfreg ||| (mode &&& 0o7777)) now)
  | unlink {parent name name'} (hname : FileSystem.decodeName name = .ok name') :
      Asks p (.unlink parent name) (.unlink parent name')
  | append {ino offset data} : Asks p (.write ino offset data) (.append ino data)
  | overwrite {ino offset data rec} (hget : p.getInode ino = .ok (some rec)) (hmode : rec.mode = .writable) :
      Asks p (.write ino offset data) (.write ino offset data)
  | begin {ino inData} : Asks p (.ioctl ino tartineIocMakeWritable inData) (.beginConvert ino)
  | policy {ino inData scheme} : Asks p (.ioctl ino tartineIocSetRedundancy inData) (.setRedundancy ino scheme)

/-- Where a handler leaves the disks and the pool, whatever its environment: where it found them, or where one call of the
    pool does. -/
def Leads (w : World) (p : Pool) (req : Request) (x : Env → FuseM Reply) : Prop :=
  (∀ env, (x env (w, p)).2 = (w, p)) ∨ ∃ op, Asks p req op ∧ ∀ env, (x env (w, p)).2 = (Pool.step env op (w, p)).2

theorem state_reply {x : PoolM Unit} {g : PoolError → Errno} {reply : Reply} (a : World × Pool) :
    ((do Action.mapErr g x; pure reply : FuseM Reply) a).2 = (unitVal x a).2 :=
  (Action.state_returns (x := Action.mapErr g x)).trans (Action.state_returns (x := x)).symm

/-- A call without a value, and the reply to it. -/
theorem leads_reply {x : Env → PoolM Unit} {g : PoolError → Errno} {reply : Reply} (hasks : Asks p req op)
    (hop : ∀ env, Pool.step env op = unitVal (x env)) :
    Leads w p req fun env => (do Action.mapErr g (x env); pure reply : FuseM Reply) :=
  Or.inr ⟨op, hasks, fun env => by rw [state_reply, hop]⟩

/-- What looks at the state first, and goes on. -/
theorem leads_reads {α : Type} {g : World × Pool → Res Errno α} {f : Env → α → FuseM Reply}
    (h : ∀ a, g (w, p) = .ok a → Leads w p req fun env => f env a) : Leads w p req fun env => Action.reads g >>= f env := by
  cases hg : g (w, p) with
  | ok a =>
      have hfirst : ∀ env, ((Action.reads g >>= f env) (w, p)).2 = (f env a (w, p)).2 :=
        fun env => congrArg Prod.snd (Action.bind_of_ok (reads_ok hg))
      rcases h a hg with hsame | ⟨op, hasks, hstep⟩
      · exact Or.inl fun env => (hfirst env).trans (hsame env)
      · exact Or.inr ⟨op, hasks, fun env => (hfirst env).trans (hstep env)⟩
  | err e => exact Or.inl fun env => congrArg Prod.snd (Action.bind_of_err (reads_err hg))
  | panic =>
      refine Or.inl fun env => Action.state_bind_of_fail (x := Action.reads g) fun a hok => ?_
      cases hg.symm.trans hok

theorem leads_create {parent : InodeId} {name : Bytes} {mode uid gid : UInt32} {now : UInt64} :
    Leads w p (.create parent name mode uid gid now) fun env => create env parent name mode uid gid now := by
  refine leads_reads fun name' hname => leads_reads fun _ hfree => leads_reads fun redundancy hscheme => ?_
  obtain rfl := Res.ok.inj hscheme
  have hlookup : p.metaStore.view.lookup parent name' = none := by
    cases hlookup : p.metaStore.view.lookup parent name' with
    | none => rfl
    | some child => simp [hlookup] at hfree
  refine Or.inr ⟨_, .create hname hlookup, fun env => ?_⟩
  rw [Action.state_bind_of_looks fun id a => keeps_created id a]
  exact (Action.state_returns (x := Pool.createFile env parent name' _ uid gid _ now)).symm

theorem leads_unlink {parent : InodeId} {name : Bytes} :
    Leads w p (.unlink parent name) fun env => unlink env parent name :=
  leads_reads fun _ hname => leads_reply (.unlink hname) fun _ => rfl

theorem leads_write {offset : UInt64} {data : Bytes} :
    Leads w p (.write ino offset data) fun env => write env ino offset data := by
  refine leads_reads fun rec hrec => ?_
  have hget : p.getInode ino = .ok (some rec) := (inodeOf_eq_ok (w := w) (reads_ok hrec)).1
  have happend : Leads w p (.write ino offset data) fun env => (do
      Action.mapErr errnoFor (Pool.append env ino data); pure (.written (UInt32.ofNat data.length)) : FuseM Reply) :=
    leads_reply .append fun env => rfl
  have hrefused : ∀ e : Errno, Leads w p (.write ino offset data) fun _ => (Action.reads fun _ => .err e : FuseM Reply) :=
    fun e => Or.inl fun env => rfl
  rw [classifyWrite_eq]
  cases hmode : rec.mode with
  | appendOnly =>
      by_cases hend : offset = rec.size
      · simpa only [if_pos hend] using happend
      · simpa only [if_neg hend] using hrefused .eperm
  | converting =>
      by_cases hend : offset = rec.size
      · simpa only [if_pos hend] using happend
      · simpa only [if_neg hend] using hrefused .eagain
  | writable => exact leads_reply (.overwrite hget hmode) fun env => rfl

theorem leads_ioctl {cmd : UInt32} {inData : Bytes} (hplain : (Request.ioctl ino cmd inData).Plain) :
    Leads w p (.ioctl ino cmd inData) fun env => ioctl env ino cmd inData := by
  have hreads : ∀ g : InodeRecord → Reply,
      Leads w p (.ioctl ino cmd inData) fun _ => (do let rec ← inodeOf ino; pure (g rec) : FuseM Reply) :=
    fun g => Or.inl fun env => Action.state_returns (x := inodeOf ino)
  have hrefused : ∀ e : Errno, Leads w p (.ioctl ino cmd inData) fun _ => (Action.reads fun _ => .err e : FuseM Reply) :=
    fun e => Or.inl fun env => rfl
  unfold ioctl
  by_cases hconvert : cmd = tartineIocMakeWritable
  · subst hconvert
    by_cases hlen : inData.length < 4
    · simpa only [if_true, if_pos hlen] using hrefused .einval
    · have hwait : ¬UInt32.ofNat (leNat (field inData 0 4)) &&& tartineConvertFlagWait ≠ 0 := by
        simpa [FileSystem.waits] using hplain rfl
      simp only [if_true, if_neg hlen, makeWritable, if_neg hwait]
      exact leads_reply .begin fun env => rfl
  · simp only [if_neg hconvert]
    by_cases hstate : cmd = tartineIocGetState
    · simpa only [if_pos hstate] using hreads _
    · simp only [if_neg hstate]
      by_cases hset : cmd = tartineIocSetRedundancy
      · subst hset
        simp only [if_true, setRedundancy]
        exact leads_reads fun scheme hdecode => leads_reply .policy fun env => rfl
      · simp only [if_neg hset]
        by_cases hget : cmd = tartineIocGetRedundancy
        · simpa only [if_pos hget] using hreads _
        · simpa only [if_neg hget] using hrefused .enotty

/-- **A plain request is one call of the pool, or none**, wherever it may be stopped. -/
theorem handle_asks (hplain : req.Plain) : Leads w p req fun env => handle env req := by
  have hreads : req.ReadsOnly → Leads w p req fun env => handle env req :=
    fun hreq => Or.inl fun env => keeps_of_reads hreq (w, p)
  cases req with
  | lookup parent name => exact hreads trivial
  | getattr ino => exact hreads trivial
  | setattr ino size => exact hreads trivial
  | create parent name mode uid gid now => exact leads_create
  | unlink parent name => exact leads_unlink
  | read ino offset size => exact hreads trivial
  | write ino offset data => exact leads_write
  | readdir ino offset room => exact hreads trivial
  | ioctl ino cmd inData => exact leads_ioctl hplain

/-! ## What a crash may leave -/

namespace FileSystem

/-- Only the root is writable. -/
def OnlyRoot (s : FileSystem) : Prop := ∀ i f, s.file i = some f → f.mode = .writable → i = rootInode

/-- **Step lemma.** A plain request makes no file writable. -/
theorem OnlyRoot.serves (h : s.OnlyRoot) (hplain : req.Plain) (hserves : s.Serves n (req, r) s') : s'.OnlyRoot := by
  intro i f hf hmode
  have hbecame := hserves.became i
  generalize s'.file i = stands at hbecame hf
  cases hbecame with
  | same => exact h i f hf hmode
  | created hi =>
      obtain rfl := Option.some.inj hf
      cases hmode
  | written hold hwrite =>
      obtain rfl := Option.some.inj hf
      exact h i _ hold hmode
  | converted hold hwaits =>
      obtain rfl := Option.some.inj hf
      have hnot : waits _ = false := hplain rfl
      cases (hwaits hmode).symm.trans hnot
  | policed hold hdecode =>
      obtain rfl := Option.some.inj hf
      exact h i _ hold hmode

theorem onlyRoot_mounted (n : Nat) (now : UInt64) : (mounted n now).OnlyRoot := by
  intro i f hf _
  by_cases hi : i = rootInode
  · exact hi
  · simp [mounted, hi] at hf

/-- What is left of a request that was cut off: nothing of it, all of it, or a new file that has no name. -/
inductive Leaves (n : Nat) (s : FileSystem) : Request → FileSystem → Prop where
  | nothing {req : Request} : Leaves n s req s
  | all {req : Request} {a : Reply} {s' : FileSystem} (h : s.request n req = .ok (a, s')) : Leaves n s req s'
  | unnamed {parent name mode uid gid now a} {s' : FileSystem}
      (h : s.request n (.create parent name mode uid gid now) = .ok (a, s')) :
      Leaves n s (.create parent name mode uid gid now) { s' with names := s.names }

/-- What was served is left. -/
theorem Serves.leaves (h : s.Serves n (req, r) s') (hplain : req.Plain) : s.Leaves n req s' := by
  cases h with
  | granted hreq => exact .all hreq
  | refused hreq => exact .nothing
  | unplaced hreq => exact .nothing
  | full hreq hf hmode => exact .nothing
  | stuck hreq hwaits =>
      have hnot : waits _ = false := hplain rfl
      cases hwaits.symm.trans hnot

end FileSystem

/-! ## A pool that stands for another -/

theorem Asks.chunked (h : Asks p req op) (hm : Mirrors n w p s) (hroot : s.OnlyRoot) (hplain : req.Plain) : Chunked op := by
  cases h with
  | @overwrite ino offset data rec hget hmode =>
      cases hm.find ino with
      | file hget' hfile hrec hhas hsound =>
          obtain rfl := Option.some.inj (Res.ok.inj (hget.symm.trans hget'))
          exact absurd (hroot ino _ hfile (hrec.mode.symm.trans hmode)) hplain
      | absent hget' hfile => cases hget.symm.trans hget'
  | create hname hfree => trivial
  | unlink hname => trivial
  | append => trivial
  | begin => trivial
  | policy => trivial

theorem inRange_of_chunked (h : Chunked op) : op.InRange := by
  cases op with
  | write inode offset data => exact h.elim
  | _ => trivial

/-- **A pool mirrors what the pool it stands for mirrored.** -/
theorem Mirrors.stands (hm : Mirrors n w p s) (h : StandsFor (w, p) (w', q)) (hq : Lasting n w' q) : Mirrors n w' q s := by
  have hview : q.metaStore.view = p.metaStore.view := h.view_eq
  refine ⟨⟨hq.wf, hq.handles, ?_, ?_, ?_⟩, hm.small, ⟨hq.wf, hq.handles, ?_, ?_⟩, hq.disks_eq, hm.disks_pos, ?_, ?_, ?_⟩
  · rw [hview]
    exact hm.sound.records.mono fun rec hrec => hrec.mono h.retains h.log_le rfl
  · rw [hview]
    exact hm.sound.keys
  · rw [hview]
    exact hm.sound.present
  · rw [hview]
    exact hm.intact.records.mono fun rec hrec => lists_mono hrec h.retains h.log_le
  · rw [hview]
    exact hm.intact.keys
  · rw [hview]
    exact hm.records
  · rw [hview]
    exact hm.names
  · rw [hview]
    exact hm.next

/-! ## Acts -/

/-- What holds of a mounted daemon between two requests: `open` would find it again. -/
structure Live (n : Nat) (w : World) (p : Pool) (s : FileSystem) : Prop extends Steady n w p s where
  lasting : Lasting n w p
  onlyRoot : s.OnlyRoot

/-- What holds of the disks of a daemon that was stopped: they are those of a pool that `open` would find. -/
structure Rests (n : Nat) (w : World) (p : Pool) (s : FileSystem) : Prop where
  mirrors : Mirrors n w p s
  lasting : Lasting n w p
  next : p.metaStore.view.nextInode.toNat ≤ 2 + p.metaStore.walCursor
  timed : s.Timed
  onlyRoot : s.OnlyRoot

theorem Live.rests (h : Live n w p s) (hstands : StandsFor (w, p) (w', q)) (hq : Lasting n w' q) : Rests n w' q s := by
  refine ⟨h.mirrors.stands hstands hq, hq, ?_, h.timed, h.onlyRoot⟩
  rw [show q.metaStore.view = p.metaStore.view from hstands.view_eq]
  exact Nat.le_trans h.headroom.next (Nat.add_le_add_left hstands.log_le 2)

/-- The call a plain request makes, on disks that do not fail. -/
theorem Live.call (h : Live n w p s) (hplain : req.Plain) (hasks : Asks p req op)
    (hroom : (Pool.step (Env.healthy ord) op (w, p)).2.2.metaStore.walCursor ≤ Wal.walCapacityBytes) :
    Chunked op ∧ (Pool.step (Env.healthy ord) op (w, p)).1 ≠ .panic ∧ ∀ c ∈ p.metaCalls (Env.healthy ord) w op, c.Fits := by
  have hop := hasks.chunked h.mirrors h.onlyRoot hplain
  have hres := h.call_ne_panic h.lasting.log_le (Env.healthy ord) op (inRange_of_chunked hop)
  exact ⟨hop, hres, fits_of_cursor_le h.mirrors.sound.wf rfl hres hroom⟩

/-- **A request that is served.** -/
theorem Live.serve (h : Live n w p s) (hplain : req.Plain) (hrange : req.InRange)
    (hhandle : handle (Env.healthy ord) req (w, p) = (r, w', p')) (hend : p'.metaStore.walCursor ≤ Wal.walCapacityBytes) :
    r ≠ .panic ∧ ∃ s', s.Serves n (req, r) s' ∧ Live n w' p' s' := by
  obtain ⟨hr, s', hserves, hst⟩ := h.toSteady.serve hrange hhandle hend
  refine ⟨hr, s', hserves, hst, ?_, h.onlyRoot.serves hplain hserves⟩
  have hstate := congrArg Prod.snd hhandle
  rcases handle_asks (w := w) (p := p) hplain with hsame | ⟨op, hasks, hstep⟩
  · obtain ⟨rfl, rfl⟩ := Prod.mk.inj (hstate.symm.trans (hsame _))
    exact h.lasting
  · have hstep : (Pool.step (Env.healthy ord) op (w, p)).2 = (w', p') := (hstep _).symm.trans hstate
    obtain ⟨hop, hres, hfit⟩ := h.call hplain hasks (show (Pool.step (Env.healthy ord) op (w, p)).2.2.metaStore.walCursor ≤ _ by rwa [hstep])
    exact h.lasting.step hop hfit (Prod.ext rfl hstep) hres

/-- The log has room for the request: on disks that do not fail it would still end within its region. -/
def Roomy (ord : IterOrder) (w : World) (p : Pool) (req : Request) : Prop :=
  (handle (Env.healthy ord) req (w, p)).2.2.metaStore.walCursor ≤ Wal.walCapacityBytes

instance (ord : IterOrder) (w : World) (p : Pool) (req : Request) : Decidable (Roomy ord w p req) :=
  inferInstanceAs (Decidable (_ ≤ _))

/-- A new file that was created, and not yet named. -/
theorem Live.unnamed {parent : InodeId} {name : Bytes} {mode uid gid unixMode : UInt32} {now : UInt64} {id : InodeId}
    {s₁ s₂ : MetaStore} {name' : String} (h : Live n w p s) (hrange : (Request.create parent name mode uid gid now).InRange)
    (hname : FileSystem.decodeName name = .ok name') (hfree : p.metaStore.view.lookup parent name' = none)
    (hmode : unixMode = sIfreg ||| (mode &&& 0o7777)) (halloc : p.metaStore.allocInode = .ok (id, s₁))
    (hfit : s₁.walCursor + (MetaStore.opFrame ord (.createInode (Pool.newFile id (defaultRedundancy p.diskCount) uid gid
      unixMode now))).length ≤ Wal.walCapacityBytes)
    (hcreate : s₁.apply (Env.healthy ord) w (.createInode (Pool.newFile id (defaultRedundancy p.diskCount) uid gid unixMode now)) =
      (.ok (), w₁, s₂))
    (hstands : StandsFor (w₁, { p with metaStore := s₂ }) (w', q)) (hq : Lasting n w' q) :
    ∃ s', s.Leaves n (.create parent name mode uid gid now) s' ∧ Rests n w' q s' := by
  subst hmode
  have hnew : name' ∉ s.names parent := by
    rw [Std.ExtTreeMap.mem_iff_isSome_getElem?, ← h.mirrors.names.lookup, hfree]
    simp
  have hreq : s.request n (.create parent name mode uid gid now) = .ok
      (.created ((newFile (defaultRedundancy n) uid gid (sIfreg ||| (mode &&& 0o7777)) now).attr s.next),
        s.add parent name' (newFile (defaultRedundancy n) uid gid (sIfreg ||| (mode &&& 0o7777)) now)) := by
    simp [FileSystem.request, hname, hnew, newFile]
  have hserves := FileSystem.Serves.granted hreq
  rw [defaultRedundancy_diskCount h.mirrors.disks_pos h.mirrors.disks] at hfit hcreate
  obtain ⟨-, hm₂⟩ := h.mirrors.createInode (placeable_default n) halloc hfit hcreate
  obtain ⟨-, hcount, hlog, hgroup⟩ := allocInode_counts halloc
  obtain ⟨hlogged, hview⟩ := MetaStore.apply_eq_ok (hgroup ▸ h.mirrors.sound.wf.2) hcreate
  have htimed := h.timed.serves hrange.clock hserves
  have hplain : (Request.create parent name mode uid gid now).Plain := trivial
  have honly := h.onlyRoot.serves hplain hserves
  refine ⟨_, .unnamed hreq, hm₂.stands hstands hq, hq, ?_, htimed, honly⟩
  have hnext : s₂.view.nextInode.toNat = p.metaStore.view.nextInode.toNat + 1 := by
    rw [View.applyLocally_nextInode hview, nextAfter_created halloc rfl]
  have hcursor : p.metaStore.walCursor + 1 ≤ s₂.walCursor := by
    rw [hlogged.cursor_eq, hlog]
    exact Nat.add_le_add_left (MetaStore.opFrame_pos _ _) _
  have hle : s₂.walCursor ≤ q.metaStore.walCursor := hstands.log_le
  have hbefore := h.headroom.next
  rw [show q.metaStore.view = s₂.view from hstands.view_eq]
  omega

/-- **A request that is cut off.** -/
theorem Live.crash (h : Live n w p s) (hplain : req.Plain) (hrange : req.InRange) (henv : env.Whole)
    (hroom : Roomy env.ord w p req) :
    ∃ q s', s.Leaves n req s' ∧ Rests n (handle env req (w, p)).2.1 q s' := by
  rcases handle_asks (w := w) (p := p) hplain with hsame | ⟨op, hasks, hstep⟩
  · rw [hsame]
    exact ⟨p, s, .nothing, h.rests (standsFor_refl _) h.lasting⟩
  · have hhealthy := hstep (Env.healthy env.ord)
    unfold Roomy at hroom
    rw [hhealthy] at hroom
    obtain ⟨hop, hres, hfit⟩ := h.call hplain hasks hroom
    have hfits := h.lasting.fits_of_healthy henv hop hfit
    rw [hstep]
    obtain ⟨q, hq, hleft⟩ := h.lasting.stopped henv hop hfits
    cases hleft with
    | nothing hstands => exact ⟨q, s, .nothing, h.rests hstands hq⟩
    | @all v w₂ p₂ hall hstands =>
        -- what it would have done, had it been served
        rw [hall] at hhealthy hroom
        have hhandle : handle (Env.healthy env.ord) req (w, p) = ((handle (Env.healthy env.ord) req (w, p)).1, w₂, p₂) :=
          Prod.ext rfl hhealthy
        obtain ⟨-, s', hserves, hlive⟩ := h.serve hplain hrange hhandle hroom
        exact ⟨q, s', hserves.leaves hplain, hlive.rests hstands hq⟩
    | unnamed hcreates halloc hcreate hstands =>
        subst hcreates
        cases hasks with
        | create hname hfree =>
            have hfirst := hfit _ (Hands.create halloc).mem_metaCalls
            obtain ⟨s', hleaves, hrests⟩ := h.unnamed hrange hname hfree rfl halloc hfirst hcreate hstands hq
            exact ⟨q, s', hleaves, hrests⟩

/-- **The disks are mounted again.** -/
theorem Rests.restart {classes : List DiskClass} (h : Rests n w p s) (hopen : openWithClasses w n classes = .ok p') :
    Live n w p' s := by
  obtain ⟨hlasting, hstands, hlog⟩ := h.lasting.reopen hopen
  refine ⟨⟨h.mirrors.stands hstands hlasting, ⟨?_, ?_, ?_, ?_⟩, h.timed⟩, hlasting, h.onlyRoot⟩
  · intro id handle hid
    obtain ⟨rs, hrs⟩ := hlasting.segments id handle hid
    exact Nat.le_trans (hrs.chain.end_le Segment.probe_bounded (Nat.zero_le _)) (Headroom.base_le p')
  · rw [hlog, show p'.metaStore.view = p.metaStore.view from hstands.view_eq]
    exact h.next
  · obtain ⟨-, hlen, t, -, rfl⟩ := openWithClasses_eq_ok hopen
    exact membered_fresh hlen _ t
  · obtain ⟨-, -, t, hstore, rfl⟩ := openWithClasses_eq_ok hopen
    obtain ⟨-, ht⟩ := MetaStore.openStore_eq_ok hstore
    rw [ht]
    exact fun _ => rfl

theorem live_mounted {w₀ : World} {classes : List DiskClass} {now : UInt64} (hnow : now.toNat < 2 ^ 63)
    (h : formatWithClasses (Env.healthy ord) w₀ n classes now = (.ok (), w, some p)) : Live n w p (.mounted n now) := by
  have hlasting := lasting_format h
  refine ⟨⟨mirrors_mounted h hlasting.log_le, headroom_format h, FileSystem.timed_mounted hnow⟩, hlasting, ?_⟩
  exact FileSystem.onlyRoot_mounted n now

/-! ## Any number of acts -/

/-- What happens to a daemon. -/
inductive Act where
  | serve (req : Request) (r : Res Errno Reply)
  | crash (req : Request)
  | stop
  | restart

/-- The request of an act, if it has one, is plain and in range. -/
def Act.Admitted : Act → Prop
  | .serve req _ => req.Plain ∧ req.InRange
  | .crash req   => req.Plain ∧ req.InRange
  | _            => True

instance : DecidablePred Act.Admitted := fun act => by
  cases act <;> unfold Act.Admitted <;> infer_instance

/-- The disks, and the pool while they are mounted. A crash loses it; where a request is cut off, `env` says. -/
inductive Works (n : Nat) : World × Option Pool → Act → World × Option Pool → Prop where
  | serve {ord : IterOrder} {w w' : World} {p p' : Pool} {req : Request} {r : Res Errno Reply} (h : handle (Env.healthy ord) req (w, p) = (r, w', p'))
      (hroom : Roomy ord w p req) : Works n (w, some p) (.serve req r) (w', some p')
  | crash {env : Env} {w : World} {p : Pool} {req : Request} (henv : env.Whole) (hroom : Roomy env.ord w p req) :
      Works n (w, some p) (.crash req) ((handle env req (w, p)).2.1, none)
  | stop {w : World} {p : Pool} : Works n (w, some p) .stop (w, none)
  | restart {w : World} {p : Pool} {classes : List DiskClass} (h : openWithClasses w n classes = .ok p) : Works n (w, none) .restart (w, some p)

/-- The daemon over `n` disks, stopped and started again: mounted first on a new pool. -/
def service (n : Nat) : Machine (World × Option Pool) Act where
  start a := ∃ ord w₀ classes now p, now.toNat < 2 ^ 63 ∧ a.2 = some p ∧
    formatWithClasses (Env.healthy ord) w₀ n classes now = (.ok (), a.1, some p)
  step := Works n

/-- The file system, and whether it is mounted. -/
inductive Endures (n : Nat) : FileSystem × Bool → Act → FileSystem × Bool → Prop where
  | serve {s s' : FileSystem} {req : Request} {r : Res Errno Reply} (h : s.Serves n (req, r) s') :
      Endures n (s, true) (.serve req r) (s', true)
  | crash {s s' : FileSystem} {req : Request} (h : s.Leaves n req s') : Endures n (s, true) (.crash req) (s', false)
  | stop {s : FileSystem} : Endures n (s, true) .stop (s, false)
  | restart {s : FileSystem} : Endures n (s, false) .restart (s, true)

/-- **The file system that lasts**, whatever becomes of the daemon. -/
def lasting (n : Nat) : Machine (FileSystem × Bool) Act where
  start t := ∃ now, t = (.mounted n now, true)
  step := Endures n

/-- The disks, mounted or not, hold the file system. -/
inductive Reflects (n : Nat) : World × Option Pool → FileSystem × Bool → Prop where
  | up {w : World} {p : Pool} {s : FileSystem} (h : Live n w p s) : Reflects n (w, some p) (s, true)
  | down {w : World} {p : Pool} {s : FileSystem} (h : Rests n w p s) : Reflects n (w, none) (s, false)

theorem service_simulates (n : Nat) :
    (service n).Simulates (lasting n) (fun _ => True) Act.Admitted (Reflects n) where
  start := by
    rintro ⟨w, _⟩ ⟨ord, w₀, classes, now, p, hnow, rfl, h⟩ -
    exact ⟨_, ⟨now, rfl⟩, .up (live_mounted hnow h)⟩
  step := by
    rintro a t act a' hreflects hworks - hadmitted
    cases hworks with
    | serve h hroom =>
        cases hreflects with
        | up hlive =>
            unfold Roomy at hroom
            rw [h] at hroom
            obtain ⟨-, s', hserves, hlive'⟩ := hlive.serve hadmitted.1 hadmitted.2 h hroom
            exact ⟨_, .serve hserves, .up hlive'⟩
    | crash henv hroom =>
        cases hreflects with
        | up hlive =>
            obtain ⟨q, s', hleaves, hrests⟩ := hlive.crash hadmitted.1 hadmitted.2 henv hroom
            exact ⟨_, .crash hleaves, .down hrests⟩
    | stop =>
        cases hreflects with
        | up hlive => exact ⟨_, .stop, .down (hlive.rests (standsFor_refl _) hlive.lasting)⟩
    | restart h =>
        cases hreflects with
        | down hrests => exact ⟨_, .restart, .up (hrests.restart h)⟩

/-- An act that is answered is not answered by a panic. -/
def Act.Answered : Act → Prop
  | .serve _ r => r ≠ .panic
  | _          => True

theorem lasting_answers {acts : List Act} {t : FileSystem × Bool} (hrun : (lasting n).Run acts t) :
    ∀ act ∈ acts, act.Answered := by
  induction hrun with
  | start h => simp
  | snoc hrun hstep ih =>
      refine List.forall_mem_append.mpr ⟨ih, List.forall_mem_singleton.mpr ?_⟩
      cases hstep with
      | serve h =>
          cases h with
          | _ => simp [Act.Answered]
      | _ => trivial

/-- **Crashes and restarts refine the file system.** However often the daemon is stopped, cut off in a request and mounted
    again, every reply is the file system's, none is a panic, and what was answered before is there after: only of the
    request that was cut off it is open whether nothing, all of it, or a new file without its name is there. -/
theorem restarts_refine {acts : List Act} {a : World × Option Pool} (hrun : (service n).Run acts a)
    (hadmitted : ∀ act ∈ acts, act.Admitted) :
    (∀ act ∈ acts, act.Answered) ∧ ∃ t, (lasting n).Run acts t ∧ Reflects n a t := by
  obtain ⟨t, ht, hreflects⟩ := (service_simulates n).run (fun _ _ _ _ _ _ _ => trivial) hrun trivial hadmitted
  exact ⟨lasting_answers ht, t, ht, hreflects⟩

/-! ## A daemon that crashes twice -/

/-- What is done next to a daemon over one disk. -/
inductive Cue where
  | serve (req : Request)
  /-- The process is killed in a request: from its `k`-th call on, no call of the disk is made. -/
  | kill (k : Nat) (req : Request)
  | restart

/-- The act it comes to, where there is one. -/
def perform : Cue → World × Option Pool → Option (Act × World × Option Pool)
  | .serve req, (w, some p) =>
      let out := handle (Env.healthy MetaStore.listOrder) req (w, p)
      if Roomy MetaStore.listOrder w p req then some (.serve req out.1, out.2.1, some out.2.2) else none
  | .kill k req, (w, some p) =>
      let env : Env := ⟨stopAt (w.clock + k), MetaStore.listOrder⟩
      if Roomy MetaStore.listOrder w p req then some (.crash req, (handle env req (w, p)).2.1, none) else none
  | .restart, (w, none) =>
      match openWithClasses w 1 [.hdd] with
      | .ok p => some (.restart, w, some p)
      | _     => none
  | _, _ => none

def performAll : List Cue → World × Option Pool → Option (List Act × World × Option Pool)
  | [], a => some ([], a)
  | cue :: cues, a => do
      let (act, a₁) ← perform cue a
      let (acts, a₂) ← performAll cues a₁
      pure (act :: acts, a₂)

theorem works_perform {cue : Cue} {a a' : World × Option Pool} {act : Act} (h : perform cue a = some (act, a')) :
    Works 1 a act a' := by
  unfold perform at h
  split at h
  · split at h
    · rename_i hroom
      obtain ⟨rfl, rfl⟩ := Prod.mk.inj (Option.some.inj h)
      exact .serve rfl hroom
    · cases h
  · split at h
    · rename_i hroom
      obtain ⟨rfl, rfl⟩ := Prod.mk.inj (Option.some.inj h)
      exact .crash (whole_stopAt _ _) hroom
    · cases h
  · split at h
    · rename_i hopen
      obtain ⟨rfl, rfl⟩ := Prod.mk.inj (Option.some.inj h)
      exact .restart hopen
    · cases h
  · cases h

theorem run_performAll {cues : List Cue} {before acts : List Act} {a a' : World × Option Pool}
    (hrun : (service 1).Run before a) (h : performAll cues a = some (acts, a')) : (service 1).Run (before ++ acts) a' := by
  induction cues generalizing before acts a with
  | nil =>
      obtain ⟨rfl, rfl⟩ := Prod.mk.inj (Option.some.inj h)
      rwa [List.append_nil]
  | cons cue cues ih =>
      obtain ⟨⟨act, a₁⟩, hact, h⟩ := Option.bind_eq_some_iff.mp h
      obtain ⟨⟨rest, a₂⟩, hrest, h⟩ := Option.bind_eq_some_iff.mp h
      obtain ⟨rfl, rfl⟩ := Prod.mk.inj (Option.some.inj h)
      have hnext := ih (hrun.snoc (works_perform hact)) hrest
      rwa [List.append_assoc] at hnext

/-- The acts of a daemon that was just mounted. -/
theorem run_of_cues {cues : List Cue} {acts : List Act}
    (h : (performAll cues (onDisk.1, some onDisk.2)).map Prod.fst = some acts) : ∃ a, (service 1).Run acts a := by
  have hmount : (service 1).Run [] (onDisk.1, some onDisk.2) := .start ⟨MetaStore.listOrder, World.blank 0, [.hdd], 0,
    onDisk.2, by simp, rfl, show formatWithClasses (Env.healthy MetaStore.listOrder) (World.blank 0) 1 [.hdd] 0 =
      (.ok (), onDisk.1, some onDisk.2) from rfl⟩
  obtain ⟨⟨acts', a⟩, hperform, rfl⟩ := Option.map_eq_some_iff.mp h
  exact ⟨a, run_performAll hmount hperform⟩

/-- A file is written; the daemon is killed after it has logged a second write, and before it has named a second file. -/
def cues : List Cue :=
  [.serve (.create rootInode [97] 0o644 0 0 7), .serve (.write 2 0 [1, 2, 3]), .kill 3 (.write 2 3 [4]), .restart,
    .serve (.read 2 0 9), .kill 2 (.create rootInode [98] 0o644 0 0 9), .restart, .serve (.lookup rootInode [98]),
    .serve (.getattr 3), .serve (.readdir rootInode 2 9)]

deriving instance DecidableEq for Request

deriving instance DecidableEq for Act

/-- What comes of it up to the first mount after the first kill. -/
def revived : List Act :=
  [.serve (.create rootInode [97] 0o644 0 0 7) (.ok (.created ⟨2, 0, 0, 7, .regularFile, 0o644, 0, 0⟩)),
    .serve (.write 2 0 [1, 2, 3]) (.ok (.written 3)), .crash (.write 2 3 [4]), .restart]

/-- The history goes on: the write that was cut off is there, and so is the second file, of which there is no name. -/
def cued : List Act := revived ++
  [.serve (.read 2 0 9) (.ok (.data [1, 2, 3, 4])), .crash (.create rootInode [98] 0o644 0 0 9), .restart,
    .serve (.lookup rootInode [98]) (.err .enoent),
    .serve (.getattr 3) (.ok (.attr ⟨3, 0, 0, 9, .regularFile, 0o644, 0, 0⟩)),
    .serve (.readdir rootInode 2 9) (.ok (.dir [(2, 3, .regularFile, "a")]))]

/-- The theorem at these acts. -/
theorem restarts_refine_cued : ∃ a, (service 1).Run cued a ∧ (∀ act ∈ cued, act.Answered) ∧
    ∃ t, (lasting 1).Run cued t ∧ Reflects 1 a t := by
  obtain ⟨a, hrun⟩ := run_of_cues (show (performAll cues (onDisk.1, some onDisk.2)).map Prod.fst = some cued by
    decide +kernel)
  exact ⟨a, hrun, restarts_refine hrun (by decide +kernel)⟩

end Tartine.Fuse
