import Tartine.Fuse.Refinement
import Tartine.Meta.Headroom

/-!
# `Fuse.Answered` — every request is answered

A handler that panics poisons the pool's mutex, and with it the mount. `trial n` is the daemon with its panics: it serves
whatever request comes next, with whatever result. No run of it has a panic in it, whatever its requests and their order,
as long as they are in the range of the machine's integers and the log ends within its region: what a panic would take is
kept away by the pool's headroom (`Meta.Headroom`), by the file system that mirrors the pool, and by its clock.

* `Steady` — what holds between two requests;
* `Steady.handle_ne_panic`, `Steady.serve` — then the next one is answered, and it holds again;
* `every_request_answered` — so every request of a run is.
-/

namespace Tartine.Fuse

open Basis Codec Pool

variable {env : Env} {ord : IterOrder} {w w' : World} {p p' : Pool} {s s' : FileSystem} {n : Nat} {ino i : InodeId}
  {rec : InodeRecord} {f : File} {req : Request} {r : Res Errno Reply}

/-! ## Times -/

namespace FileSystem

/-- Every file's time can be shown. -/
def Timed (s : FileSystem) : Prop := ∀ i f, s.file i = some f → f.time.toNat < 2 ^ 63

theorem Timed.modify {g : File → File} (h : s.Timed) (hg : ∀ f, (g f).time = f.time) : (s.modify i g).Timed := by
  intro j f hf
  by_cases hj : j = i
  · subst hj
    rw [modify_file_self] at hf
    obtain ⟨f₀, hf₀, rfl⟩ := Option.map_eq_some_iff.mp hf
    rw [hg]
    exact h j f₀ hf₀
  · exact h j f (by simpa [FileSystem.modify, hj] using hf)

theorem Timed.add {parent : InodeId} {name : String} (h : s.Timed) (hf : f.time.toNat < 2 ^ 63) :
    (s.add parent name f).Timed := by
  intro j f' hf'
  by_cases hj : j = s.next
  · subst hj
    rw [add_file_next] at hf'
    obtain rfl := Option.some.inj hf'
    exact hf
  · exact h j f' (by simpa [FileSystem.add, hj] using hf')

end FileSystem

/-- The clock a request carries into a file. -/
def Request.clock : Request → Nat
  | .create _ _ _ _ _ now => now.toNat
  | _                     => 0

/-- Where a write ends. -/
def Request.stop : Request → Nat
  | .write _ offset data => offset.toNat + data.length
  | _                    => 0

/-- A request in range: no policy without slots, no write past `2^32`, and no clock that a `SystemTime` cannot hold. -/
structure Request.InRange (req : Request) : Prop where
  slotted : req.Slotted
  stop : req.stop < 2 ^ 32
  clock : req.clock < 2 ^ 63

instance : DecidablePred Request.InRange := fun req =>
  decidable_of_iff (req.Slotted ∧ req.stop < 2 ^ 32 ∧ req.clock < 2 ^ 63)
    ⟨fun ⟨hslot, hstop, hclock⟩ => ⟨hslot, hstop, hclock⟩, fun h => ⟨h.slotted, h.stop, h.clock⟩⟩

theorem Request.InRange.limited (h : req.InRange) : Limited (req, r) := by
  refine ⟨h.slotted, ?_⟩
  cases req with
  | write ino offset data =>
      cases r with
      | ok a => exact h.stop
      | err e => simp [grantedEnd]
      | panic => simp [grantedEnd]
  | _ => simp [grantedEnd]

namespace FileSystem

/-- **Step lemma.** The requests that change a file keep its time. -/
theorem Timed.serves (h : s.Timed) (hclock : req.clock < 2 ^ 63) (hserves : s.Serves n (req, r) s') : s'.Timed := by
  intro i f hf
  have hbecame := hserves.became i
  generalize s'.file i = stands at hbecame hf
  cases hbecame with
  | same => exact h i f hf
  | created hi =>
      obtain rfl := Option.some.inj hf
      exact hclock
  | @written offset data content g hold hwrite =>
      obtain rfl := Option.some.inj hf
      exact h i g hold
  | @converted inData mode g hold hmode =>
      obtain rfl := Option.some.inj hf
      exact h i g hold
  | @policed inData scheme g hold hdecode =>
      obtain rfl := Option.some.inj hf
      exact h i g hold

theorem timed_mounted {now : UInt64} (hnow : now.toNat < 2 ^ 63) : (mounted n now).Timed := by
  intro i f hf
  by_cases hi : i = rootInode
  · subst hi
    rw [mounted_file_root] at hf
    obtain rfl := Option.some.inj hf
    exact hnow
  · simp [mounted, hi] at hf

end FileSystem

/-! ## The log -/

theorem logGrows_mapErr {α ε' : Type} {g : PoolError → ε'} {x : PoolM α} (hx : Action.Keeps LogGrows x) :
    Action.Keeps LogGrows (Action.mapErr g x) := fun a => hx a

/-- A call without a value, and the reply to it. -/
theorem logGrows_reply {x : PoolM Unit} (g : PoolError → Errno) (reply : Reply) (hx : Action.Keeps LogGrows x) :
    Action.Keeps LogGrows (do Action.mapErr g x; pure reply : FuseM Reply) :=
  (logGrows_mapErr hx).bind logGrows_trans fun _ => Action.keeps_pure logGrows_refl reply

theorem logGrows_completeConvert (env : Env) (ino : InodeId) : Action.Keeps LogGrows (Pool.completeConvert env ino) :=
  logGrows_phase (show dataPhase env (.completeConvert ino) = some _ from rfl)

theorem logGrows_reads {α : Type} (g : World × Pool → Res Errno α) : Action.Keeps LogGrows (Action.reads g : FuseM α) :=
  Action.keeps_reads logGrows_refl g

theorem logGrows_write (env : Env) (offset : UInt64) (data : Bytes) : Action.Keeps LogGrows (write env ino offset data) := by
  refine (logGrows_reads _).bind logGrows_trans fun rec => ?_
  have hreply : ∀ (op : PoolOp) (x : PoolM MetaOp), dataPhase env op = some x → ∀ reply : Reply,
      Action.Keeps LogGrows (do Action.mapErr errnoFor (x >>= applyMeta env); pure reply : FuseM Reply) := fun op x hop reply =>
    logGrows_reply errnoFor reply (logGrows_phase hop)
  cases classifyWrite rec offset with
  | ok kind =>
      cases kind with
      | append => exact hreply (.append ino data) _ rfl _
      | randomWrite => exact hreply (.write ino offset data) _ rfl _
  | err e =>
      cases e with
      | notAppendOnlyOrder => exact logGrows_reads _
      | randomWriteDenied => exact logGrows_reads _
      | conversionInProgress => exact logGrows_reads _
  | panic => exact logGrows_reads _

theorem logGrows_ioctl (env : Env) (cmd : UInt32) (inData : Bytes) : Action.Keeps LogGrows (ioctl env ino cmd inData) := by
  have hpure : ∀ reply : Reply, Action.Keeps LogGrows (pure reply : FuseM Reply) := Action.keeps_pure logGrows_refl
  unfold ioctl
  split
  · split
    · exact logGrows_reads _
    · refine (logGrows_mapErr (logGrows_applyMeta env _)).bind logGrows_trans fun _ => ?_
      split
      · exact logGrows_reply errnoFor (.ioctl []) (logGrows_completeConvert env ino)
      · exact hpure _
  · split
    · exact (logGrows_reads _).bind logGrows_trans fun rec => hpure _
    · split
      · refine (logGrows_reads _).bind logGrows_trans fun scheme => ?_
        exact logGrows_reply errnoFor (.ioctl []) (logGrows_applyMeta env _)
      · split
        · exact (logGrows_reads _).bind logGrows_trans fun rec => hpure _
        · exact logGrows_reads _

/-- However a request ends, the log has not become shorter. -/
theorem logGrows_handle (env : Env) (req : Request) : Action.Keeps LogGrows (handle env req) := by
  have hreads : req.ReadsOnly → Action.Keeps LogGrows (handle env req) := fun hreq a => by
    rw [keeps_of_reads hreq a]
    exact logGrows_refl a
  cases req with
  | lookup parent name => exact hreads trivial
  | getattr ino => exact hreads trivial
  | setattr ino size => exact hreads trivial
  | create parent name mode uid gid now =>
      refine (logGrows_reads _).bind logGrows_trans fun name => ?_
      refine (logGrows_reads _).bind logGrows_trans fun _ => ?_
      refine (logGrows_reads _).bind logGrows_trans fun redundancy => ?_
      refine (logGrows_mapErr (logGrows_createFile env _ _ _ _ _ _ _)).bind logGrows_trans fun id => ?_
      exact (logGrows_reads _).bind logGrows_trans fun rec => logGrows_reads _
  | unlink parent name =>
      refine (logGrows_reads _).bind logGrows_trans fun name => ?_
      exact logGrows_reply errnoFor .ok (logGrows_applyMeta env _)
  | read ino offset size => exact hreads trivial
  | write ino offset data => exact logGrows_write env offset data
  | readdir ino offset room => exact hreads trivial
  | ioctl ino cmd inData => exact logGrows_ioctl env cmd inData

/-! ## Between two requests -/

/-- What holds of a mounted daemon between two requests. -/
structure Steady (n : Nat) (w : World) (p : Pool) (s : FileSystem) : Prop where
  mirrors : Mirrors n w p s
  headroom : Headroom p
  timed : s.Timed

theorem Steady.call_ne_panic (hst : Steady n w p s) (hlog : p.metaStore.walCursor ≤ Wal.walCapacityBytes) (env : Env)
    (op : PoolOp) (hrange : op.InRange) : (Pool.step env op (w, p)).1 ≠ .panic :=
  hst.headroom.step_ne_panic hst.mirrors.sound hst.mirrors.small hlog hrange

/-- The attributes of a file can be shown. -/
theorem attrReply_ne_panic {reply : FileAttr → Reply} {a : World × Pool} (ht : s.Timed) (hfile : s.file i = some f)
    (hrec : f.Recorded rec) : (attrReply rec reply a).1 ≠ .panic := by
  have htime := ht i f hfile
  refine Res.bind_ne_panic (fun h => ?_) fun attr _ => by simp
  unfold attrOf at h
  rw [if_neg (by rw [hrec.time]; omega)] at h
  cases h

theorem Steady.inodeOf_ne_panic (hst : Steady n w p s) (ino : InodeId) : (inodeOf ino (w, p)).1 ≠ .panic := by
  cases hst.mirrors.find ino with
  | file hget hfile hrec hhas hsound => simp [inodeOf_file hget]
  | absent hget hfile => simp [inodeOf_absent hget]

/-- What a handler does with the record it asked for. -/
theorem Steady.inodeOf_bind_ne_panic {α : Type} {g : InodeRecord → FuseM α} (hst : Steady n w p s) (ino : InodeId)
    (hg : ∀ rec f, s.file ino = some f → f.Recorded rec → (g rec (w, p)).1 ≠ .panic) :
    ((inodeOf ino >>= g) (w, p)).1 ≠ .panic := by
  refine Action.bind_ne_panic (hst.inodeOf_ne_panic ino) fun rec a hrec => ?_
  obtain ⟨hget, rfl⟩ := inodeOf_eq_ok hrec
  cases hst.mirrors.find ino with
  | file hget' hfile hrec hhas hsound =>
      obtain rfl := Option.some.inj (Res.ok.inj (hget.symm.trans hget'))
      exact hg _ _ hfile hrec
  | absent hget' hfile => cases hget.symm.trans hget'

theorem nameStr_ne_panic (name : Bytes) (a : World × Pool) : (nameStr name a).1 ≠ .panic := by
  rw [nameStr_eq]
  exact decodeName_ne_panic name

/-- The reply to a call of the pool. -/
theorem reply_ne_panic {x : PoolM Unit} {g : PoolError → Errno} {reply : Reply} {a : World × Pool}
    (hx : (unitVal x a).1 ≠ .panic) : ((do Action.mapErr g x; pure reply : FuseM Reply) a).1 ≠ .panic :=
  Action.bind_ne_panic (Res.mapErr_ne_panic fun h => hx (Action.bind_of_panic h)) fun u b _ h => by cases h

theorem recordOf_cases (hm : Mirrors n w p s) (ino : InodeId) :
    (∃ rec f, recordOf p ino = .ok rec ∧ s.file ino = some f ∧ f.Recorded rec) ∨ recordOf p ino = .err .eio := by
  unfold recordOf
  cases hm.find ino with
  | @file rec f hget hfile hrec hhas hsound => exact Or.inl ⟨rec, f, by simp [hget], hfile, hrec⟩
  | absent hget hfile => exact Or.inr (by simp [hget])

theorem Steady.lookup_ne_panic {parent : InodeId} {name : Bytes} (hst : Steady n w p s) :
    (lookup parent name (w, p)).1 ≠ .panic := by
  refine Action.bind_ne_panic (nameStr_ne_panic name _) fun name' a hname => ?_
  obtain ⟨-, rfl⟩ := nameStr_eq_ok hname
  cases hchild : p.metaStore.view.lookup parent name' with
  | none =>
      rw [Action.bind_of_err (reads_err (e := .enoent) (by simp only [hchild]))]
      simp
  | some child =>
      rcases recordOf_cases hst.mirrors child with ⟨rec, f, hrecord, hfile, hrec⟩ | hrecord
      · rw [Action.bind_of_ok (reads_ok (a := rec) (by simp only [hchild, hrecord]))]
        exact attrReply_ne_panic hst.timed hfile hrec
      · rw [Action.bind_of_err (reads_err (e := .eio) (by simp only [hchild, hrecord]))]
        simp

theorem Steady.setattr_ne_panic {size : Option UInt64} (hst : Steady n w p s) : (setattr ino size (w, p)).1 ≠ .panic := by
  refine hst.inodeOf_bind_ne_panic ino fun rec f hfile hrec => ?_
  refine Action.bind_ne_panic (fun h => ?_) fun refused a hreads => ?_
  · cases size with
    | none => cases h
    | some size =>
        dsimp only [Action.reads] at h
        split at h
        · cases h
        · rw [truncateAllowed_eq hrec] at h
          by_cases hmode : f.mode = .writable
          · simp [hmode] at h
          · simp [hmode] at h
  · obtain ⟨-, rfl⟩ := Action.reads_eq_ok.mp hreads
    cases refused with
    | true => simp [Action.reads]
    | false => exact attrReply_ne_panic hst.timed hfile hrec

theorem Steady.read_ne_panic {offset : UInt64} {size : UInt32} (hst : Steady n w p s) :
    (read ino offset size (w, p)).1 ≠ .panic := by
  have hread : p.read w ino offset size.toUInt64 ≠ .panic := by
    refine Res.bind_ne_panic (hst.mirrors.sound.findInode_ne_panic ino) fun rec hfind => ?_
    exact Res.bind_ne_panic (hst.mirrors.sound.readFullContent_ne_panic hfind) fun content _ => by simp
  exact Action.bind_ne_panic (Res.mapErr_ne_panic hread) fun bytes a _ h => by cases h

theorem Steady.write_ne_panic {offset : UInt64} {data : Bytes} (hst : Steady n w p s)
    (hlog : p.metaStore.walCursor ≤ Wal.walCapacityBytes) (hrange : offset.toNat + data.length < 2 ^ 32) :
    (write env ino offset data (w, p)).1 ≠ .panic := by
  refine hst.inodeOf_bind_ne_panic ino fun rec f hfile hrec => ?_
  have happend : (unitVal (Pool.append env ino data) (w, p)).1 ≠ .panic :=
    hst.call_ne_panic hlog env (.append ino data) trivial
  have hwrite : (unitVal (Pool.write env ino offset data) (w, p)).1 ≠ .panic :=
    hst.call_ne_panic hlog env (.write ino offset data) hrange
  rw [classifyWrite_eq]
  cases rec.mode with
  | appendOnly =>
      by_cases hend : offset = rec.size
      · simpa only [if_pos hend] using reply_ne_panic happend
      · simp [hend, Action.reads]
  | converting =>
      by_cases hend : offset = rec.size
      · simpa only [if_pos hend] using reply_ne_panic happend
      · simp [hend, Action.reads]
  | writable => exact reply_ne_panic hwrite

theorem Steady.create_ne_panic {parent : InodeId} {name : Bytes} {mode uid gid : UInt32} {now : UInt64}
    (hst : Steady n w p s) (hlog : p.metaStore.walCursor ≤ Wal.walCapacityBytes) (hnow : now.toNat < 2 ^ 63)
    (h : create (Env.healthy ord) parent name mode uid gid now (w, p) = (r, w', p'))
    (hend : p'.metaStore.walCursor ≤ Wal.walCapacityBytes) : r ≠ .panic := by
  rintro rfl
  rcases Action.bind_cases h with ⟨name', a, hname, h⟩ | ⟨e, -, he⟩ | ⟨hname, -⟩
  · obtain ⟨-, rfl⟩ := nameStr_eq_ok hname
    rcases Action.bind_cases h with ⟨u, a, hexists, h⟩ | ⟨e, -, he⟩ | ⟨hexists, -⟩
    · obtain ⟨-, rfl⟩ := Action.reads_eq_ok.mp hexists
      rcases Action.bind_cases h with ⟨redundancy, a, hread, h⟩ | ⟨e, -, he⟩ | ⟨hread, -⟩
      · obtain ⟨hredundancy, rfl⟩ := Action.reads_eq_ok.mp hread
        obtain rfl := Res.ok.inj hredundancy
        rcases Action.bind_cases h with ⟨id, ⟨w₁, p₁⟩, hcreate, h⟩ | ⟨e, -, he⟩ | ⟨hcreate, -⟩
        · have hcreate := Action.mapErr_eq_ok.mp hcreate
          -- the reply is read off the file just created
          have hsame : (w', p') = (w₁, p₁) := by
            have hsame := keeps_created id (w₁, p₁)
            rwa [h] at hsame
          obtain ⟨rfl, rfl⟩ := Prod.mk.inj hsame
          rw [defaultRedundancy_diskCount hst.mirrors.disks_pos hst.mirrors.disks] at hcreate
          have hstep : Pool.step (Env.healthy ord) (.createFile parent name' (defaultRedundancy n) uid gid
              (sIfreg ||| (mode &&& 0o7777)) now) (w, p) = (.ok (.inode id), w', p') := Action.bind_of_ok hcreate
          have hfit := fits_of_cursor_le hst.mirrors.sound.wf hstep (by simp) hend
          obtain ⟨rfl, hm'⟩ := hst.mirrors.createFile (placeable_default n) hfit hcreate
          have htimed : (s.add parent name' (newFile (defaultRedundancy n) uid gid (sIfreg ||| (mode &&& 0o7777)) now)).Timed :=
            hst.timed.add hnow
          rcases recordOf_cases hm' s.next with ⟨rec, f, hrecord, hfile, hrec⟩ | hrecord
          · rw [Action.bind_of_ok (reads_ok (a := rec) hrecord)] at h
            exact attrReply_ne_panic htimed hfile hrec (congrArg Prod.fst h)
          · rw [Action.bind_of_err (reads_err (e := .eio) hrecord)] at h
            cases (Prod.mk.inj h).1
        · cases he
        · have hcall := hst.call_ne_panic hlog (Env.healthy ord) (.createFile parent name' (defaultRedundancy p.diskCount) uid
            gid (sIfreg ||| (mode &&& 0o7777)) now) trivial
          exact Res.mapErr_ne_panic (fun hcreate => hcall (Action.bind_of_panic hcreate)) (congrArg Prod.fst hcreate)
      · cases he
      · cases hread
    · cases he
    · dsimp only [Action.reads] at hexists
      split at hexists
      · cases hexists
      · cases hexists
  · cases he
  · exact nameStr_ne_panic name _ (congrArg Prod.fst hname)

theorem Steady.unlink_ne_panic {parent : InodeId} {name : Bytes} (hst : Steady n w p s)
    (hlog : p.metaStore.walCursor ≤ Wal.walCapacityBytes) : (unlink env parent name (w, p)).1 ≠ .panic := by
  refine Action.bind_ne_panic (nameStr_ne_panic name _) fun name' a hname => ?_
  obtain ⟨-, rfl⟩ := nameStr_eq_ok hname
  exact reply_ne_panic (hst.call_ne_panic hlog env (.unlink parent name') trivial)

/-- A conversion that has begun. -/
theorem Steady.begin {v : PoolVal} (hst : Steady n w p s) (h : Pool.step (Env.healthy ord) (.beginConvert i) (w, p) = (.ok v, w', p'))
    (hlog : p'.metaStore.walCursor ≤ Wal.walCapacityBytes) : Steady n w' p' (s.modify i (.setMode .converting)) := by
  have hheadroom := hst.headroom.step hst.mirrors.sound hst.mirrors.small (show PoolOp.InRange (.beginConvert i) from trivial) h
    (by simp)
  obtain ⟨f, -, -, hm'⟩ := begin_granted hst.mirrors h hlog
  exact ⟨hm', hheadroom, hst.timed.modify fun f => rfl⟩

theorem Steady.makeWritable_ne_panic {flags : UInt32} (hst : Steady n w p s)
    (hlog : p.metaStore.walCursor ≤ Wal.walCapacityBytes)
    (h : makeWritable (Env.healthy ord) ino flags (w, p) = (r, w', p'))
    (hend : p'.metaStore.walCursor ≤ Wal.walCapacityBytes) : r ≠ .panic := by
  have hbegins := hst.call_ne_panic hlog (Env.healthy ord) (.beginConvert ino) trivial
  rintro rfl
  rcases Action.bind_cases h with ⟨u, ⟨w₁, p₁⟩, hbegin, hrest⟩ | ⟨e, -, he⟩ | ⟨hbegin, -⟩
  · have hbegin : Pool.step (Env.healthy ord) (.beginConvert ino) (w, p) = (.ok .unit, w₁, p₁) :=
      Action.bind_of_ok (Action.mapErr_eq_ok.mp hbegin)
    have hwf₁ := hst.mirrors.sound.wf.call hbegin (by simp)
    by_cases hwait : flags &&& tartineConvertFlagWait ≠ 0
    · rw [if_pos hwait] at hrest
      have hgrows := logGrows_reply errnoFor (.ioctl []) (logGrows_completeConvert (Env.healthy ord) ino) (w₁, p₁) hwf₁
      rw [hrest] at hgrows
      have hlog₁ : p₁.metaStore.walCursor ≤ Wal.walCapacityBytes := Nat.le_trans hgrows.2 hend
      have hcompletes := (hst.begin hbegin hlog₁).call_ne_panic hlog₁ (Env.healthy ord) (.completeConvert ino) trivial
      exact reply_ne_panic hcompletes (congrArg Prod.fst hrest)
    · rw [if_neg hwait] at hrest
      cases (Prod.mk.inj hrest).1
  · cases he
  · exact Res.mapErr_ne_panic (fun hbegin => hbegins (Action.bind_of_panic hbegin)) (congrArg Prod.fst hbegin)

theorem Steady.ioctl_ne_panic {cmd : UInt32} {inData : Bytes} (hst : Steady n w p s)
    (hlog : p.metaStore.walCursor ≤ Wal.walCapacityBytes)
    (h : ioctl (Env.healthy ord) ino cmd inData (w, p) = (r, w', p'))
    (hend : p'.metaStore.walCursor ≤ Wal.walCapacityBytes) : r ≠ .panic := by
  have hreads : ∀ g : InodeRecord → Reply, (do let rec ← inodeOf ino; pure (g rec) : FuseM Reply) (w, p) = (r, w', p') →
      r ≠ .panic := by
    intro g h
    have hne := hst.inodeOf_bind_ne_panic (g := fun rec => pure (g rec)) ino fun rec f _ _ hpure => by cases hpure
    rwa [h] at hne
  have hrefused : ∀ e : Errno, (Action.reads fun _ => .err e : FuseM Reply) (w, p) = (r, w', p') → r ≠ .panic := by
    rintro e h rfl
    cases (Prod.mk.inj h).1
  unfold ioctl at h
  split at h
  · split at h
    · exact hrefused _ h
    · exact hst.makeWritable_ne_panic hlog h hend
  · split at h
    · exact hreads _ h
    · split at h
      · have hne : (setRedundancy (Env.healthy ord) ino inData (w, p)).1 ≠ .panic := by
          refine Action.bind_ne_panic (fun hdecode => ?_) fun scheme a hreads => ?_
          · dsimp only [Action.reads] at hdecode
            split at hdecode
            · cases hdecode
            · cases hdecode
            · cases hdecode
          · obtain ⟨-, rfl⟩ := Action.reads_eq_ok.mp hreads
            exact reply_ne_panic (hst.call_ne_panic hlog (Env.healthy ord) (.setRedundancy ino scheme) trivial)
        rwa [h] at hne
      · split at h
        · exact hreads _ h
        · exact hrefused _ h

theorem Calls.inRange {op : PoolOp} (h : Calls p req op) (hrange : req.InRange) : op.InRange := by
  cases h with
  | overwrite hget hmode => exact hrange.stop
  | create => trivial
  | unlink => trivial
  | append hget hmode hend => trivial
  | begin => trivial
  | policy hdecode => trivial

/-- What a request leaves of the headroom. -/
theorem Steady.headroom_after (hst : Steady n w p s) (hrange : req.InRange) (h : Performs (Env.healthy ord) w p req r w' p')
    (hend : p'.metaStore.walCursor ≤ Wal.walCapacityBytes) : Headroom p' := by
  have hsound := hst.mirrors.sound
  have hsmall := hst.mirrors.small
  cases h with
  | idle hr => exact hst.headroom
  | call hcall h hres hr => exact hst.headroom.step hsound hsmall (hcall.inRange hrange) h hres
  | @convert ino inData r v res w₁ p₁ w' p' hbegin hcomplete hres =>
      have hle := cursor_le_step (hsound.wf.call hbegin (by simp)) hcomplete hres
      have hst₁ := hst.begin hbegin (Nat.le_trans hle hend)
      exact hst₁.headroom.step hst₁.mirrors.sound hst₁.mirrors.small (show PoolOp.InRange (.completeConvert ino) from trivial)
        hcomplete hres

/-- **The next request is answered.** -/
theorem Steady.handle_ne_panic (hst : Steady n w p s) (hrange : req.InRange)
    (h : handle (Env.healthy ord) req (w, p) = (r, w', p')) (hend : p'.metaStore.walCursor ≤ Wal.walCapacityBytes) :
    r ≠ .panic := by
  have hgrows := logGrows_handle (Env.healthy ord) req (w, p) hst.mirrors.sound.wf
  rw [h] at hgrows
  have hlog : p.metaStore.walCursor ≤ Wal.walCapacityBytes := Nat.le_trans hgrows.2 hend
  have hanswer : (handle (Env.healthy ord) req (w, p)).1 ≠ .panic → r ≠ .panic := by
    rw [h]
    exact id
  cases req with
  | lookup parent name => exact hanswer hst.lookup_ne_panic
  | getattr ino => exact hanswer (hst.inodeOf_bind_ne_panic ino fun rec f hfile hrec => attrReply_ne_panic hst.timed hfile hrec)
  | setattr ino size => exact hanswer hst.setattr_ne_panic
  | create parent name mode uid gid now => exact hst.create_ne_panic hlog hrange.clock h hend
  | unlink parent name => exact hanswer (hst.unlink_ne_panic hlog)
  | read ino offset size => exact hanswer hst.read_ne_panic
  | write ino offset data => exact hanswer (hst.write_ne_panic hlog hrange.stop)
  | readdir ino offset room =>
      obtain ⟨⟨a, rfl, -⟩ | ⟨e, rfl, -⟩, -⟩ := readdir_tells hst.mirrors h
      · simp
      · simp
  | ioctl ino cmd inData => exact hst.ioctl_ne_panic hlog h hend

/-- **Step lemma.** The file system follows the request, and the daemon is ready for another. -/
theorem Steady.serve (hst : Steady n w p s) (hrange : req.InRange)
    (h : handle (Env.healthy ord) req (w, p) = (r, w', p')) (hend : p'.metaStore.walCursor ≤ Wal.walCapacityBytes) :
    r ≠ .panic ∧ ∃ s', s.Serves n (req, r) s' ∧ Steady n w' p' s' := by
  have hr := hst.handle_ne_panic hrange h hend
  obtain ⟨s', hserves, hm'⟩ := handle_followed hst.mirrors hrange.limited h hr hend
  exact ⟨hr, s', hserves, hm', hst.headroom_after hrange (handle_performs h hr) hend, hst.timed.serves hrange.clock hserves⟩

/-! ## Runs -/

/-- The daemon over `n` disks with its panics: it serves one request after another, with whatever result. -/
def trial (n : Nat) : Machine (World × Pool) (Request × Res Errno Reply) where
  start a := ∃ ord w₀ classes now, now.toNat < 2 ^ 63 ∧
    formatWithClasses (Env.healthy ord) w₀ n classes now = (.ok (), a.1, some a.2)
  step a e a' := ∃ ord, handle (Env.healthy ord) e.1 a = (e.2, a')

theorem trial_wf {trace : List (Request × Res Errno Reply)} {a : World × Pool} (hrun : (trial n).Run trace a) :
    MetaWf a.2.metaStore := by
  refine hrun.rule (I := fun a => MetaWf a.2.metaStore) ?_ ?_
  · rintro ⟨w, p⟩ ⟨ord, w₀, classes, now, -, h⟩
    exact Pool.metaWf_format h
  · rintro a ⟨req, r⟩ a' hwf ⟨ord, h⟩
    have hgrows := logGrows_handle (Env.healthy ord) req a hwf
    rw [h] at hgrows
    exact hgrows.1

/-- **Run lemma.** -/
theorem trial_steady {trace : List (Request × Res Errno Reply)} {a : World × Pool} (hrun : (trial n).Run trace a)
    (hrange : ∀ e ∈ trace, e.1.InRange) (hlog : a.2.metaStore.walCursor ≤ Wal.walCapacityBytes) :
    (∀ e ∈ trace, e.2 ≠ .panic) ∧ ∃ s, (fileSystem n).Run trace s ∧ Steady n a.1 a.2 s := by
  induction hrun with
  | start hstart =>
      obtain ⟨ord, w₀, classes, now, hnow, h⟩ := hstart
      refine ⟨by simp, .mounted n now, .start ⟨now, rfl⟩, mirrors_mounted h hlog, headroom_format h, ?_⟩
      exact FileSystem.timed_mounted hnow
  | @snoc ls b e a' hrun hstep ih =>
      obtain ⟨ord, h⟩ := hstep
      obtain ⟨hbefore, hlast⟩ := List.forall_mem_append.mp hrange
      -- the log never gets shorter
      have hgrows := logGrows_handle (Env.healthy ord) e.1 b (trial_wf hrun)
      rw [h] at hgrows
      obtain ⟨hanswered, s, hs, hst⟩ := ih hbefore (Nat.le_trans hgrows.2 hlog)
      obtain ⟨hr, s', hserves, hst'⟩ := hst.serve (hlast e (List.mem_singleton_self e)) h hlog
      exact ⟨List.forall_mem_append.mpr ⟨hanswered, List.forall_mem_singleton.mpr hr⟩, s', hs.snoc hserves, hst'⟩

/-- **Every request is answered.** Whatever the requests and their order, as long as they are in range and the log ends
    within its region, none panics: and the replies are the file system's. -/
theorem every_request_answered {trace : List (Request × Res Errno Reply)} {a : World × Pool} (hrun : (trial n).Run trace a)
    (hrange : ∀ e ∈ trace, e.1.InRange) (hlog : a.2.metaStore.walCursor ≤ Wal.walCapacityBytes) :
    (∀ e ∈ trace, e.2 ≠ .panic) ∧ ∃ s, (fileSystem n).Run trace s ∧ Mirrors n a.1 a.2 s := by
  obtain ⟨hanswered, s, hs, hst⟩ := trial_steady hrun hrange hlog
  exact ⟨hanswered, s, hs, hst.mirrors⟩

/-- The requests of a list, one after another. -/
theorem serveAll_run {M : Machine (World × Pool) (Request × Res Errno Reply)} {trace : List (Request × Res Errno Reply)}
    {reqs : List Request} {a : World × Pool} (hrun : M.Run trace a)
    (hserve : ∀ req a, M.step a (req, (handle env req a).1) (handle env req a).2) :
    M.Run (trace ++ (serveAll env reqs a).1) (serveAll env reqs a).2 := by
  induction reqs generalizing trace a with
  | nil => simpa [serveAll] using hrun
  | cons req reqs ih =>
      have hnext := ih (hrun.snoc (hserve req a))
      rwa [List.append_assoc] at hnext

/-- The theorem at the sample session. -/
theorem every_request_answered_talk : (∀ e ∈ talk.1, e.2 ≠ .panic) ∧
    ∃ s, (fileSystem 1).Run talk.1 s ∧ Mirrors 1 talk.2.1 talk.2.2 s := by
  have hmount : (trial 1).Run [] onDisk := .start ⟨MetaStore.listOrder, World.blank 0, [.hdd], 0, by decide,
    show formatWithClasses (Env.healthy MetaStore.listOrder) (World.blank 0) 1 [.hdd] 0 =
      (.ok (), onDisk.1, some onDisk.2) from rfl⟩
  have hrun : (trial 1).Run ([] ++ talk.1) talk.2 := serveAll_run hmount fun _ _ => ⟨_, rfl⟩
  rw [List.nil_append] at hrun
  exact every_request_answered hrun (by decide +kernel) (by decide +kernel)

end Tartine.Fuse
