import Tartine.Fuse.Answered
import Tartine.Fuse.Policies
import Tartine.Meta.Room

/-!
# `Fuse.Exact` — with room, the daemon is the file system

`Fuse.Refinement` leaves the daemon a way out: a write, or a conversion that waits, may be turned away for want of room.
It takes that way only when there is none. As long as the policies that clients set have room in the pool map, and what
the granted requests store adds up to no more than a segment, every reply is the one the file system computes, and
nothing about the disks can be told from the replies.

* `FileSystem.answer`, `FileSystem.cost` — the reply a request is owed, and what granting it stores on a disk;
* `Ample` — what holds between two requests;
* `Ample.serve` — then the next is answered exactly, for its cost;
* `replies_exact` — so every request of a run is.
-/

namespace Tartine.Fuse

open Basis Codec Pool

variable {env : Env} {ord : IterOrder} {w w' w₁ : World} {p p' p₁ : Pool} {s s' : FileSystem} {n limit : Nat} {ino i : InodeId}
  {rec : InodeRecord} {f : File} {req : Request} {r : Res Errno Reply} {pm : PoolMap}

namespace FileSystem

/-! ## Exact answers, and what they cost -/

/-- The reply to a request and the file system after it. -/
def answer (n : Nat) (s : FileSystem) (req : Request) : Res Errno Reply × FileSystem :=
  match s.request n req with
  | .ok (a, s') => (.ok a, s')
  | .err e      => (.err e, s)
  | .panic      => (.panic, s)

/-- The requests of a list with their replies. -/
def answers (n : Nat) : FileSystem → List Request → List (Request × Res Errno Reply)
  | _, []          => []
  | s, req :: reqs => (req, (s.answer n req).1) :: answers n (s.answer n req).2 reqs

def afterAll (n : Nat) (s : FileSystem) (reqs : List Request) : FileSystem := reqs.foldl (fun s req => (s.answer n req).2) s

/-- The bytes a granted request has stored on each disk it chose: a record of the chunk, or the whole file. -/
def stored (s' : FileSystem) : Request → Nat
  | .write ino _ data     =>
      match s'.file ino with
      | some f => if f.mode = .writable then f.content.length else Segment.headerLen + data.length
      | none   => 0
  | .ioctl ino cmd inData =>
      match s'.file ino with
      | some f => if cmd = tartineIocMakeWritable ∧ waits inData then f.content.length else 0
      | none   => 0
  | _ => 0

/-- What a request costs: nothing, if it is refused. -/
def cost (n : Nat) (s : FileSystem) (req : Request) : Nat :=
  match s.request n req with
  | .ok (_, s') => s'.stored req
  | _           => 0

def costs (n : Nat) : FileSystem → List Request → Nat
  | _, []          => 0
  | s, req :: reqs => s.cost n req + costs n (s.answer n req).2 reqs

theorem answers_snoc (s : FileSystem) (reqs : List Request) (req : Request) :
    s.answers n (reqs ++ [req]) = s.answers n reqs ++ [(req, ((s.afterAll n reqs).answer n req).1)] := by
  induction reqs generalizing s with
  | nil => rfl
  | cons first reqs ih =>
      rw [List.cons_append, answers, answers, ih, List.cons_append]
      rfl

theorem afterAll_snoc (s : FileSystem) (reqs : List Request) (req : Request) :
    s.afterAll n (reqs ++ [req]) = ((s.afterAll n reqs).answer n req).2 := by
  simp [afterAll]

theorem costs_snoc (s : FileSystem) (reqs : List Request) (req : Request) :
    s.costs n (reqs ++ [req]) = s.costs n reqs + (s.afterAll n reqs).cost n req := by
  induction reqs generalizing s with
  | nil => simp [costs, afterAll]
  | cons first reqs ih =>
      rw [List.cons_append, costs, costs, ih, Nat.add_assoc]
      rfl

theorem answer_of_ok {a : Reply} (h : s.request n req = .ok (a, s')) : s.answer n req = (.ok a, s') := by simp [answer, h]

theorem answer_of_err {e : Errno} (h : s.request n req = .err e) : s.answer n req = (.err e, s) := by simp [answer, h]

theorem cost_of_ok {a : Reply} (h : s.request n req = .ok (a, s')) : s.cost n req = s'.stored req := by simp [cost, h]

/-- What a write costs. -/
theorem cost_write {offset : UInt64} {data content : Bytes} {op : PoolOp} (hfile : s.file ino = some f)
    (h : Writes ino f offset data op content) : s.cost n (.write ino offset data) =
      if f.mode = .writable then content.length else Segment.headerLen + data.length := by
  rw [cost_of_ok (request_of_writes hfile h), stored, modify_file_self, hfile]
  rfl

/-- A conversion is granted to an append-only file. -/
theorem request_convert {inData : Bytes} (hlen : ¬inData.length < 4) (hfile : s.file ino = some f)
    (hmode : f.mode = .appendOnly) : s.request n (.ioctl ino tartineIocMakeWritable inData) =
      .ok (.ioctl [], s.modify ino (.setMode (if waits inData then .writable else .converting))) := by
  show s.control ino _ inData = _
  simp [control, convert, hlen, hfile, hmode]

/-- What one that waits costs. -/
theorem cost_convert {inData : Bytes} (hlen : ¬inData.length < 4) (hfile : s.file ino = some f)
    (hmode : f.mode = .appendOnly) (hwaits : waits inData) :
    s.cost n (.ioctl ino tartineIocMakeWritable inData) = f.content.length := by
  rw [cost_of_ok (request_convert hlen hfile hmode), stored, modify_file_self, hfile]
  simp [hwaits, File.setMode]

/-! ## Policies with room -/

/-- Every file's policy has room in the pool map. -/
def Roomy (pm : PoolMap) (s : FileSystem) : Prop :=
  ∀ i f, s.file i = some f → ∃ slots, f.redundancy = .replicated slots ∧ pm.Roomy slots

end FileSystem

/-- Every policy that the request sets has room in the pool map. -/
def Request.RoomyIn (pm : PoolMap) : Request → Prop
  | .ioctl _ cmd inData =>
      cmd = tartineIocSetRedundancy → ∀ slots, decodeSetRedundancy inData = some (.replicated slots) → pm.Roomy slots
  | _ => True

/-- **Step lemma** of the policies. -/
theorem FileSystem.Roomy.request {a : Reply} (h : s.Roomy pm) (hroomy : req.RoomyIn pm)
    (hdefault : ∃ slots, defaultRedundancy n = .replicated slots ∧ pm.Roomy slots)
    (hreq : s.request n req = .ok (a, s')) : s'.Roomy pm := by
  intro i f hf
  have hbecame := FileSystem.Became.of_request (i := i) hreq
  generalize s'.file i = stands at hbecame hf
  cases hbecame with
  | same => exact h i f hf
  | created hi =>
      obtain rfl := Option.some.inj hf
      exact hdefault
  | @written offset data content g hold hwrite =>
      obtain rfl := Option.some.inj hf
      exact h i g hold
  | @converted inData mode g hold hmode =>
      obtain rfl := Option.some.inj hf
      exact h i g hold
  | @policed inData scheme g hold hdecode =>
      obtain rfl := Option.some.inj hf
      cases scheme with
      | replicated slots => exact ⟨slots, rfl, hroomy rfl slots hdecode⟩
      | erasureCoded ds ps =>
          -- such a policy is not granted
          have hreq : s.setPolicy i inData = .ok (a, s') := hreq
          simp [FileSystem.setPolicy, hdecode] at hreq

/-! ## Between two requests -/

theorem Performs.poolMap_eq (h : Performs env w p req r w' p') : p'.poolMap = p.poolMap := by
  cases h with
  | idle hr => rfl
  | call hcall h hres hr => exact poolMap_step h hres
  | convert hbegin hcomplete hres => exact (poolMap_step hcomplete hres).trans (poolMap_step hbegin (by simp))

/-- What holds of a mounted daemon that has found room so far: no cursor is past `limit`. -/
structure Ample (n limit : Nat) (w : World) (p : Pool) (s : FileSystem) : Prop where
  steady : Steady n w p s
  pool : p.poolMap.disks.size < 2 ^ 32 - 1
  roomy : s.Roomy p.poolMap
  cursors : CursorsLe limit p

/-- The disks of a file, for every key. -/
theorem Ample.spread (ha : Ample n limit w p s) (ord : IterOrder) (hfile : s.file i = some f) (hrec : f.Recorded rec)
    (hsound : RecordSound (w, p) rec f.content) : Spread ord p rec.redundancy := by
  obtain ⟨slots, hslots, hroomy⟩ := ha.roomy i f hfile
  have hscheme := hsound.scheme
  rw [hrec.redundancy, hslots] at hscheme ⊢
  exact spread_of_roomy ha.pool ha.steady.headroom.membered hscheme.2 hroomy ord

/-- **A write that is granted is afforded.** -/
theorem Ample.affords_writes {offset : UInt64} {data content : Bytes} {op : PoolOp} (ha : Ample n limit w p s) (ord : IterOrder)
    (hfile : s.file ino = some f) (hhas : p.metaStore.view.Has ino rec) (hrec : f.Recorded rec)
    (hsound : RecordSound (w, p) rec f.content) (hwrites : Writes ino f offset data op content)
    (hfit : limit + s.cost n (.write ino offset data) ≤ Segment.segmentSizeBytes) :
    Affords ord w p op (limit + s.cost n (.write ino offset data)) := by
  have hspread := ha.spread ord hfile hrec hsound
  rw [FileSystem.cost_write hfile hwrites] at hfit ⊢
  cases hwrites with
  | append hmode hoffset =>
      rw [if_neg hmode] at hfit ⊢
      exact affords_append hhas (hrec.mode ▸ hmode) hsound hspread ha.cursors hfit
  | overwrite hmode =>
      rw [if_pos hmode] at hfit ⊢
      exact affords_write hhas (hrec.mode.trans hmode) hsound hspread ha.cursors hfit

/-- A conversion that has begun. -/
theorem Ample.begin {v : PoolVal} (ha : Ample n limit w p s)
    (h : Pool.step (Env.healthy ord) (.beginConvert i) (w, p) = (.ok v, w', p'))
    (hlog : p'.metaStore.walCursor ≤ Wal.walCapacityBytes) : Ample n limit w' p' (s.modify i (.setMode .converting)) := by
  have hmap : p'.poolMap = p.poolMap := poolMap_step h (by simp)
  refine ⟨ha.steady.begin h hlog, hmap ▸ ha.pool, fun j f hf => ?_, ha.cursors.step (fun x hop => by cases hop) h (by simp)⟩
  rw [hmap]
  by_cases hj : j = i
  · subst hj
    rw [FileSystem.modify_file_self] at hf
    obtain ⟨g, hg, rfl⟩ := Option.map_eq_some_iff.mp hf
    exact ha.roomy j g hg
  · exact ha.roomy j f (by simpa [FileSystem.modify, hj] using hf)

/-- **Its completion is afforded.** -/
theorem Ample.affords_completion {inData : Bytes} {v : PoolVal} (ha : Ample n limit w p s) (ord' : IterOrder)
    (hlen : ¬inData.length < 4) (hwaits : FileSystem.waits inData)
    (h : Pool.step (Env.healthy ord) (.beginConvert ino) (w, p) = (.ok v, w₁, p₁))
    (hlog : p₁.metaStore.walCursor ≤ Wal.walCapacityBytes)
    (hfit : limit + s.cost n (.ioctl ino tartineIocMakeWritable inData) ≤ Segment.segmentSizeBytes) :
    Affords ord' w₁ p₁ (.completeConvert ino) (limit + s.cost n (.ioctl ino tartineIocMakeWritable inData)) := by
  have ha₁ := ha.begin h hlog
  obtain ⟨f, hfile, hmode, -⟩ := begin_granted ha.steady.mirrors h hlog
  rw [FileSystem.cost_convert hlen hfile hmode hwaits] at hfit ⊢
  have hfile₁ : (s.modify ino (.setMode .converting)).file ino = some (f.setMode .converting) := by
    rw [FileSystem.modify_file_self, hfile]
    rfl
  cases ha₁.steady.mirrors.find ino with
  | file hget hfile' hrec hhas hsound =>
      obtain rfl := Option.some.inj (hfile₁.symm.trans hfile')
      exact affords_completeConvert hhas hrec.mode hsound (ha₁.spread ord' hfile' hrec hsound) ha₁.cursors hfit
  | absent hget hfile' => cases hfile₁.symm.trans hfile'

/-! ## One request -/

/-- A write that is owed is not turned away. -/
theorem Ample.write_ne_err {offset : UInt64} {data : Bytes} {a : Reply} {e : Errno} (ha : Ample n limit w p s)
    (hreq : s.request n (.write ino offset data) = .ok (a, s'))
    (hfit : limit + s.cost n (.write ino offset data) ≤ Segment.segmentSizeBytes)
    (h : write (Env.healthy ord) ino offset data (w, p) = (.err e, w', p')) : False := by
  rcases write_cases ha.steady.mirrors h (by simp) with
    ⟨htells, -⟩ | ⟨rec, f, op, content, hfile, hhas, hrec, hsound, hwrites, ⟨hr, -⟩ | ⟨e', -, hstep⟩⟩
  · rcases htells with ⟨a', ha', -⟩ | ⟨e', -, hrefused⟩
    · cases ha'
    · cases hreq.symm.trans hrefused
  · cases hr
  · exact (ha.affords_writes ord hfile hhas hrec hsound hwrites hfit).ne_err e' (congrArg Prod.fst hstep)

/-- **What a write leaves of the cursors.** -/
theorem Ample.cursors_write {offset : UInt64} {data : Bytes} (ha : Ample n limit w p s)
    (hfit : limit + s.cost n (.write ino offset data) ≤ Segment.segmentSizeBytes)
    (h : write (Env.healthy ord) ino offset data (w, p) = (r, w', p')) (hr : r ≠ .panic) :
    CursorsLe (limit + s.cost n (.write ino offset data)) p' := by
  have hsame : CursorsLe (limit + s.cost n (.write ino offset data)) p := ha.cursors.mono (Nat.le_add_right _ _)
  rcases write_cases ha.steady.mirrors h hr with
    ⟨-, hs⟩ | ⟨rec, f, op, content, hfile, hhas, hrec, hsound, hwrites, hends⟩
  · obtain ⟨-, rfl⟩ := Prod.mk.inj hs
    exact hsame
  · have haffords := ha.affords_writes ord hfile hhas hrec hsound hwrites hfit
    rcases hends with ⟨-, hstep⟩ | ⟨e, -, hstep⟩
    · exact haffords.cursors hsame hstep (by simp)
    · exact haffords.cursors hsame hstep (by simp)

/-- **What a conversion leaves of them**, and that it does not stop half way. -/
theorem Ample.convert {inData : Bytes} (ha : Ample n limit w p s) (hlen : ¬inData.length < 4)
    (hfit : limit + s.cost n (.ioctl ino tartineIocMakeWritable inData) ≤ Segment.segmentSizeBytes)
    (h : makeWritable (Env.healthy ord) ino (UInt32.ofNat (leNat (field inData 0 4))) (w, p) = (r, w', p')) (hr : r ≠ .panic)
    (hlog : p'.metaStore.walCursor ≤ Wal.walCapacityBytes) :
    CursorsLe (limit + s.cost n (.ioctl ino tartineIocMakeWritable inData)) p' ∧ ∀ e, r = .err e → e = .ealready := by
  have hsame : CursorsLe (limit + s.cost n (.ioctl ino tartineIocMakeWritable inData)) p :=
    ha.cursors.mono (Nat.le_add_right _ _)
  rcases makeWritable_cases h hr with ⟨rfl, e, hbegin⟩ | ⟨-, rfl, hbegin⟩ | ⟨w₁, p₁, hwaits, hbegin, hends⟩
  · exact ⟨hsame.step (fun x hop => by cases hop) hbegin (by simp), fun e he => (Res.err.inj he).symm⟩
  · exact ⟨hsame.step (fun x hop => by cases hop) hbegin (by simp), fun e he => by cases he⟩
  · have hwf := ha.steady.mirrors.sound.wf.call hbegin (by simp)
    have hsame₁ : CursorsLe _ p₁ := hsame.step (fun x hop => by cases hop) hbegin (by simp)
    have haffords : p₁.metaStore.walCursor ≤ p'.metaStore.walCursor →
        Affords ord w₁ p₁ (.completeConvert ino) (limit + s.cost n (.ioctl ino tartineIocMakeWritable inData)) := fun hle =>
      ha.affords_completion ord hlen (decide_eq_true hwaits) hbegin (Nat.le_trans hle hlog) hfit
    rcases hends with ⟨rfl, hcomplete⟩ | ⟨e, -, hcomplete⟩
    · exact ⟨(haffords (cursor_le_step hwf hcomplete (by simp))).cursors hsame₁ hcomplete (by simp), fun e he => by cases he⟩
    · exact absurd (congrArg Prod.fst hcomplete) ((haffords (cursor_le_step hwf hcomplete (by simp))).ne_err e)

/-- The other requests move no cursor. -/
theorem Performs.cursors (hle : CursorsLe limit p) (h : Performs env w p req r w' p') (hwrite : ¬req.IsWrite)
    (hconvert : ∀ ino inData, req ≠ .ioctl ino tartineIocMakeWritable inData) : CursorsLe limit p' := by
  cases h with
  | idle hr => exact hle
  | @call _ _ op res _ _ hcall h hres hr =>
      have hnone : dataPhase env op = none := by
        cases hcall with
        | append hget hmode hend => exact absurd trivial hwrite
        | overwrite hget hmode => exact absurd trivial hwrite
        | create => rfl
        | unlink => rfl
        | begin => rfl
        | policy hdecode => rfl
      exact hle.step (fun x hop => by cases hnone.symm.trans hop) h hres
  | convert hbegin hcomplete hres => exact absurd rfl (hconvert _ _)

/-- **What a request leaves of the cursors.** -/
theorem Ample.cursors_after (ha : Ample n limit w p s)
    (hfit : limit + s.cost n req ≤ Segment.segmentSizeBytes) (h : handle (Env.healthy ord) req (w, p) = (r, w', p'))
    (hr : r ≠ .panic) (hlog : p'.metaStore.walCursor ≤ Wal.walCapacityBytes) : CursorsLe (limit + s.cost n req) p' := by
  have hsame : CursorsLe (limit + s.cost n req) p := ha.cursors.mono (Nat.le_add_right _ _)
  have hother : ¬req.IsWrite → (∀ ino inData, req ≠ .ioctl ino tartineIocMakeWritable inData) →
      CursorsLe (limit + s.cost n req) p' := (handle_performs h hr).cursors hsame
  cases req with
  | write ino offset data => exact ha.cursors_write hfit h hr
  | ioctl ino cmd inData =>
      by_cases hcmd : cmd = tartineIocMakeWritable
      · subst hcmd
        have h : ioctl (Env.healthy ord) ino tartineIocMakeWritable inData (w, p) = (r, w', p') := h
        rw [ioctl, if_pos rfl] at h
        by_cases hlen : inData.length < 4
        · rw [if_pos hlen] at h
          obtain ⟨-, hs⟩ := Prod.mk.inj h
          obtain ⟨-, rfl⟩ := Prod.mk.inj hs
          exact hsame
        · rw [if_neg hlen] at h
          exact (ha.convert hlen hfit h hr hlog).1
      · exact hother id fun ino' inData' heq => hcmd (Request.ioctl.inj heq).2.1
  | _ => exact hother id (by simp)

/-- **Step lemma.** With room for what it costs, a request is answered exactly, and the daemon is ready for another. -/
theorem Ample.serve (ha : Ample n limit w p s) (hrange : req.InRange) (hroomy : req.RoomyIn p.poolMap)
    (hdefault : ∃ slots, defaultRedundancy n = .replicated slots ∧ p.poolMap.Roomy slots)
    (hfit : limit + s.cost n req ≤ Segment.segmentSizeBytes) (h : handle (Env.healthy ord) req (w, p) = (r, w', p'))
    (hlog : p'.metaStore.walCursor ≤ Wal.walCapacityBytes) :
    p'.poolMap = p.poolMap ∧ ∃ s', s.answer n req = (r, s') ∧ Ample n (limit + s.cost n req) w' p' s' := by
  obtain ⟨hr, s', hserves, hst⟩ := ha.steady.serve hrange h hlog
  have hmap : p'.poolMap = p.poolMap := (handle_performs h hr).poolMap_eq
  have hcursors := ha.cursors_after hfit h hr hlog
  have hready : s'.Roomy p.poolMap → Ample n (limit + s.cost n req) w' p' s' := fun hroomy' =>
    ⟨hst, hmap ▸ ha.pool, hmap.symm ▸ hroomy', hcursors⟩
  refine ⟨hmap, s', ?_⟩
  cases hserves with
  | granted hreq => exact ⟨FileSystem.answer_of_ok hreq, hready (ha.roomy.request hroomy hdefault hreq)⟩
  | refused hreq => exact ⟨FileSystem.answer_of_err hreq, hready ha.roomy⟩
  | unplaced hreq => exact (ha.write_ne_err hreq hfit h).elim
  | full hreq hfile hmode => exact (ha.write_ne_err hreq hfit h).elim
  | @stuck ino inData a s₁ hreq hwaits =>
      have h : ioctl (Env.healthy ord) ino tartineIocMakeWritable inData (w, p) = (.err .enospc, w', p') := h
      rw [ioctl, if_pos rfl] at h
      by_cases hlen : inData.length < 4
      · rw [if_pos hlen] at h
        cases (Prod.mk.inj h).1
      · rw [if_neg hlen] at h
        cases (ha.convert hlen hfit h hr hlog).2 _ rfl

/-! ## Runs -/

theorem ample_mounted {w₀ : World} {classes : List DiskClass} {now : UInt64} (hpool : n < 2 ^ 32 - 1)
    (hnow : now.toNat < 2 ^ 63) (h : formatWithClasses (Env.healthy ord) w₀ n classes now = (.ok (), w, some p))
    (hlog : p.metaStore.walCursor ≤ Wal.walCapacityBytes) :
    Ample n 0 w p (.mounted n now) ∧ ∃ slots, defaultRedundancy n = .replicated slots ∧ p.poolMap.Roomy slots := by
  obtain ⟨hn, hlen, ms, -, hp, -⟩ := format_eq_ok h
  have hmap : p.poolMap = poolMapOf classes := by rw [hp]
  have hroomy := roomy_default hlen
  have hsize := size_poolMapOf classes
  refine ⟨⟨⟨mirrors_mounted h hlog, headroom_format h, FileSystem.timed_mounted hnow⟩, ?_, ?_, ?_⟩, _, rfl, ?_⟩
  · rw [hmap]
    omega
  · intro i f hf
    by_cases hi : i = rootInode
    · subst hi
      rw [FileSystem.mounted_file_root] at hf
      obtain rfl := Option.some.inj hf
      exact ⟨_, rfl, hmap ▸ hroomy⟩
    · simp [FileSystem.mounted, hi] at hf
  · intro id handle hid
    rw [hp] at hid
    exact Nat.le_of_eq (handlesOf_eq_some hid).2.2
  · rw [hmap, Nat.max_eq_left (Nat.pos_of_ne_zero hn)]
    exact hroomy

/-- The daemon over `n` disks that were formatted at `now`. -/
def trialAt (n : Nat) (now : UInt64) : Machine (World × Pool) (Request × Res Errno Reply) where
  start a := ∃ ord w₀ classes, formatWithClasses (Env.healthy ord) w₀ n classes now = (.ok (), a.1, some a.2)
  step    := (trial n).step

theorem trialAt_run {now : UInt64} {trace : List (Request × Res Errno Reply)} {a : World × Pool} (hnow : now.toNat < 2 ^ 63)
    (hrun : (trialAt n now).Run trace a) : (trial n).Run trace a := by
  refine hrun.mono ?_ fun _ _ _ h => h
  rintro a ⟨ord, w₀, classes, h⟩
  exact ⟨ord, w₀, classes, now, hnow, h⟩

/-- **Run lemma.** -/
theorem trialAt_ample {now : UInt64} {trace : List (Request × Res Errno Reply)} {a : World × Pool}
    (hrun : (trialAt n now).Run trace a) (hnow : now.toNat < 2 ^ 63) (hpool : n < 2 ^ 32 - 1)
    (hrange : ∀ e ∈ trace, e.1.InRange) (hroomy : ∀ e ∈ trace, e.1.RoomyIn a.2.poolMap)
    (hspace : (FileSystem.mounted n now).costs n (trace.map Prod.fst) ≤ Segment.segmentSizeBytes)
    (hlog : a.2.metaStore.walCursor ≤ Wal.walCapacityBytes) :
    trace = (FileSystem.mounted n now).answers n (trace.map Prod.fst) ∧
    Ample n ((FileSystem.mounted n now).costs n (trace.map Prod.fst)) a.1 a.2
      ((FileSystem.mounted n now).afterAll n (trace.map Prod.fst)) ∧
    ∃ slots, defaultRedundancy n = .replicated slots ∧ a.2.poolMap.Roomy slots := by
  induction hrun with
  | start hstart =>
      obtain ⟨ord, w₀, classes, h⟩ := hstart
      exact ⟨rfl, ample_mounted hpool hnow h hlog⟩
  | @snoc ls b e a' hrun hstep ih =>
      obtain ⟨ord, h⟩ := hstep
      have htrial := trialAt_run hnow hrun
      obtain ⟨hbefore, hlast⟩ := List.forall_mem_append.mp hrange
      have hlast := hlast e (List.mem_singleton_self e)
      have hgrows := logGrows_handle (Env.healthy ord) e.1 b (trial_wf htrial)
      rw [h] at hgrows
      have hlogb := Nat.le_trans hgrows.2 hlog
      -- nothing changes the pool map
      have hmap : a'.2.poolMap = b.2.poolMap := by
        obtain ⟨-, s, -, hst⟩ := trial_steady htrial hbefore hlogb
        exact (handle_performs h (hst.serve hlast h hlog).1).poolMap_eq
      rw [hmap] at hroomy
      obtain ⟨hroomyb, hroomye⟩ := List.forall_mem_append.mp hroomy
      have hroomye := hroomye e (List.mem_singleton_self e)
      simp only [List.map_append, List.map_cons, List.map_nil, FileSystem.costs_snoc] at hspace
      obtain ⟨htrace, ha, hdefault⟩ := ih hbefore hroomyb (Nat.le_trans (Nat.le_add_right _ _) hspace) hlogb
      obtain ⟨-, s', hanswer, ha'⟩ := ha.serve hlast hroomye hdefault hspace h hlog
      refine ⟨?_, ?_, hmap.symm ▸ hdefault⟩
      · rw [List.map_append, List.map_singleton, FileSystem.answers_snoc, ← htrace, hanswer]
      · rw [List.map_append, List.map_singleton, FileSystem.costs_snoc, FileSystem.afterAll_snoc, hanswer]
        exact ha'

/-- **With room, the daemon is the file system.** If the requests are in range, the policies they set have room in the
    pool map, what the file system grants of them adds up to no more than a segment, and the log ends within its region,
    then the replies are the ones the file system computes, one for one. -/
theorem replies_exact {now : UInt64} {trace : List (Request × Res Errno Reply)} {a : World × Pool}
    (hrun : (trialAt n now).Run trace a) (hnow : now.toNat < 2 ^ 63) (hpool : n < 2 ^ 32 - 1)
    (hrange : ∀ e ∈ trace, e.1.InRange) (hroomy : ∀ e ∈ trace, e.1.RoomyIn a.2.poolMap)
    (hspace : (FileSystem.mounted n now).costs n (trace.map Prod.fst) ≤ Segment.segmentSizeBytes)
    (hlog : a.2.metaStore.walCursor ≤ Wal.walCapacityBytes) :
    trace = (FileSystem.mounted n now).answers n (trace.map Prod.fst) :=
  (trialAt_ample hrun hnow hpool hrange hroomy hspace hlog).1

/-- The requests of a list that is served are its requests. -/
theorem serveAll_requests {reqs : List Request} {a : World × Pool} : (serveAll env reqs a).1.map Prod.fst = reqs := by
  induction reqs generalizing a with
  | nil => rfl
  | cons req reqs ih => exact congrArg (req :: ·) ih

/-- The theorem at the sample session: what it stores is a record of three bytes, and the file twice. -/
theorem replies_exact_talk : talk.1 = (FileSystem.mounted 1 0).answers 1 talkRequests := by
  have hmount : (trialAt 1 0).Run [] onDisk := .start ⟨MetaStore.listOrder, World.blank 0, [.hdd],
    show formatWithClasses (Env.healthy MetaStore.listOrder) (World.blank 0) 1 [.hdd] 0 =
      (.ok (), onDisk.1, some onDisk.2) from rfl⟩
  have hrun : (trialAt 1 0).Run ([] ++ talk.1) talk.2 := serveAll_run hmount fun _ _ => ⟨_, rfl⟩
  rw [List.nil_append] at hrun
  have hrequests : talk.1.map Prod.fst = talkRequests := serveAll_requests
  -- none sets a policy
  have hnone : ∀ req ∈ talkRequests, req.RoomyIn talk.2.2.poolMap := by
    simp [talkRequests, Request.RoomyIn, convertRequest, tartineIocMakeWritable, tartineIocSetRedundancy]
  have hroomy : ∀ e ∈ talk.1, e.1.RoomyIn talk.2.2.poolMap := fun e he =>
    hnone e.1 (hrequests ▸ List.mem_map_of_mem he)
  have hspace : (FileSystem.mounted 1 0).costs 1 talkRequests ≤ Segment.segmentSizeBytes := by decide +kernel
  have hexact := replies_exact hrun (by decide) (by decide) (by decide +kernel) hroomy (hrequests.symm ▸ hspace)
    (by decide +kernel)
  rwa [hrequests] at hexact

end Tartine.Fuse
