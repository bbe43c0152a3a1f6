import Tartine.Fuse.Fs
import Tartine.Meta.PoolAppend

/-!
# `Fuse.Requests` — requests as calls of the pool, and sessions of any number of clients

A handler runs under the pool's mutex, so what the clients of a mount can do together is a sequence of requests, whoever
sent them. `Performs` says what one of them does to the pool: nothing, one call of its interface, or, for a conversion
that waits, two. `Session` is a pool from its format on, with every request answered so far and its reply.

* `handle_performs` — every request that is answered performs one of the three;
* `Session.run` — so a session is a run of the pool, within the log's region if the log ends inside it.
-/

namespace Tartine.Fuse

open Basis Pool

/-! ## What a request does -/

/-- The call of the pool's interface a request leads to. -/
inductive Calls (p : Pool) : Request → PoolOp → Prop where
  | create {parent name name' mode uid gid unixMode now} : Calls p (.create parent name mode uid gid now)
      (.createFile parent name' (defaultRedundancy p.diskCount) uid gid unixMode now)
  | unlink {parent name name'} : Calls p (.unlink parent name) (.unlink parent name')
  | append {ino offset data rec} (hget : p.getInode ino = .ok (some rec)) (hmode : rec.mode ≠ .writable)
      (hend : offset = rec.size) : Calls p (.write ino offset data) (.append ino data)
  | overwrite {ino offset data rec} (hget : p.getInode ino = .ok (some rec)) (hmode : rec.mode = .writable) :
      Calls p (.write ino offset data) (.write ino offset data)
  | begin {ino inData} : Calls p (.ioctl ino tartineIocMakeWritable inData) (.beginConvert ino)
  | policy {ino inData slots} (hdecode : decodeSetRedundancy inData = some (.replicated slots)) :
      Calls p (.ioctl ino tartineIocSetRedundancy inData) (.setRedundancy ino (.replicated slots))

/-- The request is a write. -/
def Request.IsWrite : Request → Prop
  | .write .. => True
  | _         => False

/-- What an answered request did to the pool. A write replies Ok exactly if its call returned Ok. -/
inductive Performs (env : Env) (w : World) (p : Pool) : Request → Res Errno Reply → World → Pool → Prop where
  | idle {req r} (hr : req.IsWrite → ∀ a, r ≠ .ok a) : Performs env w p req r w p
  | call {req r op res w' p'} (hcall : Calls p req op) (h : Pool.step env op (w, p) = (res, w', p')) (hres : res ≠ .panic)
      (hr : req.IsWrite → ((∃ a, r = .ok a) ↔ ∃ v, res = .ok v)) : Performs env w p req r w' p'
  | convert {ino inData r v res w₁ p₁ w' p'} (hbegin : Pool.step env (.beginConvert ino) (w, p) = (.ok v, w₁, p₁))
      (hcomplete : Pool.step env (.completeConvert ino) (w₁, p₁) = (res, w', p')) (hres : res ≠ .panic) :
      Performs env w p (.ioctl ino tartineIocMakeWritable inData) r w' p'

variable {env : Env} {w w' : World} {p p' : Pool} {ino : InodeId} {r : Res Errno Reply} {req : Request}

/-- The state is as it was. -/
abbrev Same (a b : World × Pool) : Prop := b = a

theorem same_refl (a : World × Pool) : Same a a := rfl

theorem same_trans (a b c : World × Pool) (h : Same a b) (h' : Same b c) : Same a c := h'.trans h

theorem keeps_attrReply (rec : InodeRecord) (reply : FileAttr → Reply) : Action.Keeps Same (attrReply rec reply) :=
  Action.keeps_reads same_refl _

/-- The request only reads. A size that is asked for is checked, and not set. -/
def Request.ReadsOnly : Request → Prop
  | .lookup ..  => True
  | .getattr .. => True
  | .setattr .. => True
  | .read ..    => True
  | .readdir .. => True
  | _           => False

theorem keeps_of_reads (h : req.ReadsOnly) : Action.Keeps Same (handle env req) := by
  cases req with
  | lookup parent name =>
      refine (Action.keeps_reads same_refl _).bind same_trans (fun name => ?_)
      exact (Action.keeps_reads same_refl _).bind same_trans (fun rec => keeps_attrReply rec .entry)
  | getattr ino => exact (Action.keeps_reads same_refl _).bind same_trans (fun rec => keeps_attrReply rec .attr)
  | setattr ino size =>
      refine (Action.keeps_reads same_refl _).bind same_trans (fun rec => ?_)
      refine (Action.keeps_reads same_refl _).bind same_trans (fun refused => ?_)
      cases refused with
      | true => exact Action.keeps_reads same_refl _
      | false => exact keeps_attrReply rec .attr
  | read ino offset size => exact Action.Keeps.bind same_trans (fun s => rfl) (fun _ => Action.keeps_pure same_refl _)
  | readdir ino offset room => exact Action.keeps_reads same_refl _
  | _ => exact h.elim

/-- The reply to a file just created is read off it. -/
theorem keeps_created (id : InodeId) : Action.Keeps Same (do
    let rec ← Action.reads fun s => recordOf s.2 id
    attrReply rec .created : FuseM Reply) :=
  (Action.keeps_reads same_refl _).bind same_trans (fun rec => keeps_attrReply rec .created)

/-- A handler that leaves the state as it was. -/
theorem performs_of_keeps (hk : Action.Keeps Same (handle env req)) (hw : ¬req.IsWrite)
    (h : handle env req (w, p) = (r, w', p')) : Performs env w p req r w' p' := by
  have hsame := hk (w, p)
  rw [h] at hsame
  obtain ⟨rfl, rfl⟩ := Prod.mk.inj hsame
  exact .idle (fun hwrite => absurd hwrite hw)

/-- A call without a value, and the reply to it. -/
theorem unitVal_of_reply {x : PoolM Unit} {g : PoolError → Errno} {reply : Reply}
    (h : (do Action.mapErr g x; pure reply : FuseM Reply) (w, p) = (r, w', p')) (hr : r ≠ .panic) :
    ∃ res, unitVal x (w, p) = (res, w', p') ∧ res ≠ .panic ∧ ((∃ a, r = .ok a) ↔ ∃ v, res = .ok v) := by
  rcases Action.returns_cases h hr with ⟨u, hx, rfl⟩ | ⟨e, hx, rfl⟩
  · have hx := Action.mapErr_eq_ok.mp hx
    exact ⟨.ok .unit, Action.bind_of_ok hx, by simp, by simp⟩
  · obtain ⟨e', hx, -⟩ := Action.mapErr_eq_err.mp hx
    exact ⟨.err e', Action.bind_of_err hx, by simp, by simp⟩

theorem nameStr_eq_ok {bs : Bytes} {name : String} {s s' : World × Pool} (h : nameStr bs s = (.ok name, s')) :
    String.fromUTF8? ⟨bs.toArray⟩ = some name ∧ s' = s := by
  obtain ⟨hname, hs⟩ := Action.reads_eq_ok.mp h
  split at hname
  · cases hname
  · rename_i name' hsome
    obtain rfl := Res.ok.inj hname
    exact ⟨hsome, hs⟩

theorem inodeOf_eq_ok {rec : InodeRecord} {s : World × Pool} (h : inodeOf ino (w, p) = (.ok rec, s)) :
    p.getInode ino = .ok (some rec) ∧ s = (w, p) := by
  obtain ⟨hrec, rfl⟩ := Action.reads_eq_ok.mp h
  refine ⟨?_, rfl⟩
  dsimp only at hrec
  split at hrec
  · rename_i rec' hget
    obtain rfl := Res.ok.inj hrec
    exact hget
  · cases hrec
  · cases hrec
  · cases hrec

/-- A write is refused, or appended at the end of a file that is not writable, or stored in one that is. -/
theorem write_performs {offset : UInt64} {data : Bytes} (h : write env ino offset data (w, p) = (r, w', p'))
    (hr : r ≠ .panic) : Performs env w p (.write ino offset data) r w' p' := by
  rcases Action.bind_cases h with ⟨rec, s, hrec, h⟩ | ⟨e, hrec, rfl⟩ | ⟨-, rfl⟩
  · obtain ⟨hget, rfl⟩ := inodeOf_eq_ok hrec
    have hrefused : ∀ e : Errno, (Action.reads fun _ => .err e : FuseM Reply) (w, p) = (r, w', p') →
        Performs env w p (.write ino offset data) r w' p' := by
      intro e h
      obtain ⟨rfl, hs⟩ := Prod.mk.inj h
      obtain ⟨rfl, rfl⟩ := Prod.mk.inj hs
      exact .idle (fun _ a => by simp)
    -- the classifier decides by the mode, and in the first two modes by the offset
    rw [classifyWrite_eq] at h
    cases hmode : rec.mode with
    | appendOnly =>
        by_cases hend : offset = rec.size
        · simp only [hmode, if_pos hend] at h
          obtain ⟨res, hstep, hres, hiff⟩ := unitVal_of_reply h hr
          exact .call (.append hget (by simp [hmode]) hend) hstep hres (fun _ => hiff)
        · simp only [hmode, if_neg hend] at h
          exact hrefused _ h
    | converting =>
        by_cases hend : offset = rec.size
        · simp only [hmode, if_pos hend] at h
          obtain ⟨res, hstep, hres, hiff⟩ := unitVal_of_reply h hr
          exact .call (.append hget (by simp [hmode]) hend) hstep hres (fun _ => hiff)
        · simp only [hmode, if_neg hend] at h
          exact hrefused _ h
    | writable =>
        simp only [hmode] at h
        obtain ⟨res, hstep, hres, hiff⟩ := unitVal_of_reply h hr
        exact .call (.overwrite hget hmode) hstep hres (fun _ => hiff)
  · obtain ⟨rfl, rfl⟩ := Prod.mk.inj (Action.state_of_reads hrec)
    exact .idle (fun _ a => by simp)
  · exact absurd rfl hr

/-- `MAKE_WRITABLE` begins, and if it waits completes what it began. -/
theorem makeWritable_performs {flags : UInt32} {inData : Bytes} (h : makeWritable env ino flags (w, p) = (r, w', p'))
    (hr : r ≠ .panic) : Performs env w p (.ioctl ino tartineIocMakeWritable inData) r w' p' := by
  have hnot : ¬(Request.ioctl ino tartineIocMakeWritable inData).IsWrite := fun hw => hw
  rcases Action.bind_cases h with ⟨u, ⟨w₁, p₁⟩, hbegin, hrest⟩ | ⟨e, hbegin, rfl⟩ | ⟨-, rfl⟩
  · have hbegin : Pool.step env (.beginConvert ino) (w, p) = (.ok .unit, w₁, p₁) :=
      Action.bind_of_ok (Action.mapErr_eq_ok.mp hbegin)
    split at hrest
    · obtain ⟨res, hstep, hres, -⟩ := unitVal_of_reply hrest hr
      exact .convert hbegin hstep hres
    · obtain ⟨-, hs⟩ := Prod.mk.inj hrest
      obtain ⟨rfl, rfl⟩ := Prod.mk.inj hs
      exact .call .begin hbegin (by simp) (fun hw => absurd hw hnot)
  · obtain ⟨e', hbegin, -⟩ := Action.mapErr_eq_err.mp hbegin
    have hbegin : Pool.step env (.beginConvert ino) (w, p) = (.err e', w', p') := Action.bind_of_err hbegin
    exact .call .begin hbegin (by simp) (fun hw => absurd hw hnot)
  · exact absurd rfl hr

theorem setRedundancy_performs {inData : Bytes} (h : setRedundancy env ino inData (w, p) = (r, w', p'))
    (hr : r ≠ .panic) : Performs env w p (.ioctl ino tartineIocSetRedundancy inData) r w' p' := by
  have hnot : ¬(Request.ioctl ino tartineIocSetRedundancy inData).IsWrite := fun hw => hw
  rcases Action.bind_cases h with ⟨scheme, s, hread, hrest⟩ | ⟨e, hread, rfl⟩ | ⟨-, rfl⟩
  · obtain ⟨hdecode, rfl⟩ := Action.reads_eq_ok.mp hread
    obtain ⟨res, hstep, hres, -⟩ := unitVal_of_reply hrest hr
    have hslots : ∃ slots, decodeSetRedundancy inData = some (.replicated slots) ∧ scheme = .replicated slots := by
      split at hdecode
      · cases hdecode
      · cases hdecode
      · rename_i scheme' hne hsome
        obtain rfl := Res.ok.inj hdecode
        cases scheme' with
        | replicated slots => exact ⟨slots, hsome, rfl⟩
        | erasureCoded ds ps => exact absurd rfl (hne ds ps)
    obtain ⟨slots, hsome, rfl⟩ := hslots
    exact .call (.policy hsome) hstep hres (fun hw => absurd hw hnot)
  · obtain ⟨rfl, rfl⟩ := Prod.mk.inj (Action.state_of_reads hread)
    exact .idle (fun hw => absurd hw hnot)
  · exact absurd rfl hr

theorem ioctl_performs {cmd : UInt32} {inData : Bytes} (h : ioctl env ino cmd inData (w, p) = (r, w', p'))
    (hr : r ≠ .panic) : Performs env w p (.ioctl ino cmd inData) r w' p' := by
  have hidle : (w', p') = (w, p) → Performs env w p (.ioctl ino cmd inData) r w' p' := by
    intro hs
    obtain ⟨rfl, rfl⟩ := Prod.mk.inj hs
    exact .idle (fun hw => hw.elim)
  have hreads : ∀ f : InodeRecord → Reply, (do let rec ← inodeOf ino; pure (f rec) : FuseM Reply) (w, p) = (r, w', p') →
      (w', p') = (w, p) := by
    intro f h
    have hsame : Action.Keeps Same (do let rec ← inodeOf ino; pure (f rec) : FuseM Reply) :=
      (Action.keeps_reads same_refl _).bind same_trans (fun _ => Action.keeps_pure same_refl _)
    have := hsame (w, p)
    rwa [h] at this
  unfold ioctl at h
  split at h
  · rename_i hcmd
    subst hcmd
    split at h
    · exact hidle (Prod.mk.inj h).2.symm
    · exact makeWritable_performs h hr
  · split at h
    · exact hidle (hreads _ h)
    · split at h
      · rename_i hcmd
        subst hcmd
        exact setRedundancy_performs h hr
      · split at h
        · exact hidle (hreads _ h)
        · exact hidle (Prod.mk.inj h).2.symm

/-- Creating a file: refused before the pool is asked, or one call of it. -/
theorem create_cases {parent : InodeId} {name : Bytes} {mode uid gid : UInt32} {now : UInt64}
    (h : create env parent name mode uid gid now (w, p) = (r, w', p')) (hr : r ≠ .panic) :
    (w', p') = (w, p) ∨ ∃ name' q, String.fromUTF8? ⟨name.toArray⟩ = some name' ∧
      p.metaStore.view.lookup parent name' = none ∧
      Pool.createFile env parent name' (defaultRedundancy p.diskCount) uid gid (sIfreg ||| (mode &&& 0o7777)) now (w, p) =
        (q, w', p') ∧ q ≠ .panic := by
  rcases Action.bind_cases h with ⟨name', s, hname, h⟩ | ⟨e, hname, rfl⟩ | ⟨-, rfl⟩
  · obtain ⟨hname', rfl⟩ := nameStr_eq_ok hname
    rcases Action.bind_cases h with ⟨u, s, hexists, h⟩ | ⟨e, hexists, rfl⟩ | ⟨-, rfl⟩
    · obtain ⟨hfree, rfl⟩ := Action.reads_eq_ok.mp hexists
      have hfree : p.metaStore.view.lookup parent name' = none := by
        cases hlookup : p.metaStore.view.lookup parent name' with
        | none => rfl
        | some child =>
            dsimp only at hfree
            rw [hlookup] at hfree
            cases hfree
      rcases Action.bind_cases h with ⟨redundancy, s, hread, h⟩ | ⟨e, hread, rfl⟩ | ⟨-, rfl⟩
      · obtain ⟨hscheme, rfl⟩ := Action.reads_eq_ok.mp hread
        obtain rfl := Res.ok.inj hscheme
        rcases Action.bind_cases h with ⟨id, ⟨w₁, p₁⟩, hcreate, h⟩ | ⟨e, hcreate, rfl⟩ | ⟨-, rfl⟩
        · -- the reply is read off the file just created
          have hsame := keeps_created id (w₁, p₁)
          rw [h] at hsame
          obtain ⟨rfl, rfl⟩ := Prod.mk.inj hsame
          exact Or.inr ⟨name', _, hname', hfree, Action.mapErr_eq_ok.mp hcreate, by simp⟩
        · obtain ⟨e', hcreate, -⟩ := Action.mapErr_eq_err.mp hcreate
          exact Or.inr ⟨name', _, hname', hfree, hcreate, by simp⟩
        · exact absurd rfl hr
      · exact Or.inl (Action.state_of_reads hread)
      · exact absurd rfl hr
    · exact Or.inl (Action.state_of_reads hexists)
    · exact absurd rfl hr
  · exact Or.inl (Action.state_of_reads hname)
  · exact absurd rfl hr

theorem create_performs {parent : InodeId} {name : Bytes} {mode uid gid : UInt32} {now : UInt64}
    (h : create env parent name mode uid gid now (w, p) = (r, w', p')) (hr : r ≠ .panic) :
    Performs env w p (.create parent name mode uid gid now) r w' p' := by
  rcases create_cases h hr with hs | ⟨name', q, -, -, hcreate, hq⟩
  · obtain ⟨rfl, rfl⟩ := Prod.mk.inj hs
    exact .idle (fun hw => hw.elim)
  · cases q with
    | ok id =>
        have hstep : Pool.step env (.createFile parent name' _ uid gid _ now) (w, p) = (.ok (.inode id), w', p') :=
          Action.bind_of_ok hcreate
        exact .call .create hstep (by simp) (fun hw => hw.elim)
    | err e =>
        have hstep : Pool.step env (.createFile parent name' _ uid gid _ now) (w, p) = (.err e, w', p') :=
          Action.bind_of_err hcreate
        exact .call .create hstep (by simp) (fun hw => hw.elim)
    | panic => exact absurd rfl hq

/-- Unlinking a name: refused before the pool is asked, or one call of it. -/
theorem unlink_cases {parent : InodeId} {name : Bytes} (h : unlink env parent name (w, p) = (r, w', p'))
    (hr : r ≠ .panic) : (w', p') = (w, p) ∨ ∃ name' q, String.fromUTF8? ⟨name.toArray⟩ = some name' ∧
      Pool.unlink env parent name' (w, p) = (q, w', p') ∧ q ≠ .panic := by
  rcases Action.bind_cases h with ⟨name', s, hname, h⟩ | ⟨e, hname, rfl⟩ | ⟨-, rfl⟩
  · obtain ⟨hname', rfl⟩ := nameStr_eq_ok hname
    rcases Action.returns_cases h hr with ⟨u, hx, -⟩ | ⟨e, hx, -⟩
    · exact Or.inr ⟨name', _, hname', Action.mapErr_eq_ok.mp hx, by simp⟩
    · obtain ⟨e', hx, -⟩ := Action.mapErr_eq_err.mp hx
      exact Or.inr ⟨name', _, hname', hx, by simp⟩
  · exact Or.inl (Action.state_of_reads hname)
  · exact absurd rfl hr

theorem unlink_performs {parent : InodeId} {name : Bytes} (h : unlink env parent name (w, p) = (r, w', p'))
    (hr : r ≠ .panic) : Performs env w p (.unlink parent name) r w' p' := by
  rcases unlink_cases h hr with hs | ⟨name', q, -, hunlink, hq⟩
  · obtain ⟨rfl, rfl⟩ := Prod.mk.inj hs
    exact .idle (fun hw => hw.elim)
  · cases q with
    | ok u =>
        have hstep : Pool.step env (.unlink parent name') (w, p) = (.ok .unit, w', p') := Action.bind_of_ok hunlink
        exact .call .unlink hstep (by simp) (fun hw => hw.elim)
    | err e =>
        have hstep : Pool.step env (.unlink parent name') (w, p) = (.err e, w', p') := Action.bind_of_err hunlink
        exact .call .unlink hstep (by simp) (fun hw => hw.elim)
    | panic => exact absurd rfl hq

/-- **What a request does to the pool**, for every request that is answered. -/
theorem handle_performs (h : handle env req (w, p) = (r, w', p')) (hr : r ≠ .panic) :
    Performs env w p req r w' p' := by
  cases req with
  | lookup parent name => exact performs_of_keeps (keeps_of_reads trivial) (fun hw => hw) h
  | getattr ino => exact performs_of_keeps (keeps_of_reads trivial) (fun hw => hw) h
  | setattr ino size => exact performs_of_keeps (keeps_of_reads trivial) (fun hw => hw) h
  | create parent name mode uid gid now => exact create_performs h hr
  | unlink parent name => exact unlink_performs h hr
  | read ino offset size => exact performs_of_keeps (keeps_of_reads trivial) (fun hw => hw) h
  | write ino offset data => exact write_performs h hr
  | readdir ino offset room => exact performs_of_keeps (keeps_of_reads trivial) (fun hw => hw) h
  | ioctl ino cmd inData => exact ioctl_performs h hr

/-! ## Sessions -/

/-- The request gives no file a policy without slots. -/
def Request.Slotted : Request → Prop
  | .ioctl _ cmd inData => cmd = tartineIocSetRedundancy → decodeSetRedundancy inData ≠ some (.replicated [])
  | _                   => True

/-- A mounted pool on healthy disks, from its format on, and the requests it has answered, with their replies. A panic
    poisons the mutex: no request is answered after it. -/
inductive Session (n : Nat) : World → Pool → List (Request × Res Errno Reply) → Prop where
  | mount {w₀ w p classes now} (ord : IterOrder)
      (h : formatWithClasses (Env.healthy ord) w₀ n classes now = (.ok (), w, some p)) : Session n w p []
  | serve {w p trace r w' p'} (ord : IterOrder) (req : Request) (hs : Session n w p trace)
      (h : handle (Env.healthy ord) req (w, p) = (r, w', p')) (hr : r ≠ .panic) :
      Session n w' p' (trace ++ [(req, r)])

variable {n : Nat} {trace : List (Request × Res Errno Reply)} {ord : IterOrder}

/-- The schemes a request sets can be placed. -/
theorem Calls.schemeOk {op : PoolOp} (h : Calls p req op) (hslot : req.Slotted) : SchemeOk op := by
  cases h with
  | create =>
      show 1 ≤ (List.replicate _ _).length ∧ (List.replicate _ _).length ≤ 16
      rw [List.length_replicate]
      omega
  | unlink => trivial
  | append hget hmode hend => trivial
  | overwrite hget hmode => trivial
  | begin => trivial
  | @policy ino inData slots hdecode =>
      refine ⟨?_, decodeSetRedundancy_slots hdecode⟩
      cases slots with
      | nil => exact absurd hdecode (hslot rfl)
      | cons slot slots => exact Nat.le_add_left _ _

/-- **What the pool's calls keep, a request keeps.** -/
theorem Performs.rule {I : World → Pool → Prop} (h : Performs env w p req r w' p') (hI : I w p)
    (hstep : ∀ w p op res w' p', Pool.step env op (w, p) = (res, w', p') → res ≠ .panic → I w p → I w' p') :
    I w' p' := by
  cases h with
  | idle hr => exact hI
  | call hcall h hres hr => exact hstep _ _ _ _ _ _ h hres hI
  | convert hbegin hcomplete hres =>
      exact hstep _ _ _ _ _ _ hcomplete hres (hstep _ _ _ _ _ _ hbegin (by simp) hI)

/-- The log where a request leaves it. -/
theorem Performs.log (h : Performs env w p req r w' p') (hwf : MetaWf p.metaStore) :
    MetaWf p'.metaStore ∧ p.metaStore.walCursor ≤ p'.metaStore.walCursor := by
  refine h.rule (I := fun _ q => MetaWf q.metaStore ∧ p.metaStore.walCursor ≤ q.metaStore.walCursor)
    ⟨hwf, Nat.le_refl _⟩ ?_
  rintro w p op res w' p' h hres ⟨hwf, hle⟩
  exact ⟨hwf.call h hres, Nat.le_trans hle (cursor_le_step hwf h hres)⟩

theorem Session.wf (hs : Session n w p trace) : MetaWf p.metaStore := by
  induction hs with
  | mount ord h => exact metaWf_format h
  | serve ord req hs h hr ih => exact ((handle_performs h hr).log ih).1

/-- One more call of a session. -/
theorem session_call {events : List Event} {op : PoolOp} {res : Res PoolError PoolVal} (hrun : Run n w p events)
    (hsession : ∀ e ∈ events, e.InSession) (hfits : LogFits events)
    (h : Pool.step (Env.healthy ord) op (w, p) = (res, w', p')) (hres : res ≠ .panic)
    (hlog : p'.metaStore.walCursor ≤ Wal.walCapacityBytes) :
    ∃ events', Run n w' p' events' ∧ (∀ e ∈ events', e.InSession) ∧ LogFits events' := by
  refine ⟨_, hrun.call _ _ h hres, ?_, hfits.call hrun.wf.1 h hres hlog⟩
  exact List.forall_mem_append.mpr ⟨hsession, List.forall_mem_singleton.mpr rfl⟩

/-- **A session is a run of the pool**, whose frames fit if the log ends within its region. -/
theorem Session.run (hs : Session n w p trace) (hlog : p.metaStore.walCursor ≤ Wal.walCapacityBytes) :
    ∃ events, Run n w p events ∧ (∀ e ∈ events, e.InSession) ∧ LogFits events := by
  induction hs with
  | @mount w₀ w p classes now ord h =>
      refine ⟨_, .format _ h, List.forall_mem_singleton.mpr rfl, ?_⟩
      obtain ⟨hn, -, s, happly, rfl, -⟩ := format_eq_ok h
      intro c hc
      rw [allMetaCalls, List.flatMap_singleton, Event.metaCalls, formatCalls, openStore_createDisks w₀ hn] at hc
      obtain rfl := List.mem_singleton.mp hc
      have hlogged := MetaStore.logged_of_healthy (metaWf_open (openStore_createDisks w₀ hn)).2 happly (by simp)
      exact Nat.le_trans (Nat.le_of_eq hlogged.cursor_eq.symm) hlog
  | @serve w p trace r w' p' ord req hs h hr ih =>
      have hperforms := handle_performs h hr
      have hwf := hs.wf
      obtain ⟨events, hrun, hsession, hfits⟩ := ih (Nat.le_trans (hperforms.log hwf).2 hlog)
      cases hperforms with
      | idle hidle => exact ⟨events, hrun, hsession, hfits⟩
      | call hcall h hres hiff => exact session_call hrun hsession hfits h hres hlog
      | convert hbegin hcomplete hres =>
          have hle := cursor_le_step (hwf.call hbegin (by simp)) hcomplete hres
          obtain ⟨events₁, hrun₁, hsession₁, hfits₁⟩ :=
            session_call hrun hsession hfits hbegin (by simp) (Nat.le_trans hle hlog)
          exact session_call hrun₁ hsession₁ hfits₁ hcomplete hres hlog

end Tartine.Fuse
