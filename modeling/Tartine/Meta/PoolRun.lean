import Tartine.Meta.PoolStep

/-!
# `Meta.PoolRun` — runs of pool operations, and the bound the log's writer lacks

Every call of `MetaStore::apply` in a run is where the metadata log may run into file data, because `apply` writes its
frame at the cursor without asking whether it fits the region that recovery reads (`wal::scan` asks, and so does
`SegmentWriter::append`).

* `log_stays_clear` — in a run whose frames all fit, no call touches file data and every accepted one can be read back;
* `log_overruns` — a run of unlinks that fills the log is accepted all the same, and overwrites file data.
-/

namespace Tartine

open Basis Codec

namespace Pool

variable {env : Env}

/-! ## The log's place on disk -/

/-- The log starts at offset zero, and the two metadata disks are different. -/
def MetaWf (s : MetaStore) : Prop :=
  s.walBaseOffset = 0 ∧ s.replicator.backupDisk ≠ some s.replicator.primaryDisk

theorem metaWf_open {w : World} {n : Nat} {s : MetaStore}
    (h : MetaStore.openStore w (groupOf n) 0 (backupOf n) = .ok s) : MetaWf s := by
  obtain ⟨v, -, hs⟩ := Res.bind_eq_ok.mp h
  obtain rfl := Res.ok.inj hs
  refine ⟨rfl, ?_⟩
  show backupOf n ≠ some 0
  unfold backupOf
  split <;> simp

theorem MetaWf.apply {w w' : World} {s s' : MetaStore} {op : MetaOp} {res : Res MetaStoreError Unit} (hwf : MetaWf s)
    (h : s.apply env w op = (res, w', s')) : MetaWf s' := by
  obtain ⟨hbase, -, hne⟩ := MetaStore.apply_layout hwf.2 h
  exact ⟨hbase.trans hwf.1, hne⟩

theorem MetaWf.alloc {s s' : MetaStore} {id : InodeId} (hwf : MetaWf s) (h : s.allocInode = .ok (id, s')) :
    MetaWf s' := by
  obtain ⟨next, -, hs⟩ := Res.bind_eq_ok.mp h
  obtain ⟨-, rfl⟩ := Prod.mk.inj (Res.ok.inj hs)
  exact hwf

theorem MetaWf.step {s : MetaStore} (hwf : MetaWf s) (env : Env) (w : World) (op : MetaOp) :
    MetaWf (s.apply env w op).2.2 := by
  generalize h : s.apply env w op = out
  obtain ⟨res, w', s'⟩ := out
  exact hwf.apply h

/-- Every call an operation makes finds the log in its place. -/
theorem Hands.wf {w w₁ : World} {p p₁ : Pool} {op : PoolOp} {mop : MetaOp} (h : Hands env w p op mop w₁ p₁)
    (hwf : MetaWf p.metaStore) : MetaWf p₁.metaStore := by
  refine h.rule (I := fun _ q => MetaWf q.metaStore) hwf ?_ (fun _ _ halloc => hwf.alloc halloc)
    (fun _ _ _ _ _ _ hwf₁ happly => hwf₁.apply happly)
  intro x hop
  rw [show (x (w, p)).2.2.metaStore = p.metaStore from sameStore_dataPhase hop (w, p)]
  exact hwf

theorem metaCalls_wf {w : World} {p : Pool} (hwf : MetaWf p.metaStore) (op : PoolOp) :
    ∀ c ∈ p.metaCalls env w op, MetaWf c.store := by
  intro c hc
  obtain ⟨mop, w₁, p₁, rfl, hhands⟩ := exists_hands hc
  exact hhands.wf hwf

/-- Every operation leaves the log in its place. -/
theorem MetaWf.call {w w' : World} {p p' : Pool} {op : PoolOp} {res : Res PoolError PoolVal} (hwf : MetaWf p.metaStore)
    (h : Pool.step env op (w, p) = (res, w', p')) (hres : res ≠ .panic) : MetaWf p'.metaStore := by
  refine step_rule (I := fun _ q => MetaWf q.metaStore) hwf ?_ (fun _ _ halloc => hwf.alloc halloc)
    (fun _ _ _ _ _ _ _ hwf₁ happly _ => hwf₁.apply happly) h hres
  intro x hop
  rw [show (x (w, p)).2.2.metaStore = p.metaStore from sameStore_dataPhase hop (w, p)]
  exact hwf

/-! ## Runs -/

/-- The call `format` makes: the root directory, on freshly created disks. -/
def formatCalls (env : Env) (w : World) (n : Nat) (now : UInt64) : List MetaCall :=
  match MetaStore.openStore (createDisks w n) (groupOf n) 0 (backupOf n) with
  | .ok s => [⟨env, createDisks w n, s, .createInode (rootRecord n now)⟩]
  | _     => []

/-- What happens to a pool: each event with the state it found, and, for an operation, what it returned. -/
inductive Event where
  | format (env : Env) (world : World) (n : Nat) (now : UInt64)
  | call (env : Env) (world : World) (pool : Pool) (op : PoolOp) (res : Res PoolError PoolVal)
  | reopen (n : Nat)

/-- The calls of `MetaStore::apply` that an event makes. -/
def Event.metaCalls : Event → List MetaCall
  | .format env w n now   => formatCalls env w n now
  | .call env w p op _    => p.metaCalls env w op
  | .reopen _             => []

/-- An event of one session on disks that do not fail: no reopen, no fault. -/
def Event.InSession : Event → Prop
  | .format env ..    => env.io = healthy
  | .call env ..      => env.io = healthy
  | .reopen _         => False

/-- An event on disks that do not fail. -/
def Event.Healthy : Event → Prop
  | .format env ..    => env.io = healthy
  | .call env ..      => env.io = healthy
  | .reopen _         => True

theorem Event.InSession.healthy {e : Event} (h : e.InSession) : e.Healthy := by
  cases e with
  | format env w n now => exact h
  | call env w p op res => exact h
  | reopen n => trivial

/-- Runs of a pool that was formatted on `n` disks: any operations, with any failures, and any reopens in between, each of
    the first so many disks as `opens` allows. A panic ends the process. -/
inductive RunWith (opens : Nat → Prop) (n : Nat) : World → Pool → List Event → Prop where
  | format {w₀ w p classes now} (env : Env) (h : formatWithClasses env w₀ n classes now = (.ok (), w, some p)) :
      RunWith opens n w p [.format env w₀ n now]
  | call {w p events res w' p'} (env : Env) (op : PoolOp) (hrun : RunWith opens n w p events)
      (h : step env op (w, p) = (res, w', p')) (hres : res ≠ .panic) :
      RunWith opens n w' p' (events ++ [.call env w p op res])
  | reopen {m w p events classes p'} (hrun : RunWith opens n w p events) (h : openWithClasses w m classes = .ok p')
      (hm : opens m) : RunWith opens n w p' (events ++ [.reopen m])

/-- Each reopen takes all the disks of the pool. -/
abbrev Run (n : Nat) : World → Pool → List Event → Prop := RunWith (· = n) n

/-- A reopen may leave out disks at the end of the list, or name more of them. -/
abbrev AnyRun (n : Nat) : World → Pool → List Event → Prop := RunWith (fun _ => True) n

theorem RunWith.any {opens : Nat → Prop} {n : Nat} {w : World} {p : Pool} {events : List Event}
    (hrun : RunWith opens n w p events) : AnyRun n w p events := by
  induction hrun with
  | format env h => exact .format env h
  | call env op hrun h hres ih => exact ih.call env op h hres
  | reopen hrun h hm ih => exact ih.reopen h trivial

/-- Every call of `MetaStore::apply` in a run. -/
def allMetaCalls (events : List Event) : List MetaCall := events.flatMap Event.metaCalls

/-- The metadata log stays within its region: every frame of the run ends inside it. -/
def LogFits (events : List Event) : Prop := ∀ c ∈ allMetaCalls events, c.Fits

theorem allMetaCalls_snoc (events : List Event) (e : Event) :
    allMetaCalls (events ++ [e]) = allMetaCalls events ++ e.metaCalls := by
  simp [allMetaCalls]

instance (events : List Event) : Decidable (LogFits events) := inferInstanceAs (Decidable (∀ c ∈ _, _))

/-- What holds of every call of a run and one more event, holds of both. -/
theorem forall_metaCalls_snoc {P : MetaCall → Prop} {events : List Event} {e : Event}
    (h : ∀ c ∈ allMetaCalls (events ++ [e]), P c) : (∀ c ∈ allMetaCalls events, P c) ∧ ∀ c ∈ e.metaCalls, P c := by
  rw [allMetaCalls_snoc] at h
  exact ⟨fun c hc => h c (List.mem_append_left _ hc), fun c hc => h c (List.mem_append_right _ hc)⟩

theorem LogFits.snoc {events : List Event} {e : Event} (h : LogFits (events ++ [e])) :
    LogFits events ∧ ∀ c ∈ e.metaCalls, c.Fits := forall_metaCalls_snoc h

/-- A list of operations played out in one environment, with its events. -/
def play (env : Env) : List PoolOp → World × Pool → List Event × World × Pool
  | [],        s => ([], s)
  | op :: ops, s =>
      let out := step env op s
      let rest := play env ops out.2
      (.call env s.1 s.2 op out.1 :: rest.1, rest.2)

/-- The process survived the event. -/
def Event.survived : Event → Bool
  | .call _ _ _ _ .panic => false
  | _                    => true

/-- What is played out without a panic is a run. -/
theorem RunWith.play {opens : Nat → Prop} {n : Nat} {env : Env} {ops : List PoolOp} {s : World × Pool} {events : List Event}
    {out : List Event × World × Pool} (hrun : RunWith opens n s.1 s.2 events) (hout : Pool.play env ops s = out)
    (hok : out.1.all Event.survived = true) : RunWith opens n out.2.1 out.2.2 (events ++ out.1) := by
  subst hout
  induction ops generalizing s events with
  | nil => simpa [Pool.play] using hrun
  | cons op ops ih =>
      simp only [Pool.play, List.all_cons, Bool.and_eq_true] at hok
      have hres : (step env op s).1 ≠ .panic := by
        intro h
        rw [h] at hok
        exact absurd hok.1 (by simp [Event.survived])
      have hrest := ih (hrun.call env op rfl hres) hok.2
      rw [List.append_assoc, List.singleton_append] at hrest
      exact hrest

/-- A run goes on after a reopen. -/
theorem RunWith.resume {opens : Nat → Prop} {m n : Nat} {env : Env} {ops : List PoolOp} {w : World} {p p' : Pool}
    {classes : List DiskClass} {events : List Event} {out : List Event × World × Pool} (hrun : RunWith opens n w p events)
    (hopen : openWithClasses w m classes = .ok p') (hm : opens m) (hout : Pool.play env ops (w, p') = out)
    (hok : out.1.all Event.survived = true) :
    RunWith opens n out.2.1 out.2.2 (events ++ [.reopen m] ++ out.1) :=
  RunWith.play (s := (w, p')) (hrun.reopen hopen hm) hout hok

/-- A pool formatted and used on healthy disks is one session. -/
theorem play_inSession (ord : IterOrder) (w₀ : World) (n : Nat) (now : UInt64) (ops : List PoolOp) (s : World × Pool) :
    ∀ e ∈ [Event.format (Env.healthy ord) w₀ n now] ++ (play (Env.healthy ord) ops s).1, e.InSession := by
  have hplay : ∀ e ∈ (play (Env.healthy ord) ops s).1, e.InSession := by
    induction ops generalizing s with
    | nil => simp [play]
    | cons op ops ih =>
        intro e he
        rcases List.mem_cons.mp he with rfl | hrest
        · exact rfl
        · exact ih _ e hrest
  intro e he
  rcases List.mem_cons.mp he with rfl | hrest
  · exact rfl
  · exact hplay e hrest

/-- What a successful format has done. -/
theorem formatWithClasses_eq_ok {w₀ w : World} {n : Nat} {classes : List DiskClass} {now : UInt64} {p : Pool}
    (h : formatWithClasses env w₀ n classes now = (.ok (), w, some p)) :
    n ≠ 0 ∧ classes.length = n ∧ ∃ s, MetaStore.openStore (createDisks w₀ n) (groupOf n) 0 (backupOf n) = .ok s ∧
      applyMeta env (.createInode (rootRecord n now))
        (createDisks w₀ n, ⟨poolMapOf classes, handlesOf n (fun _ => 0), s⟩) = (.ok (), w, p) := by
  unfold formatWithClasses at h
  split at h
  · cases h
  · rename_i hn
    split at h
    · cases h
    · rename_i hlen
      dsimp only at h
      split at h
      · cases h
      · cases h
      · rename_i s hopen
        refine ⟨hn, (not_not.mp hlen).symm, s, hopen, ?_⟩
        split at h
        · rename_i w' p' happly
          obtain ⟨-, rfl, hp⟩ : (Res.ok () : Res PoolError Unit) = .ok () ∧ w' = w ∧ some p' = some p := by
            simpa using h
          rw [happly, Option.some.inj hp]
        · cases h
        · cases h

/-- What a successful reopen has built. -/
theorem openWithClasses_eq_ok {w : World} {n : Nat} {classes : List DiskClass} {p' : Pool}
    (h : openWithClasses w n classes = .ok p') : n ≠ 0 ∧ classes.length = n ∧ ∃ s,
      MetaStore.openStore w (groupOf n) 0 (backupOf n) = .ok s ∧
      p' = ⟨poolMapOf classes, handlesOf n (fun i => (Segment.scan (w.disk i) segmentBaseOffset).resumeAt), s⟩ := by
  unfold openWithClasses at h
  split at h
  · cases h
  · rename_i hn
    split at h
    · cases h
    · rename_i hlen
      obtain ⟨s, hopen, hp⟩ := Res.bind_eq_ok.mp h
      obtain rfl := Res.ok.inj hp
      exact ⟨hn, (not_not.mp hlen).symm, s, Res.mapErr_eq_ok.mp hopen, rfl⟩

/-- A reopen succeeds as soon as the metadata store does. -/
theorem openWithClasses_of_openStore {w : World} {classes : List DiskClass} {s : MetaStore} (hn : classes.length ≠ 0)
    (h : MetaStore.openStore w (groupOf classes.length) 0 (backupOf classes.length) = .ok s) :
    openWithClasses w classes.length classes = .ok ⟨poolMapOf classes,
      handlesOf classes.length (fun i => (Segment.scan (w.disk i) segmentBaseOffset).resumeAt), s⟩ := by
  unfold openWithClasses
  rw [if_neg hn, if_neg (by simp), h]
  rfl

/-- **Run lemma.** The log never moves, and every call of a run found it in its place. -/
theorem RunWith.wf {opens : Nat → Prop} {n : Nat} {w : World} {p : Pool} {events : List Event}
    (hrun : RunWith opens n w p events) :
    MetaWf p.metaStore ∧ ∀ c ∈ allMetaCalls events, MetaWf c.store := by
  induction hrun with
  | format env h =>
      obtain ⟨-, -, s, hopen, happly⟩ := formatWithClasses_eq_ok h
      have hwf := metaWf_open hopen
      constructor
      · have hstore := congrArg (fun x => x.2.2.metaStore) happly
        rw [← show _ = _ from hstore]
        exact hwf.step env _ _
      · intro c hc
        rw [allMetaCalls, List.flatMap_singleton, Event.metaCalls, formatCalls, hopen] at hc
        obtain rfl := List.mem_singleton.mp hc
        exact hwf
  | @call w p _ _ _ _ env op hrun h hres ih =>
      refine ⟨?_, ?_⟩
      · exact ih.1.call h hres
      · intro c hc
        rw [allMetaCalls_snoc] at hc
        rcases List.mem_append.mp hc with hold | hnew
        · exact ih.2 c hold
        · exact metaCalls_wf ih.1 op c hnew
  | reopen hrun h hm ih =>
      refine ⟨?_, by rw [allMetaCalls_snoc]; simpa [Event.metaCalls] using ih.2⟩
      obtain ⟨-, -, s, hopen, rfl⟩ := openWithClasses_eq_ok h
      exact metaWf_open hopen

theorem metaWf_format {w₀ w : World} {n : Nat} {classes : List DiskClass} {now : UInt64} {p : Pool}
    (h : formatWithClasses env w₀ n classes now = (.ok (), w, some p)) : MetaWf p.metaStore :=
  (RunWith.format env h : Run n w p _).wf.1

/-! ## A formatted pool -/

/-- The metadata store over freshly created disks. -/
def freshStore (n : Nat) : MetaStore := ⟨⟨groupOf n, 0, backupOf n⟩, 0, 0, View.empty⟩

theorem openStore_createDisks (w : World) {n : Nat} (hn : n ≠ 0) :
    MetaStore.openStore (createDisks w n) (groupOf n) 0 (backupOf n) = .ok (freshStore n) := by
  have hzero : ∀ i, ((createDisks w n).disk 0).bytes i = 0 := by
    intro i
    show (if 0 < n then FileDisk.create diskFileCapacityBytes else w.disk 0).bytes i = 0
    rw [if_pos (Nat.pos_of_ne_zero hn)]
    rfl
  exact MetaStore.openStore_of_carries (groupOf n) (backupOf n) (Wal.carries_nil hzero) rfl

/-- What a successful format has done: one metadata operation on fresh disks. -/
theorem format_eq_ok {w₀ w : World} {n : Nat} {classes : List DiskClass} {now : UInt64} {p : Pool}
    (h : formatWithClasses env w₀ n classes now = (.ok (), w, some p)) :
    n ≠ 0 ∧ classes.length = n ∧ ∃ s,
      (freshStore n).apply env (createDisks w₀ n) (.createInode (rootRecord n now)) = (.ok (), w, s) ∧
      p = ⟨poolMapOf classes, handlesOf n (fun _ => 0), s⟩ ∧
      ⟨env, createDisks w₀ n, freshStore n, .createInode (rootRecord n now)⟩ ∈
        (Event.format env w₀ n now).metaCalls := by
  obtain ⟨hn, hlen, s₀, hopen, hmeta⟩ := formatWithClasses_eq_ok h
  rw [openStore_createDisks w₀ hn] at hopen
  obtain rfl := Res.ok.inj hopen
  obtain ⟨s, happly, rfl⟩ := applyMeta_eq_ok hmeta
  refine ⟨hn, hlen, s, happly, rfl, ?_⟩
  rw [Event.metaCalls, formatCalls, openStore_createDisks w₀ hn]
  exact List.mem_singleton.mpr rfl

/-- On healthy disks `format` succeeds. -/
theorem format_healthy (ord : IterOrder) (w₀ : World) (classes : List DiskClass) (now : UInt64)
    (hn : classes.length ≠ 0) : ∃ w s,
      (freshStore classes.length).apply (Env.healthy ord) (createDisks w₀ classes.length)
        (.createInode (rootRecord classes.length now)) = (.ok (), w, s) ∧
      formatWithClasses (Env.healthy ord) w₀ classes.length classes now =
        (.ok (), w, some ⟨poolMapOf classes, handlesOf classes.length (fun _ => 0), s⟩) := by
  have hview : (freshStore classes.length).view.applyLocally (.createInode (rootRecord classes.length now)) =
      .ok { View.empty.writeInode (rootRecord classes.length now) with nextInode := 2 } := rfl
  obtain ⟨w, s, happly⟩ := MetaStore.apply_healthy_of_applyLocally ord (createDisks w₀ classes.length) hview
  refine ⟨w, s, happly, ?_⟩
  unfold formatWithClasses
  dsimp only
  rw [if_neg hn, if_neg (by simp), openStore_createDisks w₀ hn]
  simp only [applyMeta, happly, liftMeta, Res.mapErr]

/-- A call whose frame fits touches no file data. -/
theorem MetaCall.safe_of_fits {c : MetaCall} (hwf : MetaWf c.store) (hfit : c.Fits) : c.Safe := by
  refine ⟨?_, fun _ => hfit, fun h => absurd hfit h⟩
  intro r i hi
  have hbase := walCapacity_le_segmentBase
  have hend : c.store.walCursor + (MetaStore.opFrame c.env.ord c.op).length ≤ Wal.walCapacityBytes := hfit
  generalize happly : c.store.apply c.env c.world c.op = out
  obtain ⟨res, w', s'⟩ := out
  rcases MetaStore.apply_disk hwf.2 happly r with hsame | ⟨buf, hlen, hw⟩
  · rw [hsame]
  · rw [hw, hwf.1, FileDisk.writeAt_bytes, patch_of_not_mem (by omega)]

/-- **The metadata log stays clear of file data** in every run whose frames all fit the log's region. -/
theorem log_stays_clear {n : Nat} {w : World} {p : Pool} {events : List Event} (hrun : AnyRun n w p events)
    (hfits : LogFits events) : ∀ c ∈ allMetaCalls events, c.Safe := by
  intro c hc
  exact MetaCall.safe_of_fits (hrun.wf.2 c hc) (hfits c hc)

/-- A session: a file is created, appended to, converted and overwritten from offset 2 on. -/
def sampleOps : List PoolOp :=
  [.createFile rootInode "a" (.replicated [.anyOfClass none]) 0 0 0o100644 0, .append 2 [1, 2, 3], .beginConvert 2,
    .completeConvert 2, .write 2 2 [9, 9]]

/-- A pool of one disk that was just formatted. -/
def onDisk : World × Pool :=
  let out := formatWithClasses (Env.healthy MetaStore.listOrder) (World.blank 0) 1 [.hdd] 0
  (out.2.1, out.2.2.getD ⟨poolMapOf [], ∅, freshStore 1⟩)

theorem run_onDisk : Run 1 onDisk.1 onDisk.2 [.format (Env.healthy MetaStore.listOrder) (World.blank 0) 1 0] := by
  have h : formatWithClasses (Env.healthy MetaStore.listOrder) (World.blank 0) 1 [.hdd] 0 =
      (.ok (), onDisk.1, some onDisk.2) := rfl
  exact .format _ h

/-- The events of a session, from the format on. -/
def eventsOf (session : List Event × World × Pool) : List Event :=
  [.format (Env.healthy MetaStore.listOrder) (World.blank 0) 1 0] ++ session.1

theorem run_session {ops : List PoolOp} {session : List Event × World × Pool}
    (hplay : play (Env.healthy MetaStore.listOrder) ops onDisk = session)
    (hok : session.1.all Event.survived = true) :
    Run 1 session.2.1 session.2.2 (eventsOf session) ∧ ∀ e ∈ eventsOf session, e.InSession := by
  refine ⟨run_onDisk.play hplay hok, ?_⟩
  subst hplay
  exact play_inSession MetaStore.listOrder (World.blank 0) 1 0 ops onDisk

/-- A file is created and appended to. -/
def appendSession : List Event × World × Pool :=
  play (Env.healthy MetaStore.listOrder) (sampleOps.take 2) onDisk

theorem run_appendSession : Run 1 appendSession.2.1 appendSession.2.2 (eventsOf appendSession) ∧
    ∀ e ∈ eventsOf appendSession, e.InSession := by
  have hplay : play (Env.healthy MetaStore.listOrder) (sampleOps.take 2) onDisk = appendSession := rfl
  exact run_session hplay (by decide +kernel)

/-- The session played out. -/
def sampleSession : List Event × World × Pool := play (Env.healthy MetaStore.listOrder) sampleOps onDisk

/-- Its events, from the format on. -/
def sampleEvents : List Event := [.format (Env.healthy MetaStore.listOrder) (World.blank 0) 1 0] ++ sampleSession.1

theorem run_sample : Run 1 sampleSession.2.1 sampleSession.2.2 sampleEvents := by
  have hplay : play (Env.healthy MetaStore.listOrder) sampleOps onDisk = sampleSession := rfl
  exact run_onDisk.play hplay (by decide +kernel)

/-- The theorem at that session. -/
theorem log_stays_clear_sample : Run 1 sampleSession.2.1 sampleSession.2.2 sampleEvents ∧
    (allMetaCalls sampleEvents).length = 7 ∧ LogFits sampleEvents ∧ ∀ c ∈ allMetaCalls sampleEvents, c.Safe :=
  have hfits : LogFits sampleEvents := by decide +kernel
  ⟨run_sample, by decide +kernel, hfits, log_stays_clear run_sample.any hfits⟩

/-! ## The run that overruns the log -/

/-- The operation repeated. It removes nothing and is accepted all the same. -/
def idleUnlink : MetaOp := .unlink rootInode "a"

theorem length_idleUnlink : (MetaStore.opFrame MetaStore.listOrder idleUnlink).length = 26 := by decide +kernel

/-- A pool of one disk with its log up to `cursor`, and nothing after it. -/
structure BlankFrom (w : World) (p : Pool) (cursor : Nat) : Prop where
  wf : MetaWf p.metaStore
  primaryDisk_eq : p.metaStore.replicator.primaryDisk = 0
  cursor_eq : p.metaStore.walCursor = cursor
  blank : ∀ i, cursor ≤ i → (w.disk 0).bytes i = 0

/-- An accepted operation moves the end of the log, and nothing past it. -/
theorem BlankFrom.apply {w w' : World} {p : Pool} {s : MetaStore} {cursor : Nat} {op : MetaOp}
    (hb : BlankFrom w p cursor) (h : p.metaStore.apply env w op = (.ok (), w', s)) :
    BlankFrom w' { p with metaStore := s } (cursor + (MetaStore.opFrame env.ord op).length) ∧
      Holds (w'.disk 0).bytes cursor (MetaStore.opFrame env.ord op) := by
  obtain ⟨hlog, -⟩ := MetaStore.apply_eq_ok hb.wf.2 h
  have hdisk := hlog.disk_eq
  rw [hb.primaryDisk_eq, hb.wf.1, hb.cursor_eq, Nat.zero_add] at hdisk
  refine ⟨⟨hb.wf.apply h, hlog.primaryDisk_eq.trans hb.primaryDisk_eq, ?_, ?_⟩, ?_⟩
  · show s.walCursor = _
    rw [hlog.cursor_eq, hb.cursor_eq]
  · intro i hi
    rw [hdisk, FileDisk.writeAt_bytes, patch_of_not_mem (Or.inr hi)]
    exact hb.blank i (by omega)
  · rw [hdisk]
    exact holds_patch_self _ _ _

/-- On healthy disks an unlink is accepted, whatever it names. -/
theorem unlink_healthy (ord : IterOrder) (w : World) (p : Pool) (parent : InodeId) (name : String) :
    ∃ w' s, p.metaStore.apply (Env.healthy ord) w (.unlink parent name) = (.ok (), w', s) ∧
      step (Env.healthy ord) (.unlink parent name) (w, p) = (.ok .unit, w', { p with metaStore := s }) := by
  have hview : p.metaStore.view.applyLocally (.unlink parent name) =
      .ok { p.metaStore.view with dirs := p.metaStore.view.dirs.erase (View.dirKey parent name) } := rfl
  obtain ⟨w', s, happly⟩ := MetaStore.apply_healthy_of_applyLocally ord w hview
  refine ⟨w', s, happly, ?_⟩
  refine Action.bind_eq_ok.mpr ⟨(), (w', { p with metaStore := s }), ?_, rfl⟩
  show applyMeta (Env.healthy ord) (.unlink parent name) (w, p) = _
  simp only [applyMeta, happly, liftMeta, Res.mapErr]

/-- One more unlink, on healthy disks. -/
theorem BlankFrom.unlink {w : World} {p : Pool} {cursor : Nat} (hb : BlankFrom w p cursor) :
    ∃ w' s, p.metaStore.apply (Env.healthy MetaStore.listOrder) w idleUnlink = (.ok (), w', s) ∧
      step (Env.healthy MetaStore.listOrder) (.unlink rootInode "a") (w, p) =
        (.ok .unit, w', { p with metaStore := s }) ∧
      BlankFrom w' { p with metaStore := s } (cursor + 26) ∧
      Holds (w'.disk 0).bytes cursor (MetaStore.opFrame MetaStore.listOrder idleUnlink) := by
  obtain ⟨w', s, happly, hstep⟩ := unlink_healthy MetaStore.listOrder w p rootInode "a"
  obtain ⟨hblank, hold⟩ := hb.apply happly
  have hlen : (MetaStore.opFrame (Env.healthy MetaStore.listOrder).ord idleUnlink).length = 26 := length_idleUnlink
  rw [show MetaOp.unlink rootInode "a" = idleUnlink from rfl, hlen] at hblank
  exact ⟨w', s, happly, hstep, hblank, hold⟩

/-- The operations of a run that formats a disk and then unlinks `k` times. -/
def idleOps (k : Nat) : List MetaOp := .createInode (rootRecord 1 0) :: List.replicate k idleUnlink

theorem idleOps_succ (k : Nat) : idleOps (k + 1) = idleOps k ++ [idleUnlink] := by
  rw [idleOps, idleOps, List.replicate_succ', List.cons_append]

/-- **Run lemma.** Any number of unlinks is accepted, each 26 bytes further on. -/
theorem unlinks_run (k : Nat) : ∃ w p events cursor, Run 1 w p events ∧
    (allMetaCalls events).map MetaCall.op = idleOps k ∧ 26 * k ≤ cursor ∧ BlankFrom w p cursor := by
  induction k with
  | zero =>
      obtain ⟨w, s, happly, hformat⟩ := format_healthy MetaStore.listOrder (World.blank 0) [.hdd] 0 (by decide)
      have hfresh : BlankFrom (createDisks (World.blank 0) 1)
          ⟨poolMapOf [.hdd], handlesOf 1 (fun _ => 0), freshStore 1⟩ 0 :=
        ⟨⟨rfl, by decide⟩, rfl, rfl, fun i _ => rfl⟩
      refine ⟨_, _, _, _, RunWith.format _ hformat, ?_, Nat.zero_le _, (hfresh.apply happly).1⟩
      show (allMetaCalls [.format (Env.healthy MetaStore.listOrder) (World.blank 0) 1 0]).map MetaCall.op = _
      rw [allMetaCalls, List.flatMap_singleton, Event.metaCalls, formatCalls, openStore_createDisks _ (by decide)]
      rfl
  | succ k ih =>
      obtain ⟨w, p, events, cursor, hrun, hops, hle, hblank⟩ := ih
      obtain ⟨w', s, -, hstep, hblank', -⟩ := hblank.unlink
      refine ⟨_, _, _, _, hrun.call _ _ hstep (by simp), ?_, ?_, hblank'⟩
      · rw [allMetaCalls_snoc, List.map_append, hops, idleOps_succ]
        rfl
      · omega

/-- The log's writer has no bound: after `2^22` unlinks one more is accepted although its frame does not fit the
    log's region, and it overwrites the first byte it meets, inside the file data region. -/
theorem log_overruns : ∃ w p events, Run 1 w p events ∧
    (allMetaCalls events).map MetaCall.op = idleOps (2 ^ 22 + 1) ∧ ∃ c ∈ allMetaCalls events,
      (c.store.apply c.env c.world c.op).1 = .ok () ∧ ¬c.Fits ∧ ∃ i, segmentBaseOffset ≤ i ∧
        ((c.store.apply c.env c.world c.op).2.1.disk c.store.replicator.primaryDisk).bytes i ≠
          (c.world.disk c.store.replicator.primaryDisk).bytes i := by
  obtain ⟨w, p, events, cursor, hrun, hops, hle, hblank⟩ := unlinks_run (2 ^ 22)
  obtain ⟨w', s, happly, hstep, -, hold⟩ := hblank.unlink
  have hfar : segmentBaseOffset ≤ 26 * 2 ^ 22 := by decide
  have hcap : Wal.walCapacityBytes ≤ 26 * 2 ^ 22 := by decide
  refine ⟨w', _, _, hrun.call _ _ hstep (by simp), ?_,
    ⟨Env.healthy MetaStore.listOrder, w, p.metaStore, idleUnlink⟩, ?_, ?_, ?_, cursor, by omega, ?_⟩
  · rw [allMetaCalls_snoc, List.map_append, hops, idleOps_succ]
    exact congrArg (idleOps (2 ^ 22) ++ ·) (List.map_singleton)
  · rw [allMetaCalls_snoc]
    exact List.mem_append_right _ (List.mem_singleton.mpr rfl)
  · rw [happly]
  · have hlen := length_idleUnlink
    intro hfit
    have hend : p.metaStore.walCursor + (MetaStore.opFrame MetaStore.listOrder idleUnlink).length ≤
      Wal.walCapacityBytes := hfit
    rw [hblank.cursor_eq] at hend
    omega
  · -- the first byte of the frame's magic replaces a zero
    rw [happly, hblank.primaryDisk_eq, hblank.blank cursor (Nat.le_refl _)]
    have hfirst : (w'.disk 0).bytes cursor = 0x31 := by
      have hslice : slice (w'.disk 0).bytes cursor 26 = MetaStore.opFrame MetaStore.listOrder idleUnlink := by
        have h := hold
        unfold Holds at h
        rwa [length_idleUnlink] at h
      rw [slice_succ] at hslice
      have hhead := congrArg List.head? hslice
      rw [List.head?_cons] at hhead
      exact Option.some.inj (hhead.trans (by decide +kernel))
    rw [hfirst]
    decide

end Pool

end Tartine
