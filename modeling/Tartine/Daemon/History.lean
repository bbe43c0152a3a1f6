import Tartine.Daemon.Host
import Tartine.Meta.PoolRoot

/-!
# `Daemon.History` — starts, calls and stops of `tartined`, and the root they find

`main.rs` decides by the disk files alone: if all of them exist the pool is opened, otherwise it is formatted. A format
creates the files **first** and logs the root directory **last**; one that is stopped in between leaves files that the next
start opens, and the pool it opens has no root, and hands its number out to the first file. Either also replaces the
tables' file, and would replace a disk's that has its path.

A history is a list of `Act`s: starts, calls, calls in which the process is stopped, and stops between calls. `firsts`
remembers the first disk of every pool that was formatted.

* `Kept` — the invariant: the log on each of these starts with the root;
* `Act.kept` — kept by every act that meets `Act.Meets`;
* `history_finds_root` — so every pool opened in such a history has its root, and no file gets the root's number;
* `ownTables_loses_root` — a disk at the path of its tables is not found again.
-/

namespace Tartine.Daemon

open Basis Pool

variable {Path : Type} [DecidableEq Path]

/-! ## `main.rs`: format or open -/

/-- `Pool::open_with_classes` on paths: the disks are opened and scanned before the tables are made anew. -/
def openWithClasses (st : Setting) (host : Host Path) (paths : List Path) (classes : List DiskClass) (redbPath : Path) :
    Res (HostError Path) (Session Path) × Host Path :=
  if paths = [] then (.err (.pool .noDisks), host)
  else if paths.length ≠ classes.length then (.panic, host)
  else
    match paths.find? (fun path => (host path).isNone) with
    | some path => (.err (.notFound path), host)
    | none      =>
        let w := worldOf host paths
        match createTables st.tables host redbPath with
        | (.error e, host) => (.err e, host)
        | (.ok (), host)   =>
            match Pool.openWithClasses w paths.length classes with
            | .ok p  => (.ok ⟨paths, redbPath, w.disk, p⟩, host)
            | .err e => (.err (.pool e), host)
            | .panic => (.panic, host)

/-- `disks.iter().all(|p| p.exists())`. -/
def allExist (host : Host Path) (paths : List Path) : Bool := paths.all fun path => (host path).isSome

/-- How `main` gets its pool. -/
def start (st : Setting) (host : Host Path) (paths : List Path) (classes : List DiskClass) (redbPath : Path)
    (now : UInt64) : Res (HostError Path) (Session Path) × Host Path :=
  if allExist host paths then openWithClasses st host paths classes redbPath
  else formatWithClasses st host paths classes redbPath now

/-! ## Histories -/

/-- The host, the running daemon, and the first disks of all pools formatted so far. -/
structure State (Path : Type) where
  host : Host Path
  live : Option (Session Path)
  firsts : List Path

/-- What happens to a daemon. A stop inside a start is part of its `Setting`; `crash` stops a call before its `k`-th I/O
    call. A start ends the session before it. -/
inductive Act (Path : Type) where
  | start (st : Setting) (paths : List Path) (classes : List DiskClass) (redbPath : Path) (now : UInt64)
  | call (ord : IterOrder) (op : PoolOp)
  | crash (ord : IterOrder) (k : Nat) (op : PoolOp)
  | stop

/-- What can be seen of it: a pool that was opened, and an inode number that was handed out. -/
inductive Seen where
  | opened (p : Pool)
  | created (id : InodeId)

/-- The host after the session's disks were written. -/
def Session.writeBack (session : Session Path) (host : Host Path) (w : World) : Host Path :=
  putBack host session.paths session.redbPath w

namespace Act

/-- The state after it. A start that fails ends the process, and so does a panic. -/
def exec : Act Path → State Path → State Path
  | .start st paths classes redbPath now, s =>
      match Daemon.start st s.host paths classes redbPath now with
      | (.ok session, host) =>
          ⟨host, some session, if allExist s.host paths then s.firsts else paths.head?.toList ++ s.firsts⟩
      | (_, host)           => ⟨host, none, s.firsts⟩
  | .call ord op, ⟨host, some session, firsts⟩ =>
      match Pool.step (Env.healthy ord) op (session.world, session.pool) with
      | (.panic, w, _) => ⟨session.writeBack host w, none, firsts⟩
      | (_, w, p')     => ⟨session.writeBack host w, some { session with disks := w.disk, pool := p' }, firsts⟩
  | .crash ord k op, ⟨host, some session, firsts⟩ =>
      ⟨session.writeBack host (Pool.step ⟨stopAt k, ord⟩ op (session.world, session.pool)).2.1, none, firsts⟩
  | .stop, s => { s with live := none }
  | _, s     => s

/-- What is seen of it. -/
def seen : Act Path → State Path → List Seen
  | .start st paths classes redbPath now, s =>
      match (Daemon.start st s.host paths classes redbPath now).1 with
      | .ok session => if allExist s.host paths then [.opened session.pool] else []
      | _           => []
  | .call ord op, ⟨_, some session, _⟩ =>
      match (Pool.step (Env.healthy ord) op (session.world, session.pool)).1 with
      | .ok (.inode id) => [.created id]
      | _               => []
  | _, _ => []

/-- The calls of `MetaStore::apply` that a call of the pool makes in it. -/
def metaCalls : Act Path → State Path → List MetaCall
  | .call ord op, ⟨_, some session, _⟩    => session.pool.metaCalls (Env.healthy ord) session.world op
  | .crash ord k op, ⟨_, some session, _⟩ => session.pool.metaCalls ⟨stopAt k, ord⟩ session.world op
  | _, _                                  => []

end Act

/-- The state after a history. -/
def run : List (Act Path) → State Path → State Path
  | [],          s => s
  | act :: acts, s => run acts (act.exec s)

/-- Everything that is seen in a history. -/
def seenIn : List (Act Path) → State Path → List Seen
  | [],          _ => []
  | act :: acts, s => act.seen s ++ seenIn acts (act.exec s)

/-- An opened pool has a root, a directory; and a new file's number is not the root's. -/
def Seen.Good : Seen → Prop
  | .opened p   => ∃ rec, p.getInode rootInode = .ok (some rec) ∧ IsDirectory rec
  | .created id => id ≠ rootInode

instance (x : Seen) : Decidable x.Good :=
  match x with
  | .created id => inferInstanceAs (Decidable (id ≠ rootInode))
  | .opened p   =>
      match h : p.getInode rootInode with
      | .ok (some rec) => decidable_of_iff (IsDirectory rec)
          ⟨fun hdir => ⟨rec, h, hdir⟩, fun ⟨_, hrec, hdir⟩ => by cases h.symm.trans hrec; exact hdir⟩
      | .ok none       => isFalse fun ⟨_, hrec, _⟩ => by cases h.symm.trans hrec
      | .err _         => isFalse fun ⟨_, hrec, _⟩ => by cases h.symm.trans hrec
      | .panic         => isFalse fun ⟨_, hrec, _⟩ => by cases h.symm.trans hrec

/-! ## When the root is found -/

/-- The paths of a pool that was formatted: its first disk in the first place, and no other pool's first disk. -/
def Known (firsts : List Path) : List Path → Prop
  | []           => False
  | path :: rest => path ∈ firsts ∧ (path :: rest).Nodup ∧ ∀ q ∈ rest, q ∉ firsts

/-- A start that opens is given a pool that was formatted; one that formats fails on its first path or goes through, with
    the root's entry on the first disk. And neither makes its tables where such a first disk is. -/
def Act.StartsWell : Act Path → State Path → Prop
  | .start st paths _ redbPath _, s =>
      if allExist s.host paths then Known s.firsts paths ∧ redbPath ∉ s.firsts
      else FailsFirst st s.host paths ∨ (GoesThrough st s.host paths ∧ redbPath ∉ paths.head?.toList ++ s.firsts)
  | _, _ => True

/-- And every frame ends inside the log's region. -/
def Act.Meets (act : Act Path) (s : State Path) : Prop := act.StartsWell s ∧ ∀ c ∈ act.metaCalls s, c.Fits

/-- Every act of a history does. -/
def Meets : List (Act Path) → State Path → Prop
  | [],          _ => True
  | act :: acts, s => act.Meets s ∧ Meets acts (act.exec s)

/-! ## The invariant -/

/-- The log on the first disk of every pool starts with the root, and the running daemon has such a pool, whose tables are
    no such disk. -/
structure Kept (s : State Path) : Prop where
  roots : ∀ q ∈ s.firsts, ∃ d, s.host q = some d ∧ HoldsRoot d
  session : ∀ session, s.live = some session →
    Known s.firsts session.paths ∧ session.redbPath ∉ s.firsts ∧ Seated session.world session.pool

variable {st : Setting} {host : Host Path} {paths : List Path} {classes : List DiskClass} {redbPath : Path} {now : UInt64}
variable {s : State Path} {session : Session Path} {firsts : List Path} {w : World} {p : Pool}

omit [DecidableEq Path] in
theorem Kept.dead (h : Kept s) : Kept { s with live := none } := ⟨h.roots, fun _ hlive => by cases hlive⟩

omit [DecidableEq Path] in
/-- The first disk of a known list. -/
theorem Known.holdsRoot (h : Known firsts paths) (hroots : ∀ q ∈ firsts, ∃ d, host q = some d ∧ HoldsRoot d) :
    HoldsRoot ((worldOf host paths).disk 0) := by
  cases paths with
  | nil => exact h.elim
  | cons path rest =>
      obtain ⟨d, hd, hroot⟩ := hroots path h.1
      have hdisk : (worldOf host (path :: rest)).disk 0 = d := by simp [worldOf, hd]
      rw [hdisk]
      exact hroot

/-- Writing to the disks of a known list touches one first disk only. -/
theorem Known.putBack (h : Known firsts paths) (hroots : ∀ q ∈ firsts, ∃ d, host q = some d ∧ HoldsRoot d)
    (hredb : redbPath ∉ firsts) (hroot : HoldsRoot (w.disk 0)) :
    ∀ q ∈ firsts, ∃ d, putBack host paths redbPath w q = some d ∧ HoldsRoot d := by
  cases paths with
  | nil => exact h.elim
  | cons path rest =>
      intro q hq
      obtain ⟨-, -, hrest⟩ := h
      have hne : q ≠ redbPath := ne_of_mem_of_not_mem hq hredb
      by_cases hfirst : q = path
      · subst hfirst
        exact ⟨w.disk 0, by simp [Daemon.putBack, hne], hroot⟩
      · obtain ⟨d, hd, hholds⟩ := hroots q hq
        refine ⟨d, ?_, hholds⟩
        have hnot : q ∉ path :: rest := fun hmem => (List.mem_cons.mp hmem).elim hfirst (fun hmem => hrest q hmem hq)
        simp [Daemon.putBack, hnot, hd]

/-- Tables are made beside the first disks. -/
theorem roots_update {left : Option FileDisk} (hroots : ∀ q ∈ firsts, ∃ d, host q = some d ∧ HoldsRoot d)
    (hredb : redbPath ∉ firsts) : ∀ q ∈ firsts, ∃ d, Function.update host redbPath left q = some d ∧ HoldsRoot d := by
  intro q hq
  rw [Function.update_of_ne (ne_of_mem_of_not_mem hq hredb)]
  exact hroots q hq

theorem seated_congr {w' : World} (h : Seated w p) (hdisk : w'.disk 0 = w.disk 0) : Seated w' p :=
  ⟨h.wf, h.primaryDisk_eq, h.next, by rw [hdisk]; exact h.log⟩

/-! ## Starts -/

/-- **Every way an open can end**: before the tables are touched, or with new ones. -/
theorem openWithClasses_cases (st : Setting) (host : Host Path) (paths : List Path) (classes : List DiskClass)
    (redbPath : Path) :
    (∃ res, openWithClasses st host paths classes redbPath = (res, host) ∧ ∀ session, res ≠ .ok session) ∨
    (∃ res left, openWithClasses st host paths classes redbPath = (res, Function.update host redbPath left) ∧
      ∀ session, res = .ok session → ∃ p, session = ⟨paths, redbPath, (worldOf host paths).disk, p⟩ ∧
        Pool.openWithClasses (worldOf host paths) paths.length classes = .ok p) := by
  unfold openWithClasses
  by_cases hne : paths = []
  · rw [if_pos hne]
    exact Or.inl ⟨_, rfl, fun _ h => by cases h⟩
  · rw [if_neg hne]
    by_cases hlen : paths.length ≠ classes.length
    · rw [if_pos hlen]
      exact Or.inl ⟨_, rfl, fun _ h => by cases h⟩
    · rw [if_neg hlen]
      cases hfind : paths.find? (fun path => (host path).isNone) with
      | some path => exact Or.inl ⟨_, rfl, fun _ h => by cases h⟩
      | none =>
          right
          dsimp only
          cases htables : st.tables with
          | failed left =>
              rw [createTables_failed]
              exact ⟨_, left, rfl, fun _ h => by cases h⟩
          | opened file =>
              rw [createTables_opened]
              dsimp only
              cases hopen : Pool.openWithClasses (worldOf host paths) paths.length classes with
              | ok p => exact ⟨_, some file, rfl, fun session h => ⟨p, (Res.ok.inj h).symm, rfl⟩⟩
              | err e => exact ⟨_, some file, rfl, fun _ h => by cases h⟩
              | panic => exact ⟨_, some file, rfl, fun _ h => by cases h⟩

/-- Without one class per path nothing happens. -/
theorem format_of_length_ne (st : Setting) (host : Host Path) (redbPath : Path) (now : UInt64)
    (hlen : paths.length ≠ classes.length) :
    (formatWithClasses st host paths classes redbPath now).2 = host ∧
      ∀ session, (formatWithClasses st host paths classes redbPath now).1 ≠ .ok session := by
  unfold formatWithClasses
  by_cases hne : paths = []
  · rw [if_pos hne]
    exact ⟨rfl, by simp⟩
  · rw [if_neg hne, if_pos hlen]
    exact ⟨rfl, by simp⟩

/-- The host after a format that went through: a new pool, next to those there were. -/
theorem Kept.formatted {path : Path} {rest : List Path} {file : FileDisk} (h : Kept s)
    (hthrough : GoesThrough st s.host (path :: rest)) (hredb : redbPath ∉ path :: s.firsts) (hseated : Seated w p) :
    Kept ⟨putBack (Function.update (created s.host (path :: rest)) redbPath (some file)) (path :: rest) redbPath w,
      some ⟨path :: rest, redbPath, w.disk, p⟩, path :: s.firsts⟩ := by
  have hnodup := hthrough.fresh.nodup
  -- the pools that were there before have other first disks
  have hold : ∀ q ∈ s.firsts, q ∉ path :: rest := by
    intro q hq hmem
    obtain ⟨d, hd, -⟩ := h.roots q hq
    rw [hthrough.fresh.absent q hmem] at hd
    cases hd
  have hknown : Known (path :: s.firsts) (path :: rest) := by
    refine ⟨List.mem_cons_self, hnodup, ?_⟩
    intro q hq hmem
    rcases List.mem_cons.mp hmem with rfl | hmem
    · exact (List.nodup_cons.mp hnodup).1 hq
    · exact hold q hmem (List.mem_cons_of_mem _ hq)
  refine ⟨?_, ?_⟩
  · intro q hq
    have hne : q ≠ redbPath := ne_of_mem_of_not_mem hq hredb
    rcases List.mem_cons.mp hq with rfl | hq
    · exact ⟨w.disk 0, by simp [putBack, hne], hseated.holdsRoot⟩
    · obtain ⟨d, hd, hroot⟩ := h.roots q hq
      refine ⟨d, ?_, hroot⟩
      have hnot : ¬(q ∈ path :: rest ∧ q ≠ redbPath) := fun hmem => hold q hq hmem.1
      show putBack (Function.update (created s.host (path :: rest)) redbPath (some file)) (path :: rest) redbPath w q = some d
      simp only [putBack, if_neg hnot, Function.update_of_ne hne, created, if_neg (hold q hq), hd]
  · intro session hlive
    obtain rfl := Option.some.inj hlive
    exact ⟨hknown, hredb, seated_congr hseated rfl⟩

/-- **A format** that fails on its first path changes nothing; one that goes through leaves a new root. -/
theorem Kept.format (h : Kept s)
    (hwell : FailsFirst st s.host paths ∨ (GoesThrough st s.host paths ∧ redbPath ∉ paths.head?.toList ++ s.firsts))
    (hmissing : allExist s.host paths = false) : Kept ((Act.start st paths classes redbPath now).exec s) := by
  have hfails : (formatWithClasses st s.host paths classes redbPath now).2 = s.host →
      (∀ session, (formatWithClasses st s.host paths classes redbPath now).1 ≠ .ok session) →
      Kept ((Act.start st paths classes redbPath now).exec s) := by
    intro hhost hres
    simp only [Act.exec, start, hmissing, Bool.false_eq_true, if_false]
    generalize formatWithClasses st s.host paths classes redbPath now = out at hhost hres ⊢
    obtain ⟨res, host⟩ := out
    obtain rfl : host = s.host := hhost
    cases res with
    | ok session => exact absurd rfl (hres session)
    | err e => exact h.dead
    | panic => exact h.dead
  by_cases hlen : paths.length = classes.length
  · rcases hwell with hfirst | ⟨hthrough, hredb⟩
    · obtain ⟨e, heq⟩ := hfirst.format_eq redbPath now hlen
      exact hfails (by rw [heq]) (by rw [heq]; simp)
    · cases hpaths : paths with
      | nil =>
          rw [hpaths] at hmissing
          cases hmissing
      | cons path rest =>
          obtain ⟨file, w, p, -, hpool, heq⟩ := hthrough.format_eq redbPath now (by rw [hpaths]; simp) hlen
          rw [hpaths] at hmissing hthrough hpool heq hredb
          simp only [Act.exec, start, hmissing, Bool.false_eq_true, if_false, heq]
          exact h.formatted hthrough hredb (seated_format hpool)
  · obtain ⟨hhost, hres⟩ := format_of_length_ne st s.host redbPath now hlen
    exact hfails hhost hres

/-- **An open** of a known pool finds the root. -/
theorem Kept.reopen (h : Kept s) (hknown : Known s.firsts paths) (hredb : redbPath ∉ s.firsts)
    (hall : allExist s.host paths = true) :
    Kept ((Act.start st paths classes redbPath now).exec s) ∧
      ∀ x ∈ (Act.start st paths classes redbPath now).seen s, x.Good := by
  have hroot := hknown.holdsRoot h.roots
  have hdead : ∀ {left}, Kept (⟨Function.update s.host redbPath left, none, s.firsts⟩ : State Path) := fun {left} =>
    ⟨roots_update h.roots hredb, fun _ hlive => by cases hlive⟩
  simp only [Act.exec, Act.seen, start, hall, if_true]
  rcases openWithClasses_cases st s.host paths classes redbPath with ⟨res, heq, hres⟩ | ⟨res, left, heq, hres⟩
  · rw [heq]
    cases res with
    | ok session => exact absurd rfl (hres session)
    | err e => exact ⟨h.dead, by simp⟩
    | panic => exact ⟨h.dead, by simp⟩
  · rw [heq]
    cases res with
    | err e => exact ⟨hdead, by simp⟩
    | panic => exact ⟨hdead, by simp⟩
    | ok session =>
        obtain ⟨p, rfl, hopen⟩ := hres session rfl
        obtain ⟨hseated, hget⟩ := seated_open hroot hopen
        refine ⟨⟨roots_update h.roots hredb, ?_⟩, ?_⟩
        · intro session hlive
          obtain rfl := Option.some.inj hlive
          exact ⟨hknown, hredb, seated_congr hseated rfl⟩
        · exact List.forall_mem_singleton.mpr hget

/-! ## Calls -/

/-- **A call** keeps the root and hands out other numbers. -/
theorem Kept.call {ord : IterOrder} {op : PoolOp} (h : Kept s) (hfits : ∀ c ∈ (Act.call ord op).metaCalls s, c.Fits) :
    Kept ((Act.call ord op).exec s) ∧ ∀ x ∈ (Act.call ord op).seen s, x.Good := by
  obtain ⟨host, live, firsts⟩ := s
  cases live with
  | none => exact ⟨h, by simp [Act.seen]⟩
  | some session =>
      obtain ⟨hknown, hredb, hseated⟩ := h.session session rfl
      have hfits' : ∀ c ∈ session.pool.metaCalls (Env.healthy ord) session.world op, c.Fits := hfits
      -- wherever the call stopped, also by a panic, the log starts with the root
      have hend := hseated.stopped (whole_healthy ord) hfits'
      simp only [Act.exec, Act.seen]
      generalize hstep : Pool.step (Env.healthy ord) op (session.world, session.pool) = out at hend ⊢
      obtain ⟨res, w, p'⟩ := out
      have hroots : ∀ q ∈ firsts, ∃ d, session.writeBack host w q = some d ∧ HoldsRoot d :=
        hknown.putBack h.roots hredb hend
      have hgoes : res ≠ .panic →
          Kept ⟨session.writeBack host w, some { session with disks := w.disk, pool := p' }, firsts⟩ := by
        intro hres
        refine ⟨hroots, ?_⟩
        intro session' hlive
        obtain rfl := Option.some.inj hlive
        exact ⟨hknown, hredb, seated_congr (hseated.step hfits' hstep hres) rfl⟩
      cases res with
      | panic => exact ⟨⟨hroots, fun _ hlive => by cases hlive⟩, by simp⟩
      | err e => exact ⟨hgoes (by simp), by simp⟩
      | ok v =>
          refine ⟨hgoes (by simp), ?_⟩
          cases v with
          | inode id => exact List.forall_mem_singleton.mpr (hseated.created_ne hstep)
          | unit => simp
          | bytes b => simp

/-- **A call that is stopped** keeps the root in the log. -/
theorem Kept.crash {ord : IterOrder} {k : Nat} {op : PoolOp} (h : Kept s)
    (hfits : ∀ c ∈ (Act.crash ord k op).metaCalls s, c.Fits) : Kept ((Act.crash ord k op).exec s) := by
  obtain ⟨host, live, firsts⟩ := s
  cases live with
  | none => exact h
  | some session =>
      obtain ⟨hknown, hredb, hseated⟩ := h.session session rfl
      have hend := hseated.stopped (whole_stopAt k ord) hfits
      exact ⟨hknown.putBack h.roots hredb hend, fun _ hlive => by cases hlive⟩

/-- **Step lemma.** -/
theorem Act.kept {act : Act Path} (h : Kept s) (hmeets : act.Meets s) :
    Kept (act.exec s) ∧ ∀ x ∈ act.seen s, x.Good := by
  obtain ⟨hwell, hfits⟩ := hmeets
  cases act with
  | start st paths classes redbPath now =>
      cases hall : allExist s.host paths with
      | true =>
          simp only [Act.StartsWell, hall, if_true] at hwell
          exact h.reopen hwell.1 hwell.2 hall
      | false =>
          simp only [Act.StartsWell, hall, Bool.false_eq_true, if_false] at hwell
          refine ⟨h.format hwell hall, ?_⟩
          simp only [Act.seen, hall, Bool.false_eq_true, if_false]
          intro x hx
          split at hx
          · cases hx
          · cases hx
  | call ord op => exact h.call hfits
  | crash ord k op => exact ⟨h.crash hfits, by simp [Act.seen]⟩
  | stop => exact ⟨h.dead, by simp [Act.seen]⟩

/-- **Run lemma.** -/
theorem Kept.run {acts : List (Act Path)} (h : Kept s) (hmeets : Meets acts s) : ∀ x ∈ seenIn acts s, x.Good := by
  induction acts generalizing s with
  | nil => simp [seenIn]
  | cons act acts ih =>
      obtain ⟨hkept, hseen⟩ := act.kept h hmeets.1
      exact List.forall_mem_append.mpr ⟨hseen, ih hkept hmeets.2⟩

/-- **Every opened pool has its root**, and no file gets the root's number, in every history from any host whose formats
    fail on their first path or go through, whose opens name pools that were formatted, whose tables take the place of no
    pool's first disk, and whose log frames fit their region. -/
theorem history_finds_root (acts : List (Act Path)) (host : Host Path) (hmeets : Meets acts ⟨host, none, []⟩) :
    ∀ x ∈ seenIn acts ⟨host, none, []⟩, x.Good := by
  have hkept : Kept (⟨host, none, []⟩ : State Path) :=
    ⟨fun q hq => absurd hq List.not_mem_nil, fun _ hlive => by cases hlive⟩
  exact hkept.run hmeets

/-! ## Two histories -/

/-- A daemon on one disk: formatted, used, stopped in a call, and started again. -/
def usedDaemon : List (Act String) :=
  [.start .calm ["a.img"] [.hdd] "a.redb" 0,
    .call MetaStore.listOrder (.createFile rootInode "f" (.replicated [.anyOfClass none]) 0 0 0o644 0),
    .crash MetaStore.listOrder 1 (.unlink rootInode "f"),
    .start .calm ["a.img"] [.hdd] "a.redb" 0,
    .call MetaStore.listOrder (.createFile rootInode "g" (.replicated [.anyOfClass none]) 0 0 0o644 0)]

/-- A host without files. -/
def noFiles : State String := ⟨fun _ => none, none, []⟩

/-- The theorem at that history: one pool is opened, and two files are created. -/
theorem history_finds_root_usedDaemon :
    (seenIn usedDaemon noFiles).length = 3 ∧ ∀ x ∈ seenIn usedDaemon noFiles, x.Good := by
  refine ⟨by decide +kernel, history_finds_root usedDaemon (fun _ => none) ?_⟩
  refine ⟨⟨?_, by decide +kernel⟩, ⟨trivial, by decide +kernel⟩, ⟨trivial, by decide +kernel⟩, ⟨?_, by decide +kernel⟩,
    ⟨trivial, by decide +kernel⟩, trivial⟩
  · have hmissing : allExist (fun _ => none) ["a.img"] = false := rfl
    simp only [Act.StartsWell, hmissing, Bool.false_eq_true, if_false]
    exact Or.inr ⟨⟨⟨fun _ _ => rfl, List.nodup_singleton _, fun _ _ => rfl⟩, ⟨_, rfl⟩, rfl, rfl⟩, by decide⟩
  · have hfound : allExist (run (usedDaemon.take 3) noFiles).host ["a.img"] = true := by decide +kernel
    have hfirsts : (run (usedDaemon.take 3) noFiles).firsts = ["a.img"] := by decide +kernel
    show Act.StartsWell _ (run (usedDaemon.take 3) noFiles)
    generalize run (usedDaemon.take 3) noFiles = s at hfound hfirsts
    simp only [Act.StartsWell, hfound, if_true, hfirsts]
    exact ⟨⟨List.mem_singleton.mpr rfl, List.nodup_singleton _, by simp⟩, by decide⟩

/-- The process is stopped before the root's entry is written; the next start opens the file it left. -/
def stoppedFormat : List (Act String) :=
  [.start ⟨fun _ => .done, .opened (.create 0), ⟨stopAt 0, MetaStore.listOrder⟩⟩ ["a.img"] [.hdd] "a.redb" 0,
    .start .calm ["a.img"] [.hdd] "a.redb" 0,
    .call MetaStore.listOrder (.createFile rootInode "f" (.replicated [.anyOfClass none]) 0 0 0o644 0)]

/-- The pool it opens has no root, and its first file gets the root's number. -/
theorem stoppedFormat_loses_root :
    (seenIn stoppedFormat noFiles).length = 2 ∧ ∀ x ∈ seenIn stoppedFormat noFiles, ¬x.Good := by
  decide +kernel

/-! ## A disk at the path of its tables -/

/-- A host with one file, new tables. -/
def onlyTables (path : Path) : Host Path := Function.update (fun _ => none) path (some (.create 0))

theorem worldOf_onlyTables (path : Path) : worldOf (onlyTables path) [path] = World.blank 0 := by
  unfold worldOf World.blank onlyTables
  congr 1
  funext r
  cases r with
  | zero => simp
  | succ r => simp

/-- The disk that a format makes there has lost its name. -/
theorem format_onlyTables (path : Path) :
    ∃ session, formatWithClasses .calm (fun _ => none) [path] [.hdd] path 0 = (.ok session, onlyTables path) := by
  have hthrough : GoesThrough .calm (fun _ => none) [path] :=
    ⟨⟨fun _ _ => rfl, List.nodup_singleton _, fun _ _ => rfl⟩, ⟨_, rfl⟩, rfl, rfl⟩
  obtain ⟨file, w, p, hfile, -, hformat⟩ := hthrough.format_eq path 0 (by simp) (show [path].length = [DiskClass.hdd].length from rfl)
  obtain rfl := TablesOutcome.opened.inj hfile
  refine ⟨_, hformat.trans (congrArg (Prod.mk _) ?_)⟩
  funext q
  by_cases hq : q = path
  · simp [putBack, onlyTables, hq]
  · simp [putBack, onlyTables, created, hq]

/-- An empty file opens as a pool without a root. -/
theorem openWithClasses_blank :
    ∃ p, Pool.openWithClasses (World.blank 0) 1 [.hdd] = .ok p ∧ p.getInode rootInode = .ok none :=
  ⟨_, Res.eq_ok_getD ⟨poolMapOf [], ∅, freshStore 1⟩ (by decide +kernel), by decide +kernel⟩

/-- And it is what the next start finds in its place. -/
theorem open_onlyTables (path : Path) : ∃ p, p.getInode rootInode = .ok none ∧
    openWithClasses .calm (onlyTables path) [path] [.hdd] path =
      (.ok ⟨[path], path, (World.blank 0).disk, p⟩, onlyTables path) := by
  obtain ⟨p, hopen, hroot⟩ := openWithClasses_blank
  refine ⟨p, hroot, ?_⟩
  have hfind : [path].find? (fun path' => (onlyTables path path').isNone) = none := by simp [onlyTables]
  unfold openWithClasses
  rw [if_neg (by simp), if_neg (by simp), hfind]
  dsimp only [Setting.calm]
  rw [createTables_opened, worldOf_onlyTables]
  dsimp only
  rw [show [path].length = 1 from rfl, hopen, onlyTables, Function.update_idem]

/-- **A disk at the path of its tables is not found again**: two starts on it open a pool without a root. -/
theorem ownTables_loses_root (path : Path) : ∃ p,
    seenIn [.start .calm [path] [.hdd] path 0, .start .calm [path] [.hdd] path 0] ⟨fun _ => none, none, []⟩ =
      [.opened p] ∧ ¬(Seen.opened p).Good := by
  obtain ⟨session, hformat⟩ := format_onlyTables path
  obtain ⟨p, hroot, hopen⟩ := open_onlyTables path
  have hmissing : allExist (fun _ : Path => none) [path] = false := rfl
  have hfound : allExist (onlyTables path) [path] = true := by simp [allExist, onlyTables]
  refine ⟨p, ?_, ?_⟩
  · simp [seenIn, Act.seen, Act.exec, start, hmissing, hformat, hfound, hopen]
  · rintro ⟨rec, hrec, -⟩
    cases hroot.symm.trans hrec

end Tartine.Daemon
