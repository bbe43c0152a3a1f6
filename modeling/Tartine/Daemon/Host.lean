import Tartine.Meta.PoolRun

/-!
# `Daemon.Host` — disk files on a host, and what a failed format leaves there

`tartined` is given the paths of its disk files. It opens the pool if all of them exist and formats it otherwise, and
`Pool::format_with_classes` then creates the files one by one, in the order of the paths, each with `create_new`. The
first path that exists ends it with an error, and the files made for the paths before it stay.

A `Host` is the contents of the files that exist; `World`, which the pool works on, is the part of it that a list of paths
names. `Setting` is what a call meets outside the program: whether each file can be created and sized, what becomes of the
tables' file, and the disks. The tables' path may be any, a disk's among them: whatever file stands there is removed when
the tables are made, and a disk that was open under that path goes on without a name. So a `Session` holds its disks, and
what it writes to them shows on the host under every path but the tables'.

* `createFiles_eq_ok` — the files are created if all paths are fresh, different, and let through by the file system;
* `GoesThrough.format_eq` — the format succeeds if furthermore the root's entry reaches the first disk;
* `format_leaves_host_iff` — a format that fails leaves the host as it was exactly if it fails on its first path, or
  not at all, or has removed the only file it made.
-/

namespace Tartine.Daemon

open Basis

/-- The contents of the files that exist. -/
abbrev Host (Path : Type) := Path → Option FileDisk

/-- What the file system does with a path that is to be created: file and size, nothing, or a file without its size. -/
inductive CreateOutcome where
  | done
  | refused
  | unsized
  deriving DecidableEq, Repr

/-- What becomes of the tables' file: it is made, with what its next reader finds in it, or it is not, with what stands under
    its path then. -/
inductive TablesOutcome where
  | opened (file : FileDisk)
  | failed (left : Option FileDisk)

inductive HostError (Path : Type) where
  | alreadyExists (path : Path)
  | notFound (path : Path)
  | io (path : Path)
  | redb
  | pool (e : PoolError)
  deriving DecidableEq, Repr

/-- What a call meets outside the program. The files are counted in the order of the paths. -/
structure Setting where
  create : Nat → CreateOutcome
  tables : TablesOutcome
  env : Env

/-- A running daemon: the paths it was started with, its disks, which it holds open, and its pool. -/
structure Session (Path : Type) where
  paths : List Path
  redbPath : Path
  disks : DiskRef → FileDisk
  pool : Pool

/-- What a call of the pool finds; it counts its own I/O calls. -/
def Session.world {Path : Type} (session : Session Path) : World := ⟨session.disks, 0⟩

variable {Path : Type} [DecidableEq Path]

/-! ## `format_with_classes` on paths -/

/-- `FileDisk::create`: `create_new`, then `set_len`. -/
def createFile (host : Host Path) (path : Path) (outcome : CreateOutcome) :
    Except (HostError Path) Unit × Host Path :=
  if (host path).isSome then (.error (.alreadyExists path), host)
  else
    match outcome with
    | .done    => (.ok (), Function.update host path (some (.create diskFileCapacityBytes)))
    | .refused => (.error (.io path), host)
    | .unsized => (.error (.io path), Function.update host path (some (.create 0)))

/-- The loop over the paths, from the `i`-th on. -/
def createFiles (create : Nat → CreateOutcome) : Nat → List Path → Host Path → Except (HostError Path) Unit × Host Path
  | _, [],            host => (.ok (), host)
  | i, path :: paths, host =>
      match createFile host path (create i) with
      | (.error e, host) => (.error e, host)
      | (.ok (), host)   => createFiles create (i + 1) paths host

/-- The disks a list of paths names. -/
def worldOf (host : Host Path) (paths : List Path) : World :=
  ⟨fun r => ((paths[r]?).bind host).getD (.create 0), 0⟩

/-- `MetaStore::open` on its own file: what stands under the path is removed, and the tables are made anew. -/
def createTables (outcome : TablesOutcome) (host : Host Path) (redbPath : Path) :
    Except (HostError Path) Unit × Host Path :=
  let host := Function.update host redbPath none
  match outcome with
  | .opened file => (.ok (), Function.update host redbPath (some file))
  | .failed left => (.error .redb, Function.update host redbPath left)

/-- The host after its disks were written: a disk that has lost its name to the tables does not show. -/
def putBack (host : Host Path) (paths : List Path) (redbPath : Path) (w : World) : Host Path :=
  fun path => if path ∈ paths ∧ path ≠ redbPath then some (w.disk (paths.idxOf path)) else host path

/-- `Pool::format_with_classes`: the files first, then the tables' file, then the pool's own part on the new disks. -/
def formatWithClasses (st : Setting) (host : Host Path) (paths : List Path) (classes : List DiskClass) (redbPath : Path)
    (now : UInt64) : Res (HostError Path) (Session Path) × Host Path :=
  if paths = [] then (.err (.pool .noDisks), host)
  else if paths.length ≠ classes.length then (.panic, host)
  else
    match createFiles st.create 0 paths host with
    | (.error e, host) => (.err e, host)
    | (.ok (), host)   =>
        let w := worldOf host paths
        match createTables st.tables host redbPath with
        | (.error e, host) => (.err e, host)
        | (.ok (), host)   =>
            match Pool.formatWithClasses st.env w paths.length classes now with
            | (.ok (), w, some p) => (.ok ⟨paths, redbPath, w.disk, p⟩, putBack host paths redbPath w)
            | (.err e, w, _)      => (.err (.pool e), putBack host paths redbPath w)
            | (_, w, _)           => (.panic, putBack host paths redbPath w)

/-! ## The files -/

section Files

variable {host host' : Host Path} {path : Path} {paths : List Path} {create : Nat → CreateOutcome} {i : Nat}

/-- Every path is free to be created: it does not exist, it is named once, and the file system lets it through. -/
structure Fresh (create : Nat → CreateOutcome) (i : Nat) (host : Host Path) (paths : List Path) : Prop where
  absent : ∀ path ∈ paths, host path = none
  nodup : paths.Nodup
  allowed : ∀ k, k < paths.length → create (i + k) = .done

/-- **Every way one call of `FileDisk::create` can end.** -/
theorem createFile_cases (host : Host Path) (path : Path) (outcome : CreateOutcome) :
    ((host path).isSome ∧ createFile host path outcome = (.error (.alreadyExists path), host)) ∨
    (host path = none ∧ outcome = .refused ∧ createFile host path outcome = (.error (.io path), host)) ∨
    (host path = none ∧ outcome = .unsized ∧
      createFile host path outcome = (.error (.io path), Function.update host path (some (.create 0)))) ∨
    (host path = none ∧ outcome = .done ∧
      createFile host path outcome = (.ok (), Function.update host path (some (.create diskFileCapacityBytes)))) := by
  cases hpath : host path with
  | some d => exact Or.inl ⟨rfl, by simp [createFile, hpath]⟩
  | none =>
      right
      cases outcome with
      | refused => exact Or.inl ⟨rfl, rfl, by simp [createFile, hpath]⟩
      | unsized => exact Or.inr (Or.inl ⟨rfl, rfl, by simp [createFile, hpath]⟩)
      | done => exact Or.inr (Or.inr ⟨rfl, rfl, by simp [createFile, hpath]⟩)

/-- A file that exists stays as it is. -/
theorem createFile_keeps {outcome : CreateOutcome} {q : Path} (hq : (host q).isSome) :
    (createFile host path outcome).2 q = host q := by
  have hne : host path = none → q ≠ path := by
    rintro habsent rfl
    rw [habsent] at hq
    cases hq
  rcases createFile_cases host path outcome with ⟨-, h⟩ | ⟨-, -, h⟩ | ⟨habsent, -, h⟩ | ⟨habsent, -, h⟩
  · rw [h]
  · rw [h]
  · rw [h]
    exact Function.update_of_ne (hne habsent) ..
  · rw [h]
    exact Function.update_of_ne (hne habsent) ..

theorem createFiles_keeps {q : Path} (hq : (host q).isSome) : (createFiles create i paths host).2 q = host q := by
  induction paths generalizing i host with
  | nil => rfl
  | cons path paths ih =>
      have hkeep : (createFile host path (create i)).2 q = host q := createFile_keeps hq
      unfold createFiles
      generalize createFile host path (create i) = out at hkeep ⊢
      obtain ⟨r, host₁⟩ := out
      cases r with
      | error e => exact hkeep
      | ok u =>
          dsimp only at hkeep ⊢
          rw [ih (by rw [hkeep]; exact hq), hkeep]

/-- The first file is not created: nothing has happened. -/
theorem createFiles_of_refused (paths : List Path) (h : (host path).isSome ∨ create i = .refused) :
    ∃ e, createFiles create i (path :: paths) host = (.error e, host) := by
  unfold createFiles
  rcases createFile_cases host path (create i) with ⟨-, hc⟩ | ⟨-, -, hc⟩ | ⟨habsent, hout, -⟩ | ⟨habsent, hout, -⟩
  · rw [hc]
    exact ⟨_, rfl⟩
  · rw [hc]
    exact ⟨_, rfl⟩
  · rcases h with hsome | hrefused
    · rw [habsent] at hsome
      cases hsome
    · rw [hout] at hrefused
      cases hrefused
  · rcases h with hsome | hrefused
    · rw [habsent] at hsome
      cases hsome
    · rw [hout] at hrefused
      cases hrefused

/-- The first file is created: it is there at the end. -/
theorem isSome_createFiles (paths : List Path) (habsent : host path = none) (hout : create i ≠ .refused) :
    ((createFiles create i (path :: paths) host).2 path).isSome := by
  unfold createFiles
  rcases createFile_cases host path (create i) with ⟨hsome, -⟩ | ⟨-, hrefused, -⟩ | ⟨-, -, hc⟩ | ⟨-, -, hc⟩
  · rw [habsent] at hsome
    cases hsome
  · exact absurd hrefused hout
  · rw [hc]
    simp
  · rw [hc]
    dsimp only
    rw [createFiles_keeps (by simp)]
    simp

theorem Fresh.tail (h : Fresh create i host (path :: paths)) (d : FileDisk) :
    Fresh create (i + 1) (Function.update host path (some d)) paths := by
  obtain ⟨hnot, hnodup⟩ := List.nodup_cons.mp h.nodup
  refine ⟨?_, hnodup, ?_⟩
  · intro q hq
    rw [Function.update_of_ne (ne_of_mem_of_not_mem hq hnot)]
    exact h.absent q (List.mem_cons_of_mem _ hq)
  · intro k hk
    have := h.allowed (k + 1) (Nat.succ_lt_succ hk)
    rwa [show i + (k + 1) = i + 1 + k by omega] at this

/-- **Fresh paths are created**, every one of them. -/
theorem createFiles_of_fresh (h : Fresh create i host paths) : createFiles create i paths host =
    (.ok (), fun q => if q ∈ paths then some (.create diskFileCapacityBytes) else host q) := by
  induction paths generalizing i host with
  | nil => simp [createFiles]
  | cons path paths ih =>
      have habsent := h.absent path List.mem_cons_self
      have hdone : create i = .done := h.allowed 0 (Nat.succ_pos _)
      rcases createFile_cases host path (create i) with ⟨hsome, -⟩ | ⟨-, hout, -⟩ | ⟨-, hout, -⟩ | ⟨-, -, hc⟩
      · rw [habsent] at hsome
        cases hsome
      · cases hdone.symm.trans hout
      · cases hdone.symm.trans hout
      · rw [createFiles, hc]
        dsimp only
        rw [ih (h.tail _)]
        congr 1
        funext q
        by_cases hq : q = path
        · subst hq
          simp
        · simp [hq]

/-- And only those are. -/
theorem createFiles_eq_ok (h : (createFiles create i paths host).1 = .ok ()) : Fresh create i host paths := by
  induction paths generalizing i host with
  | nil => exact ⟨by simp, List.nodup_nil, by simp⟩
  | cons path paths ih =>
      unfold createFiles at h
      rcases createFile_cases host path (create i) with ⟨-, hc⟩ | ⟨-, -, hc⟩ | ⟨-, -, hc⟩ | ⟨habsent, hout, hc⟩
      · rw [hc] at h
        cases h
      · rw [hc] at h
        cases h
      · rw [hc] at h
        cases h
      · rw [hc] at h
        have hrest := ih h
        -- a second path of the same name would have found the file of the first
        have hnot : path ∉ paths := by
          intro hmem
          have := hrest.absent path hmem
          rw [Function.update_self] at this
          cases this
        refine ⟨?_, List.nodup_cons.mpr ⟨hnot, hrest.nodup⟩, ?_⟩
        · intro q hq
          rcases List.mem_cons.mp hq with rfl | hq
          · exact habsent
          · have := hrest.absent q hq
            rwa [Function.update_of_ne (ne_of_mem_of_not_mem hq hnot)] at this
        · intro k hk
          cases k with
          | zero => exact hout
          | succ k =>
              rw [show i + (k + 1) = i + 1 + k by omega]
              exact hrest.allowed k (Nat.lt_of_succ_lt_succ hk)

end Files

/-! ## The root's entry -/

theorem writeSync_eq_ok {env : Env} {w : World} {r : DiskRef} {off : Nat} {buf : Bytes} :
    (w.writeSync env r off buf).1 = .ok () ↔ env.io w.clock = .ok ∧ env.io (w.clock + 1) = .ok := by
  unfold World.writeSync World.writeAt World.sync
  cases hwrite : env.io w.clock with
  | fail left => simp
  | ok =>
      dsimp only
      cases hsync : env.io (w.clock + 1) with
      | ok => simp
      | fail left => simp

/-- What a commit reports, by what becomes of the primary's write. -/
theorem commit_cases (env : Env) (w : World) (r : MetaReplicator) (buf : Bytes) (off : Nat) :
    ((env.io w.clock = .ok ∧ env.io (w.clock + 1) = .ok) ∧
      ((∃ w', r.commit env w buf off = (.ok (), w')) ∨
        ∃ e w', r.commit env w buf off = (.error (.backupUnavailable e), w'))) ∨
    (¬(env.io w.clock = .ok ∧ env.io (w.clock + 1) = .ok) ∧
      ∃ e w', r.commit env w buf off = (.error (.primaryUnavailable e), w')) := by
  have hprimary : (w.writeSync env r.primaryDisk off buf).1 = .ok () ↔
      env.io w.clock = .ok ∧ env.io (w.clock + 1) = .ok := writeSync_eq_ok
  unfold MetaReplicator.commit
  generalize w.writeSync env r.primaryDisk off buf = out at hprimary ⊢
  obtain ⟨res, w₁⟩ := out
  cases res with
  | error e =>
      refine Or.inr ⟨?_, e, w₁, rfl⟩
      intro hok
      cases hprimary.mpr hok
  | ok u =>
      refine Or.inl ⟨hprimary.mp rfl, ?_⟩
      dsimp only
      cases r.backupDisk with
      | none => exact Or.inl ⟨w₁, rfl⟩
      | some b =>
          dsimp only
          generalize w₁.writeSync env b off buf = out₂
          obtain ⟨res₂, w₂⟩ := out₂
          cases res₂ with
          | error e => exact Or.inr ⟨e, w₂, rfl⟩
          | ok u => exact Or.inl ⟨w₂, rfl⟩

/-- The root directory is logged if its entry reaches the first disk; a lost backup is dropped. -/
theorem apply_root (env : Env) (w : World) (n : Nat) (now : UInt64) :
    ((env.io w.clock = .ok ∧ env.io (w.clock + 1) = .ok) ∧
      ∃ w' s, (Pool.freshStore n).apply env w (.createInode (Pool.rootRecord n now)) = (.ok (), w', s)) ∨
    (¬(env.io w.clock = .ok ∧ env.io (w.clock + 1) = .ok) ∧
      ∃ e w' s, (Pool.freshStore n).apply env w (.createInode (Pool.rootRecord n now)) = (.err e, w', s)) := by
  unfold MetaStore.apply
  dsimp only
  rcases commit_cases env w (Pool.freshStore n).replicator
      (MetaStore.opFrame env.ord (.createInode (Pool.rootRecord n now)))
      ((Pool.freshStore n).walBaseOffset + (Pool.freshStore n).walCursor) with
    ⟨hok, ⟨w', hc⟩ | ⟨e, w', hc⟩⟩ | ⟨hlost, e, w', hc⟩
  · rw [hc]
    exact Or.inl ⟨hok, w', _, rfl⟩
  · rw [hc]
    exact Or.inl ⟨hok, w', _, rfl⟩
  · rw [hc]
    exact Or.inr ⟨hlost, _, w', _, rfl⟩

/-- The pool's part of a format: it succeeds exactly if the root's entry reaches the first disk. -/
theorem poolFormat_cases (env : Env) (w : World) {n : Nat} {classes : List DiskClass} (now : UInt64) (hn : n ≠ 0)
    (hlen : n = classes.length) :
    ((env.io w.clock = .ok ∧ env.io (w.clock + 1) = .ok) ∧
      ∃ w' p, Pool.formatWithClasses env w n classes now = (.ok (), w', some p)) ∨
    (¬(env.io w.clock = .ok ∧ env.io (w.clock + 1) = .ok) ∧
      ∃ e w', Pool.formatWithClasses env w n classes now = (.err e, w', none)) := by
  unfold Pool.formatWithClasses
  rw [if_neg hn, if_neg (not_not.mpr hlen)]
  dsimp only
  rw [Pool.openStore_createDisks w hn]
  dsimp only
  rcases apply_root env (Pool.createDisks w n) n now with ⟨hok, w', s, happly⟩ | ⟨hlost, e, w', s, happly⟩
  · refine Or.inl ⟨hok, w', ⟨Pool.poolMapOf classes, Pool.handlesOf n (fun _ => 0), s⟩, ?_⟩
    rw [Pool.applyMeta_of_apply happly]
    rfl
  · refine Or.inr ⟨hlost, .metaErr e, w', ?_⟩
    rw [Pool.applyMeta_of_apply happly]
    rfl

/-! ## Formats that fail -/

section Format

variable {st : Setting} {host : Host Path} {paths : List Path} {classes : List DiskClass} {redbPath : Path}

/-- The format fails on its first path, before it has created anything: there is none, it exists, or it is refused. -/
def FailsFirst (st : Setting) (host : Host Path) (paths : List Path) : Prop :=
  ∀ path, paths.head? = some path → (host path).isSome ∨ st.create 0 = .refused

/-- Nothing stands in the format's way: fresh paths, tables that can be made, and a first disk that takes the root's
    entry. -/
structure GoesThrough (st : Setting) (host : Host Path) (paths : List Path) : Prop where
  fresh : Fresh st.create 0 host paths
  tables : ∃ file, st.tables = .opened file
  write : st.env.io 0 = .ok
  sync : st.env.io 1 = .ok

/-- The only disk has the tables' path: its file is made, and removed again for tables that are not made. -/
structure TakenBack (st : Setting) (host : Host Path) (paths : List Path) (redbPath : Path) : Prop where
  alone : paths = [redbPath]
  fresh : Fresh st.create 0 host paths
  tables : st.tables = .failed none

/-- The files as `createFiles` leaves them. -/
def created (host : Host Path) (paths : List Path) : Host Path :=
  fun q => if q ∈ paths then some (.create diskFileCapacityBytes) else host q

/-- The host after the tables were made. -/
theorem createTables_opened (file : FileDisk) :
    createTables (.opened file) host redbPath = (.ok (), Function.update host redbPath (some file)) := by
  simp [createTables]

theorem createTables_failed (left : Option FileDisk) :
    createTables (.failed left) host redbPath = (.error .redb, Function.update host redbPath left) := by
  simp [createTables]

/-- A format that goes through succeeds. -/
theorem GoesThrough.format_eq (redbPath : Path) (now : UInt64) (h : GoesThrough st host paths) (hne : paths ≠ [])
    (hlen : paths.length = classes.length) :
    ∃ file w p, st.tables = .opened file ∧
      Pool.formatWithClasses st.env (worldOf (created host paths) paths) paths.length classes now = (.ok (), w, some p) ∧
      formatWithClasses st host paths classes redbPath now = (.ok ⟨paths, redbPath, w.disk, p⟩,
        putBack (Function.update (created host paths) redbPath (some file)) paths redbPath w) := by
  have hn : paths.length ≠ 0 := fun h0 => hne (List.length_eq_zero_iff.mp h0)
  obtain ⟨file, hfile⟩ := h.tables
  rcases poolFormat_cases st.env (worldOf (created host paths) paths) now hn hlen with
    ⟨-, w, p, hp⟩ | ⟨hlost, -⟩
  · refine ⟨file, w, p, hfile, hp, ?_⟩
    have hfiles : createFiles st.create 0 paths host = (.ok (), created host paths) := createFiles_of_fresh h.fresh
    unfold formatWithClasses
    rw [if_neg hne, if_neg (not_not.mpr hlen), hfiles]
    dsimp only
    rw [hfile, createTables_opened]
    dsimp only
    rw [hp]
  · exact absurd ⟨h.write, h.sync⟩ hlost

/-- A format that fails on its first path leaves the host as it was. -/
theorem FailsFirst.format_eq (redbPath : Path) (now : UInt64) (h : FailsFirst st host paths)
    (hlen : paths.length = classes.length) :
    ∃ e, formatWithClasses st host paths classes redbPath now = (.err e, host) := by
  unfold formatWithClasses
  cases paths with
  | nil => exact ⟨_, rfl⟩
  | cons path paths =>
      obtain ⟨e, he⟩ := createFiles_of_refused paths (h path rfl)
      rw [if_neg (by simp), if_neg (not_not.mpr hlen), he]
      exact ⟨_, rfl⟩

/-- One that has removed the file it made does, too. -/
theorem TakenBack.format_eq (now : UInt64) (h : TakenBack st host paths redbPath) (hlen : paths.length = classes.length) :
    formatWithClasses st host paths classes redbPath now = (.err .redb, host) := by
  obtain ⟨rfl, hfresh, htables⟩ := h
  have hfiles : createFiles st.create 0 [redbPath] host = (.ok (), created host [redbPath]) := createFiles_of_fresh hfresh
  have hback : Function.update (created host [redbPath]) redbPath none = host := by
    funext q
    by_cases hq : q = redbPath
    · subst hq
      rw [Function.update_self, hfresh.absent q (List.mem_singleton.mpr rfl)]
    · rw [Function.update_of_ne hq]
      exact if_neg (fun hmem => hq (List.mem_singleton.mp hmem))
  unfold formatWithClasses
  rw [if_neg (by simp), if_neg (not_not.mpr hlen), hfiles]
  dsimp only
  rw [htables, createTables_failed, hback]

/-- A disk's file is there after it was written, whatever has its name. -/
theorem isSome_putBack {q : Path} {w : World} (hq : q ∈ paths) (htables : (host redbPath).isSome) :
    (putBack host paths redbPath w q).isSome := by
  unfold putBack
  split
  · rfl
  · rename_i hnot
    obtain rfl : q = redbPath := by
      by_contra hne
      exact hnot ⟨hq, hne⟩
    exact htables

/-- Any other format fails, and leaves a file that was not there. -/
theorem format_leaves_file {path : Path} {rest : List Path} (now : UInt64) (habsent : host path = none)
    (hout : st.create 0 ≠ .refused) (hstop : ¬GoesThrough st host (path :: rest))
    (hstays : ¬TakenBack st host (path :: rest) redbPath) (hlen : (path :: rest).length = classes.length) :
    ∃ e q, (formatWithClasses st host (path :: rest) classes redbPath now).1 = .err e ∧ host q = none ∧
      ((formatWithClasses st host (path :: rest) classes redbPath now).2 q).isSome := by
  have hfile := isSome_createFiles rest habsent hout
  unfold formatWithClasses
  rw [if_neg (by simp), if_neg (not_not.mpr hlen)]
  generalize hfiles : createFiles st.create 0 (path :: rest) host = out at hfile ⊢
  obtain ⟨res, host₁⟩ := out
  cases res with
  | error e => exact ⟨e, path, rfl, habsent, hfile⟩
  | ok u =>
      have hfresh : Fresh st.create 0 host (path :: rest) := createFiles_eq_ok (by rw [hfiles])
      obtain rfl : host₁ = created host (path :: rest) :=
        (Prod.mk.inj (hfiles.symm.trans (createFiles_of_fresh hfresh))).2
      dsimp only
      cases htables : st.tables with
      | failed left =>
          rw [createTables_failed]
          by_cases hpath : path = redbPath
          · subst hpath
            cases rest with
            | nil =>
                -- there is no other disk: what stays is what the tables left
                cases left with
                | none => exact absurd ⟨rfl, hfresh, htables⟩ hstays
                | some d => exact ⟨_, path, rfl, habsent, by simp⟩
            | cons q rest =>
                have hne : q ≠ path := by
                  rintro rfl
                  exact (List.nodup_cons.mp hfresh.nodup).1 List.mem_cons_self
                exact ⟨_, q, rfl, hfresh.absent q (by simp), by simp [hne, created]⟩
          · exact ⟨_, path, rfl, habsent, by simp [hpath, created]⟩
      | opened file =>
          rw [createTables_opened]
          dsimp only
          rcases poolFormat_cases st.env (worldOf (created host (path :: rest)) (path :: rest)) now (by simp) hlen with
            ⟨hok, -⟩ | ⟨-, e, w, hp⟩
          · exact absurd ⟨hfresh, ⟨file, htables⟩, hok.1, hok.2⟩ hstop
          · rw [hp]
            exact ⟨_, path, rfl, habsent, isSome_putBack List.mem_cons_self (by simp)⟩

/-- A call that fails has left the host as it was. -/
def LeavesHost (host : Host Path) (out : Res (HostError Path) (Session Path) × Host Path) : Prop :=
  ∀ e, out.1 = .err e → out.2 = host

/-- **A failed format leaves the host as it was** exactly if it failed on its first path, or did not fail at all, or the only
    file it made was removed again. -/
theorem format_leaves_host_iff (st : Setting) (host : Host Path) (paths : List Path) (classes : List DiskClass)
    (redbPath : Path) (now : UInt64) (hlen : paths.length = classes.length) :
    LeavesHost host (formatWithClasses st host paths classes redbPath now) ↔
      FailsFirst st host paths ∨ GoesThrough st host paths ∨ TakenBack st host paths redbPath := by
  constructor
  · intro hleaves
    by_cases hfirst : FailsFirst st host paths
    · exact Or.inl hfirst
    · right
      by_contra hneither
      obtain ⟨hstop, hstays⟩ := not_or.mp hneither
      obtain ⟨path, rest, rfl⟩ : ∃ path rest, paths = path :: rest := by
        cases paths with
        | nil => exact absurd (fun path hpath => by cases hpath) hfirst
        | cons path rest => exact ⟨path, rest, rfl⟩
      have hnot : ¬((host path).isSome ∨ st.create 0 = .refused) := by
        intro h
        refine hfirst fun q hq => ?_
        obtain rfl := Option.some.inj hq
        exact h
      obtain ⟨hexists, hout⟩ := not_or.mp hnot
      have habsent : host path = none := Option.not_isSome_iff_eq_none.mp hexists
      obtain ⟨e, q, herr, hq, hfile⟩ := format_leaves_file now habsent hout hstop hstays hlen
      rw [hleaves e herr, hq] at hfile
      cases hfile
  · rintro (hfirst | hthrough | htaken) e he
    · obtain ⟨e', heq⟩ := hfirst.format_eq redbPath now hlen
      rw [heq]
    · by_cases hne : paths = []
      · subst hne
        rfl
      · obtain ⟨file, w, p, -, -, heq⟩ := hthrough.format_eq redbPath now hne hlen
        rw [heq] at he
        cases he
    · rw [htaken.format_eq now hlen]

/-! ## A pool with one member missing -/

/-- Nothing goes wrong outside the program; what the tables' file holds is nobody's concern. -/
def Setting.calm : Setting := ⟨fun _ => .done, .opened (.create 0), Env.healthy MetaStore.listOrder⟩

/-- A host with one file. -/
def oneFile (path : String) (d : FileDisk) : Host String := Function.update (fun _ => none) path (some d)

/-- The theorem where the second of two members is missing: the first conflict is met before anything is created. -/
theorem format_leaves_host_secondMissing :
    LeavesHost (oneFile "a.img" (.create 7))
      (formatWithClasses .calm (oneFile "a.img" (.create 7)) ["a.img", "b.img"] [.hdd, .hdd] "a.redb" 0) := by
  refine (format_leaves_host_iff .calm (oneFile "a.img" (.create 7)) ["a.img", "b.img"] [.hdd, .hdd] "a.redb" 0 rfl).mpr
    (Or.inl ?_)
  intro path hpath
  obtain rfl := Option.some.inj hpath
  exact Or.inl rfl

/-- Where the first of two members is missing, a blank file stands in its place afterwards: all paths exist. -/
theorem format_replaces_missing :
    let out := formatWithClasses .calm (oneFile "b.img" (.create 7)) ["a.img", "b.img"] [.hdd, .hdd] "a.redb" 0
    out.1 = .err (.alreadyExists "b.img") ∧ out.2 "a.img" = some (.create diskFileCapacityBytes) ∧
      oneFile "b.img" (.create 7) "a.img" = none ∧ ¬LeavesHost (oneFile "b.img" (.create 7)) out := by
  have herr : (formatWithClasses .calm (oneFile "b.img" (.create 7)) ["a.img", "b.img"] [.hdd, .hdd] "a.redb" 0).1 =
      .err (.alreadyExists "b.img") := by
    simp [formatWithClasses, createFiles, createFile, oneFile, Setting.calm]
  have hfile : (formatWithClasses .calm (oneFile "b.img" (.create 7)) ["a.img", "b.img"] [.hdd, .hdd] "a.redb" 0).2
      "a.img" = some (.create diskFileCapacityBytes) := by
    simp [formatWithClasses, createFiles, createFile, oneFile, Setting.calm]
  have habsent : oneFile "b.img" (.create 7) "a.img" = none := by simp [oneFile]
  refine ⟨herr, hfile, habsent, ?_⟩
  intro hleaves
  rw [hleaves _ herr, habsent] at hfile
  cases hfile

end Format

end Tartine.Daemon
