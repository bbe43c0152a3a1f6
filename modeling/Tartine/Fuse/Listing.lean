import Tartine.Fuse.Requests
import Tartine.Meta.Directory

/-!
# `Fuse.Listing` — a directory listed page by page, while it changes

A client reads a directory in several `readdir` calls, each from the offset of the last entry it got. The offset is a
**position** in a list the handler rebuilds at every call: `.`, `..`, and the directory's names in order. A change before
the position shifts what is behind it, so a name can be skipped, or returned again. `Listing` is such a listing, with the
creates and unlinks that come between its calls:

* `readdir_entries` — one page is the numbered names from the offset on;
* `Listing.pages` — as long as every change is ahead of the position, what was returned is the directory up to there;
* `listing_complete` — so at the end every name that was there all the time has been returned once.
-/

namespace Tartine.Fuse

open Basis View

variable {env : Env} {w w' : World} {p p' : Pool} {ino parent : InodeId}

/-! ## One page -/

/-- An entry of a reply: the inode, the offset to resume at, the kind and the name. -/
abbrev Entry := InodeId × Nat × FileType × String

/-- The name and the position of an entry. -/
def mark (e : Entry) : Bytes × Nat := (nameBytes e.2.2.2, e.2.1)

/-- What a `readdir` of the whole directory would return, by name and position. -/
def numbered (v : View) (ino : InodeId) : List (Bytes × Nat) :=
  (nameBytes "." :: nameBytes ".." :: v.children ino).zipIdx 1

theorem take_zipIdx {α : Type} (l : List α) (i k : Nat) : (l.zipIdx i).take k = (l.take k).zipIdx i := by
  induction l generalizing i k with
  | nil => simp
  | cons a l ih =>
      cases k with
      | zero => rfl
      | succ k => rw [List.zipIdx_cons, List.take_succ_cons, List.take_succ_cons, List.zipIdx_cons, ih]

/-- **One page**: the entries from the offset on. The directory stays as it is. -/
theorem readdir_entries {offset : UInt64} {room : Nat} {entries : List Entry}
    (h : readdir ino offset room (w, p) = (.ok (.dir entries), w', p')) :
    (w', p') = (w, p) ∧
      entries.map mark = ((numbered p.metaStore.view ino).drop offset.toNat).take room := by
  obtain ⟨hread, hs⟩ := Action.reads_eq_ok.mp h
  refine ⟨hs, ?_⟩
  dsimp only at hread
  split at hread
  · cases hread
  · cases hread
  · rename_i children hchildren
    obtain ⟨kinds, hkinds, hdir⟩ := Res.bind_eq_ok.mp hread
    have hentries := Reply.dir.inj (Res.ok.inj hdir)
    -- looking up the kinds keeps the names and their order
    have hnames : kinds.map (fun e => nameBytes e.2.2) = p.metaStore.view.children ino := by
      rw [← readdir_names hchildren]
      have hall := (Res.forall₂_of_mapM hkinds).imp (S := fun c e => nameBytes c.1 = nameBytes e.2.2) ?_
      · have heq := List.forall₂_map_left_iff.mpr (List.forall₂_map_right_iff.mpr hall)
        rw [List.forall₂_eq_eq_eq] at heq
        exact heq.symm
      · rintro ⟨name, child⟩ e he
        dsimp only at he
        split at he
        · obtain rfl := Res.ok.inj he; rfl
        · cases he
        · obtain rfl := Res.ok.inj he; rfl
    rw [← hentries, List.map_take, List.map_drop, List.map_map]
    unfold numbered
    rw [← hnames, show nameBytes "." :: nameBytes ".." :: kinds.map (fun e => nameBytes e.2.2) =
      ([(ino, FileType.directory, "."), (ino, FileType.directory, "..")] ++ kinds).map (fun e => nameBytes e.2.2) from rfl,
      List.zipIdx_map, List.zipIdx_succ, List.map_map]
    rfl

/-! ## Listings -/

/-- A request of a listing: the position the listing has reached, and the tables the request finds. -/
structure Moment where
  cursor : Nat
  view : View
  req : Request

/-- The request creates or unlinks a name. -/
def Request.IsChange : Request → Prop
  | .create .. => True
  | .unlink .. => True
  | _          => False

/-- A listing of the directory `ino`: calls that each resume at the offset of the last entry returned and return some
    entries, and between them creates and unlinks, whatever these meet. With it the position reached, the entries got and
    the requests made. -/
inductive Listing (ino : InodeId) : World → Pool → Nat → List Entry → List Moment → Prop where
  | start (w : World) (p : Pool) : Listing ino w p 0 [] []
  | page {env w p cursor got trace offset room entries w' p'} (hl : Listing ino w p cursor got trace)
      (hoffset : offset.toNat = cursor) (hne : entries ≠ [])
      (h : handle env (.readdir ino offset room) (w, p) = (.ok (.dir entries), w', p')) :
      Listing ino w' p' (entries.getLast hne).2.1 (got ++ entries)
        (trace ++ [⟨cursor, p.metaStore.view, .readdir ino offset room⟩])
  -- the listing has begun: what changed before its first call is not its concern
  | change {env w p cursor got trace req r w' p'} (hl : Listing ino w p cursor got trace) (hbegun : got ≠ [])
      (hreq : req.IsChange) (h : handle env req (w, p) = (r, w', p')) (hr : r ≠ .panic) :
      Listing ino w' p' cursor got (trace ++ [⟨cursor, p.metaStore.view, req⟩])

/-- The names returned for entries of the directory: `.` and `..` are at the first two positions. -/
def childNames (got : List Entry) : List String := (got.filter fun e => 2 < e.2.1).map (·.2.2.2)

/-- Every name that was there at all of these requests has been returned once. -/
def Complete (ino : InodeId) (got : List Entry) (trace : List Moment) : Prop :=
  ∀ name, (∀ m ∈ trace, (m.view.lookup ino name).isSome) → (childNames got).count name = 1

/-- A name of the directory that is created or unlinked has its place at or after the position reached: `cursor - 2` names
    have been returned, and at least as many come before it. -/
def Moment.Ahead (ino : InodeId) (m : Moment) : Prop :=
  match m.req with
  | .create parent name .. =>
      parent = ino → name ∉ m.view.children ino → m.cursor - 2 ≤ rank compare name (m.view.children ino)
  | .unlink parent name =>
      parent = ino → name ∈ m.view.children ino → m.cursor - 2 ≤ rank compare name (m.view.children ino)
  | _ => True

/-! ## What a change does to the directory -/

variable {r : Res Errno Reply} {name : Bytes} {k : Nat}

theorem view_applyMeta {op : MetaOp} {q : Res PoolError Unit} (h : Pool.applyMeta env op (w, p) = (q, w', p')) :
    p'.metaStore.view = p.metaStore.view ∨ p.metaStore.view.applyLocally op = .ok p'.metaStore.view := by
  obtain ⟨res, s', happly, -, rfl⟩ := Pool.applyMeta_cases h
  exact MetaStore.view_apply happly

/-- Creating a file adds its name, if anything. -/
theorem mem_children_createFile {name : String} {redundancy : RedundancyScheme} {uid gid unixMode : UInt32} {now : UInt64}
    {q : Res PoolError InodeId} {b : Bytes}
    (h : Pool.createFile env parent name redundancy uid gid unixMode now (w, p) = (q, w', p')) (hq : q ≠ .panic)
    (hne : parent = ino → b ≠ nameBytes name) :
    b ∈ p'.metaStore.view.children ino ↔ b ∈ p.metaStore.view.children ino := by
  obtain ⟨id, s₁, halloc, hrest⟩ := Pool.createFile_cases h hq
  have hdirs : s₁.view.dirs = p.metaStore.view.dirs := by
    obtain ⟨next, -, hs⟩ := Res.bind_eq_ok.mp halloc
    obtain rfl := (Prod.mk.inj (Res.ok.inj hs)).2
    rfl
  have hcreate : ∀ {u : View}, u = s₁.view ∨ s₁.view.applyLocally
      (.createInode (Pool.newFile id redundancy uid gid unixMode now)) = .ok u → u.dirs = p.metaStore.view.dirs := by
    rintro u (rfl | hu)
    · exact hdirs
    · exact (dirs_createInode hu).trans hdirs
  rcases hrest with ⟨e, -, hmk⟩ | ⟨w₂, s₂, hmk, res, hlink, -⟩
  · rw [children_eq_of_dirs (hcreate (view_applyMeta hmk))]
  · have hmid : s₂.view.children ino = p.metaStore.view.children ino :=
      children_eq_of_dirs (hcreate (MetaStore.view_apply hmk))
    rcases view_applyMeta hlink with hsame | hlinked
    · rw [hsame, hmid]
    · rw [mem_children_link hlinked hne, hmid]

/-- Two ascending lists of the same names. -/
theorem children_congr {u v : View} (h : ∀ b, b ∈ u.children ino ↔ b ∈ v.children ino) : u.children ino = v.children ino :=
  (ascending_children u ino).eq_of_mem_iff (ascending_children v ino) h

/-- A change of one name leaves the names before its place where they are. -/
theorem take_children {u v : View} (hmem : ∀ b, (parent = ino → b ≠ name) → (b ∈ u.children ino ↔ b ∈ v.children ino))
    (hrank : parent = ino → k ≤ rank compare name (v.children ino)) :
    (u.children ino).take k = (v.children ino).take k := by
  by_cases hparent : parent = ino
  · exact (ascending_children v ino).take_eq (ascending_children u ino) (fun b hb => hmem b fun _ => hb) (hrank hparent)
  · rw [children_congr fun b => hmem b fun heq => absurd heq hparent]

theorem take_children_create {mode uid gid : UInt32} {now : UInt64}
    (h : create env parent name mode uid gid now (w, p) = (r, w', p')) (hr : r ≠ .panic)
    (hahead : parent = ino → name ∉ p.metaStore.view.children ino →
      k ≤ rank compare name (p.metaStore.view.children ino)) :
    (p'.metaStore.view.children ino).take k = (p.metaStore.view.children ino).take k := by
  rcases create_cases h hr with hs | ⟨name', q, hname, hfree, hcreate, hq⟩
  · obtain ⟨rfl, rfl⟩ := Prod.mk.inj hs
    rfl
  · obtain rfl := nameBytes_of_fromUTF8? hname
    refine take_children (fun b hb => mem_children_createFile hcreate hq hb) fun hparent => hahead hparent ?_
    rw [← hparent, ← lookup_isSome, hfree]
    simp

theorem take_children_unlink (h : unlink env parent name (w, p) = (r, w', p')) (hr : r ≠ .panic)
    (hahead : parent = ino → name ∈ p.metaStore.view.children ino →
      k ≤ rank compare name (p.metaStore.view.children ino)) :
    (p'.metaStore.view.children ino).take k = (p.metaStore.view.children ino).take k := by
  rcases unlink_cases h hr with hs | ⟨name', q, hname, hunlink, hq⟩
  · obtain ⟨rfl, rfl⟩ := Prod.mk.inj hs
    rfl
  · obtain rfl := nameBytes_of_fromUTF8? hname
    rcases view_applyMeta hunlink with hsame | hlocal
    · rw [hsame]
    · by_cases hthere : nameBytes name' ∈ p.metaStore.view.children ino
      · exact take_children (fun b hb => mem_children_unlink hlocal hb) fun hparent => hahead hparent hthere
      · -- there was nothing to unlink
        rw [children_congr fun b => ?_]
        refine ⟨children_unlink_subset hlocal, fun hb => (mem_children_unlink hlocal fun _ heq => ?_).mpr hb⟩
        exact hthere (heq ▸ hb)

/-- **Step lemma**: a change ahead of the position leaves what is before it as it was. -/
theorem take_numbered_change {req : Request} {cursor : Nat} (h : handle env req (w, p) = (r, w', p')) (hr : r ≠ .panic)
    (hreq : req.IsChange) (hahead : (⟨cursor, p.metaStore.view, req⟩ : Moment).Ahead ino) :
    (numbered p'.metaStore.view ino).take cursor = (numbered p.metaStore.view ino).take cursor := by
  have htake : (p'.metaStore.view.children ino).take (cursor - 2) = (p.metaStore.view.children ino).take (cursor - 2) := by
    cases req with
    | create parent name mode uid gid now => exact take_children_create h hr hahead
    | unlink parent name => exact take_children_unlink h hr hahead
    | lookup _ _ | getattr _ | setattr _ _ | read _ _ _ | write _ _ _ | readdir _ _ _ | ioctl _ _ _ => exact hreq.elim
  unfold numbered
  rw [take_zipIdx, take_zipIdx]
  have hsplit : ∀ l : List Bytes, (nameBytes "." :: nameBytes ".." :: l).take cursor =
      [nameBytes ".", nameBytes ".."].take cursor ++ l.take (cursor - 2) := fun l => (List.take_append : ([_, _] ++ l).take cursor = _)
  rw [hsplit (p'.metaStore.view.children ino), hsplit (p.metaStore.view.children ino), htake]

/-! ## What a listing has returned -/

/-- The page after a position: the entries there, and the position after them. -/
theorem page_spec {v : View} {entries : List Entry} {cursor room : Nat}
    (h : entries.map mark = ((numbered v ino).drop cursor).take room) (hne : entries ≠ []) :
    (numbered v ino).take cursor ++ entries.map mark = (numbered v ino).take (cursor + entries.length) ∧
      (entries.getLast hne).2.1 = cursor + entries.length := by
  have hlen : entries.length = min room ((numbered v ino).length - cursor) := by
    rw [← List.length_map mark, h, List.length_take, List.length_drop]
  constructor
  · rw [h, ← List.take_add, List.take_eq_take_iff]
    omega
  · have hpos : 0 < entries.length := List.length_pos_iff.mpr hne
    have hlast : (entries.map mark)[entries.length - 1]? = some (mark (entries.getLast hne)) := by
      rw [List.getElem?_map, List.getLast_eq_getElem, List.getElem?_eq_getElem (by omega)]
      rfl
    rw [h, List.getElem?_take, if_pos (by omega), List.getElem?_drop, numbered, List.getElem?_zipIdx] at hlast
    obtain ⟨name, -, hname⟩ := Option.map_eq_some_iff.mp hlast
    have hsnd : 1 + (cursor + (entries.length - 1)) = (entries.getLast hne).2.1 := congrArg Prod.snd hname
    omega

/-- **Run lemma**: what was returned is the directory up to the position reached. -/
theorem Listing.pages {cursor : Nat} {got : List Entry} {trace : List Moment} (hl : Listing ino w p cursor got trace)
    (hahead : ∀ m ∈ trace, m.Ahead ino) :
    got.length = cursor ∧ got.map mark = (numbered p.metaStore.view ino).take cursor := by
  induction hl with
  | start w p => exact ⟨rfl, rfl⟩
  | @page env w p cursor got trace offset room entries w' p' hl hoffset hne h ih =>
      obtain ⟨hlen, hgot⟩ := ih fun m hm => hahead m (List.mem_append_left _ hm)
      obtain ⟨hs, hentries⟩ := readdir_entries h
      obtain ⟨rfl, rfl⟩ := Prod.mk.inj hs
      rw [hoffset] at hentries
      obtain ⟨htake, hlast⟩ := page_spec hentries hne
      rw [List.length_append, List.map_append, hgot, hlast, htake, hlen]
      exact ⟨rfl, rfl⟩
  | @change env w p cursor got trace req r w' p' hl hbegun hreq h hr ih =>
      obtain ⟨hlen, hgot⟩ := ih fun m hm => hahead m (List.mem_append_left _ hm)
      have hthis := hahead _ (List.mem_append_right trace (List.mem_singleton.mpr rfl))
      exact ⟨hlen, hgot.trans (take_numbered_change h hr hreq hthis).symm⟩

/-- The names of the children, when everything was returned. -/
theorem childNames_of_all {v : View} {got : List Entry} (h : got.map mark = numbered v ino) :
    (childNames got).map nameBytes = v.children ino := by
  obtain ⟨dot, got, rfl, hdot, h⟩ := List.map_eq_cons_iff.mp h
  obtain ⟨dotdot, got, rfl, hdotdot, h⟩ := List.map_eq_cons_iff.mp h
  have hdot : dot.2.1 = 1 := congrArg Prod.snd hdot
  have hdotdot : dotdot.2.1 = 2 := congrArg Prod.snd hdotdot
  have hrest : ∀ e ∈ got, 2 < e.2.1 := by
    intro e he
    have hmem := List.mem_map_of_mem (f := mark) he
    rw [h] at hmem
    exact List.le_snd_of_mem_zipIdx hmem
  unfold childNames
  rw [List.filter_cons_of_neg (by simp [hdot]), List.filter_cons_of_neg (by simp [hdotdot]),
    List.filter_eq_self.mpr (fun e he => decide_eq_true (hrest e he)), List.map_map]
  calc got.map (nameBytes ∘ fun e => e.2.2.2)
      = (got.map mark).map Prod.fst := by rw [List.map_map]; rfl
    _ = v.children ino := by rw [h, List.zipIdx_map_fst]

/-- **A listing is complete** if every change of the directory it meets is ahead of the position it has reached: at the
    call that returns nothing more, every name that was there at every request has been returned once. -/
theorem listing_complete {cursor room : Nat} {got : List Entry} {trace : List Moment} {offset : UInt64}
    (hl : Listing ino w p cursor got trace) (hoffset : offset.toNat = cursor) (hroom : 0 < room)
    (hend : handle env (.readdir ino offset room) (w, p) = (.ok (.dir []), w', p'))
    (hahead : ∀ m ∈ trace, m.Ahead ino) :
    Complete ino got (trace ++ [⟨cursor, p.metaStore.view, .readdir ino offset room⟩]) := by
  intro name hthere
  obtain ⟨hlen, hgot⟩ := hl.pages hahead
  obtain ⟨-, hempty⟩ := readdir_entries hend
  have hall : got.map mark = numbered p.metaStore.view ino := by
    rw [hgot, List.take_of_length_le]
    have hzero := congrArg List.length hempty
    rw [List.map_nil, List.length_take, List.length_drop, hoffset, List.length_nil] at hzero
    omega
  have hlast := hthere _ (List.mem_append_right trace (List.mem_singleton.mpr rfl))
  rw [lookup_isSome, ← childNames_of_all hall] at hlast
  have hnodup : (childNames got).Nodup := by
    have := (ascending_children p.metaStore.view ino).nodup
    rw [← childNames_of_all hall] at this
    exact this.of_map nameBytes
  exact List.count_eq_one_of_mem hnodup ((List.mem_map_of_injective nameBytes_injective).mp hlast)

/-! ## Three files -/

/-- The requests of a listing in two pages, with a file unlinked between them. -/
def unlinkTrace (b : UInt8) (s s' : World × Pool) : List Moment :=
  [⟨0, s.2.metaStore.view, .readdir rootInode 0 3⟩, ⟨3, s.2.metaStore.view, .unlink rootInode [b]⟩,
    ⟨3, s'.2.metaStore.view, .readdir rootInode 3 5⟩]

/-- The first page of three entries, the last of them `a`. -/
def firstPage : List Entry := [(1, 1, .directory, "."), (1, 2, .directory, ".."), (2, 3, .regularFile, "a")]

theorem readdir_of_fst {s : World × Pool} {offset : UInt64} {room : Nat} {entries : List Entry}
    (h : (readdir ino offset room s).1 = .ok (.dir entries)) : readdir ino offset room s = (.ok (.dir entries), s) :=
  Prod.ext h rfl

theorem unlink_listing {b : UInt8} {e : Entry} {s s' : World × Pool} {reply : Reply}
    (hfirst : (readdir rootInode 0 3 s).1 = .ok (.dir firstPage))
    (hunlink : unlink (Env.healthy MetaStore.listOrder) rootInode [b] s = (.ok reply, s'))
    (hpage : (readdir rootInode 3 5 s').1 = .ok (.dir [e])) :
    Listing rootInode s'.1 s'.2 e.2.1 (firstPage ++ [e]) (unlinkTrace b s s') := by
  obtain ⟨w, p⟩ := s
  obtain ⟨w', p'⟩ := s'
  have hfirst : handle (Env.healthy MetaStore.listOrder) (.readdir rootInode 0 3) (w, p) = (.ok (.dir firstPage), w, p) :=
    readdir_of_fst hfirst
  have hpage : handle (Env.healthy MetaStore.listOrder) (.readdir rootInode 3 5) (w', p') = (.ok (.dir [e]), w', p') :=
    readdir_of_fst hpage
  have h₁ : Listing rootInode w p 3 firstPage _ := .page (.start w p) rfl (by decide) hfirst
  have h₂ : Listing rootInode w' p' 3 firstPage _ :=
    .change h₁ (by decide) (show (Request.unlink rootInode [b]).IsChange from trivial) hunlink (by simp)
  exact .page h₂ rfl (by simp) hpage

/-- A pool with the files `a`, `b` and `c` in its root. -/
def threeFiles : World × Pool := [97, 98, 99].foldl
  (fun s b => (create (Env.healthy MetaStore.listOrder) rootInode [b] 0o644 0 0 0 s).2) Pool.onDisk

/-- The same pool after a file was unlinked. -/
def unlinked (b : UInt8) : World × Pool := (unlink (Env.healthy MetaStore.listOrder) rootInode [b] threeFiles).2

theorem readdir_threeFiles : (readdir rootInode 0 3 threeFiles).1 = .ok (.dir firstPage) := by decide +kernel

theorem unlink_threeFiles {b : UInt8}
    (h : (unlink (Env.healthy MetaStore.listOrder) rootInode [b] threeFiles).1 = .ok .ok) :
    unlink (Env.healthy MetaStore.listOrder) rootInode [b] threeFiles = (.ok .ok, unlinked b) :=
  Prod.ext h rfl

/-- The theorem at a listing that meets an unlink ahead of it. -/
theorem listing_complete_unlink_last : Complete rootInode (firstPage ++ [(3, 4, .regularFile, "b")])
    (unlinkTrace 99 threeFiles (unlinked 99) ++ [⟨4, (unlinked 99).2.metaStore.view, .readdir rootInode 4 5⟩]) := by
  have hpage : (readdir rootInode 3 5 (unlinked 99)).1 = .ok (.dir [(3, 4, .regularFile, "b")]) := by decide +kernel
  have hend : (readdir rootInode 4 5 (unlinked 99)).1 = .ok (.dir []) := by decide +kernel
  have hrank : 3 - 2 ≤ rank compare [99] (threeFiles.2.metaStore.view.children rootInode) := by decide +kernel
  have hunlink := unlink_threeFiles (b := 99) (by decide +kernel)
  have hfirst := readdir_threeFiles
  generalize threeFiles = s at hrank hunlink hfirst ⊢
  generalize unlinked 99 = s' at hpage hend hunlink ⊢
  have hend : handle (Env.healthy MetaStore.listOrder) (.readdir rootInode 4 5) s' = (.ok (.dir []), s') :=
    readdir_of_fst hend
  refine listing_complete (unlink_listing hfirst hunlink hpage) rfl (by decide) hend ?_
  simp only [unlinkTrace, List.forall_mem_cons]
  exact ⟨trivial, fun _ _ => hrank, trivial, by simp⟩

/-- The file listed last is unlinked, and the listing skips the next one: `b` is there all the time and never returned. -/
theorem unlink_hides_name :
    Listing rootInode (unlinked 97).1 (unlinked 97).2 4 (firstPage ++ [(4, 4, .regularFile, "c")])
      (unlinkTrace 97 threeFiles (unlinked 97)) ∧
    (readdir rootInode 4 5 (unlinked 97)).1 = .ok (.dir []) ∧
    ¬Complete rootInode (firstPage ++ [(4, 4, .regularFile, "c")])
      (unlinkTrace 97 threeFiles (unlinked 97) ++ [⟨4, (unlinked 97).2.metaStore.view, .readdir rootInode 4 5⟩]) := by
  have hpage : (readdir rootInode 3 5 (unlinked 97)).1 = .ok (.dir [(4, 4, .regularFile, "c")]) := by decide +kernel
  have hend : (readdir rootInode 4 5 (unlinked 97)).1 = .ok (.dir []) := by decide +kernel
  have hunlink := unlink_threeFiles (b := 97) (by decide +kernel)
  have hfirst := readdir_threeFiles
  have hbefore : (threeFiles.2.metaStore.view.lookup rootInode "b").isSome := by decide +kernel
  have hafter : ((unlinked 97).2.metaStore.view.lookup rootInode "b").isSome := by decide +kernel
  generalize threeFiles = s at hunlink hfirst hbefore ⊢
  generalize unlinked 97 = s' at hpage hend hunlink hafter ⊢
  refine ⟨unlink_listing hfirst hunlink hpage, hend, fun hcomplete => ?_⟩
  have hb := hcomplete "b" (by
    simp only [unlinkTrace, List.cons_append, List.nil_append, List.forall_mem_cons]
    exact ⟨hbefore, hbefore, hafter, hafter, by simp⟩)
  revert hb
  decide

end Tartine.Fuse
