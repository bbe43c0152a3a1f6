import Tartine.Basis.Ordered
import Tartine.Meta.PoolStep

/-!
# `Meta.Directory` — the names of a directory, in the table's order

All directories share one table, keyed by the parent's number and the name. `children` is the part of it that belongs to
one directory: the names, as bytes, ascending. It is what `lookup` finds a name in and what `readdir` walks through:

* `lookup_isSome` — a name is found exactly if it is one of the children;
* `readdir_names` — a `readdir` that succeeds returns them, all of them and in order;
* `mem_children_link`, `mem_children_unlink` — an operation on the tables adds or removes the one name it is about;
* `directory_map` — after any links and unlinks, `lookup` finds the child of the last link of the name, and `readdir` is
  what `lookup` finds.
-/

namespace Tartine

open Basis

/-- A name as the table stores it. -/
def nameBytes (name : String) : Bytes := name.toUTF8.data.toList

theorem nameBytes_injective : Function.Injective nameBytes := by
  intro a b h
  have hdata : a.toUTF8.data = b.toUTF8.data := Array.toList_inj.mp h
  exact String.toByteArray_inj.mp (ByteArray.ext hdata)

theorem nameBytes_of_fromUTF8? {bs : Bytes} {name : String} (h : String.fromUTF8? ⟨bs.toArray⟩ = some name) :
    nameBytes name = bs := by
  unfold String.fromUTF8? at h
  split at h
  · obtain rfl := Option.some.inj h
    rfl
  · cases h

theorem fromUTF8?_nameBytes (name : String) : String.fromUTF8? ⟨(nameBytes name).toArray⟩ = some name := by
  have hbytes : (⟨(nameBytes name).toArray⟩ : ByteArray) = name.toUTF8 := by
    rw [nameBytes, Array.toArray_toList]
  rw [hbytes, String.fromUTF8?, String.toUTF8_eq_toByteArray, dif_pos name.isValidUTF8]
  rfl

namespace View

variable {v u : View} {parent ino : InodeId} {name : String} {b : Bytes}

/-- The first eight bytes of every key of a directory. -/
def dirPrefix (parent : InodeId) : Bytes := leBytes 8 parent.toNat

/-- The names of a directory's entries, ascending. -/
def children (v : View) (parent : InodeId) : List Bytes :=
  (v.dirs.keys.filter fun key => (dirPrefix parent).isPrefixOf key).map (·.drop 8)

theorem length_dirPrefix (parent : InodeId) : (dirPrefix parent).length = 8 := length_leBytes 8 _

theorem dirPrefix_injective : Function.Injective dirPrefix := by
  intro a c h
  have hnat := congrArg leNat h
  unfold dirPrefix at hnat
  rw [leNat_leBytes_of_lt a.toNat_lt, leNat_leBytes_of_lt c.toNat_lt] at hnat
  exact UInt64.toNat_inj.mp hnat

/-- Two keys are one exactly if the directory and the name are. -/
theorem key_inj {a c : InodeId} {x y : Bytes} : dirPrefix a ++ x = dirPrefix c ++ y ↔ a = c ∧ x = y := by
  constructor
  · intro h
    obtain ⟨hpre, hname⟩ := List.append_inj h (by rw [length_dirPrefix, length_dirPrefix])
    exact ⟨dirPrefix_injective hpre, hname⟩
  · rintro ⟨rfl, rfl⟩
    rfl

theorem key_ne {x : Bytes} (hne : parent = ino → b ≠ x) : dirPrefix parent ++ x ≠ dirPrefix ino ++ b := by
  intro heq
  obtain ⟨hino, hb⟩ := key_inj.mp heq
  exact hne hino hb.symm

theorem mem_children : b ∈ v.children parent ↔ dirPrefix parent ++ b ∈ v.dirs := by
  unfold children
  simp only [List.mem_map, List.mem_filter, Std.ExtTreeMap.mem_keys, List.isPrefixOf_iff_prefix]
  constructor
  · rintro ⟨key, ⟨hkey, t, rfl⟩, rfl⟩
    rwa [List.drop_left' (length_dirPrefix parent)]
  · intro hkey
    exact ⟨_, ⟨hkey, List.prefix_append _ _⟩, List.drop_left' (length_dirPrefix parent)⟩

theorem lookup_isSome : (v.lookup parent name).isSome ↔ nameBytes name ∈ v.children parent := by
  rw [mem_children]
  exact Std.ExtTreeMap.isSome_getElem?_iff_mem

theorem ascending_keys (v : View) : Ascending compare v.dirs.keys := Std.ExtTreeMap.ordered_keys

theorem ascending_children (v : View) (parent : InodeId) : Ascending compare (v.children parent) := by
  unfold children
  refine List.pairwise_map.mpr ((v.ascending_keys.filter _).imp_of_mem ?_)
  intro a c ha hc hlt
  obtain ⟨s, rfl⟩ := List.isPrefixOf_iff_prefix.mp (List.mem_filter.mp ha).2
  obtain ⟨t, rfl⟩ := List.isPrefixOf_iff_prefix.mp (List.mem_filter.mp hc).2
  rw [compare_append_left] at hlt
  rwa [List.drop_left' (length_dirPrefix parent), List.drop_left' (length_dirPrefix parent)]

/-! ## Reading a directory -/

theorem dirName_eq_ok {e : Bytes × InodeId} {c : String × InodeId} (h : dirName e = .ok c) :
    nameBytes c.1 = e.1.drop 8 := by
  unfold dirName at h
  split at h
  · cases h
  · rename_i name hname
    obtain rfl := Res.ok.inj h
    exact nameBytes_of_fromUTF8? hname

/-- The walk from the directory's prefix to the first key without it passes every key that has it. -/
theorem walk_eq_filter (v : View) (parent : InodeId) :
    (v.dirs.toList.dropWhile fun e => compare e.1 (dirPrefix parent) == .lt).takeWhile
        (fun e => (dirPrefix parent).isPrefixOf e.1) =
      v.dirs.toList.filter fun e => (dirPrefix parent).isPrefixOf e.1 := by
  have hsorted : v.dirs.toList.Pairwise fun a b => compare a.1 b.1 = .lt := Std.ExtTreeMap.ordered_keys_toList
  refine takeWhile_dropWhile_eq_filter ?_ (hsorted.imp ?_) (hsorted.imp ?_)
  · intro a _ hlt hpre
    exact not_lt_of_isPrefix (List.isPrefixOf_iff_prefix.mp hpre) (beq_iff_eq.mp hlt)
  · intro a b hab hb
    exact beq_iff_eq.mpr (Std.TransCmp.lt_trans hab (beq_iff_eq.mp hb))
  · intro a b hab hge hb
    have hge : compare a.1 (dirPrefix parent) ≠ .lt := fun h => hge (beq_iff_eq.mpr h)
    exact List.isPrefixOf_iff_prefix.mpr (isPrefix_of_between hge hab (List.isPrefixOf_iff_prefix.mp hb))

/-- **A `readdir` that succeeds returns the directory's names**, in order. -/
theorem readdir_names {cs : List (String × InodeId)} (h : v.readdir parent = .ok cs) :
    cs.map (fun c => nameBytes c.1) = v.children parent := by
  have hmap : (v.dirs.toList.filter fun e => (dirPrefix parent).isPrefixOf e.1).mapM dirName = .ok cs := by
    rw [← walk_eq_filter]
    exact h
  have hnames := (Res.forall₂_of_mapM hmap).imp fun _ _ he => (dirName_eq_ok he).symm
  have heq := List.forall₂_map_left_iff.mpr (List.forall₂_map_right_iff.mpr hnames)
  rw [List.forall₂_eq_eq_eq] at heq
  unfold children
  rw [← heq, ← Std.ExtTreeMap.map_fst_toList_eq_keys, List.filter_map, List.map_map]
  rfl

/-! ## Changing a directory -/

/-- Creating an inode gives it no name yet. -/
theorem dirs_createInode {rec : InodeRecord} (h : v.applyLocally (.createInode rec) = .ok u) : u.dirs = v.dirs := by
  obtain ⟨next, -, hu⟩ := Res.bind_eq_ok.mp h
  obtain rfl := Res.ok.inj hu
  rfl

theorem children_eq_of_dirs (h : u.dirs = v.dirs) : u.children ino = v.children ino := by
  unfold children
  rw [h]

/-- Linking a name changes the membership of that name only. -/
theorem mem_children_link {child : InodeId} (h : v.applyLocally (.link parent name child) = .ok u)
    (hne : parent = ino → b ≠ nameBytes name) : b ∈ u.children ino ↔ b ∈ v.children ino := by
  obtain rfl := Res.ok.inj h
  rw [mem_children, mem_children]
  show _ ∈ v.dirs.insert (dirPrefix parent ++ nameBytes name) child ↔ _
  simp [Std.ExtTreeMap.mem_insert, key_ne hne]

/-- Unlinking a name changes the membership of that name only. -/
theorem mem_children_unlink (h : v.applyLocally (.unlink parent name) = .ok u)
    (hne : parent = ino → b ≠ nameBytes name) : b ∈ u.children ino ↔ b ∈ v.children ino := by
  obtain rfl := Res.ok.inj h
  rw [mem_children, mem_children]
  show _ ∈ v.dirs.erase (dirPrefix parent ++ nameBytes name) ↔ _
  simp [Std.ExtTreeMap.mem_erase, key_ne hne]

theorem children_unlink_subset (h : v.applyLocally (.unlink parent name) = .ok u) (hb : b ∈ u.children ino) :
    b ∈ v.children ino := by
  obtain rfl := Res.ok.inj h
  rw [mem_children] at hb ⊢
  exact Std.ExtTreeMap.mem_of_mem_erase hb

/-! ## The table as a map for each parent -/

/-- A change of the directory table. -/
inductive DirOp where
  | link (parent : InodeId) (name : String) (child : InodeId)
  | unlink (parent : InodeId) (name : String)
  deriving DecidableEq

/-- The metadata operation that makes the change. -/
def DirOp.toMetaOp : DirOp → MetaOp
  | .link parent name child => .link parent name child
  | .unlink parent name     => .unlink parent name

/-- The pair a change is about. -/
def DirOp.pair : DirOp → InodeId × String
  | .link parent name _ => (parent, name)
  | .unlink parent name => (parent, name)

/-- The last link of the pair that no unlink of it follows made `child` its child. -/
def Linked (ops : List DirOp) (parent : InodeId) (name : String) (child : InodeId) : Prop :=
  ∃ before after, ops = before ++ .link parent name child :: after ∧ ∀ op ∈ after, op.pair ≠ (parent, name)

theorem linked_snoc {ops : List DirOp} {op : DirOp} : Linked (ops ++ [op]) parent name ino ↔
    op = .link parent name ino ∨ op.pair ≠ (parent, name) ∧ Linked ops parent name ino := by
  constructor
  · rintro ⟨before, after, heq, hafter⟩
    rcases snoc_eq_append_cons heq with ⟨-, hop, -⟩ | ⟨rest, rfl, hops⟩
    · exact Or.inl hop
    · refine Or.inr ⟨hafter _ (by simp), before, rest, hops, fun o ho => hafter o ?_⟩
      exact List.mem_append_left _ ho
  · rintro (rfl | ⟨hne, before, after, rfl, hafter⟩)
    · exact ⟨ops, [], rfl, by simp⟩
    · refine ⟨before, after ++ [op], by simp, fun o ho => ?_⟩
      rcases List.mem_append.mp ho with ho | ho
      · exact hafter o ho
      · obtain rfl := List.mem_singleton.mp ho
        exact hne

/-- A change to another pair says nothing about this one. -/
theorem linked_snoc_of_ne {ops : List DirOp} {op : DirOp} (hne : op.pair ≠ (parent, name)) :
    Linked (ops ++ [op]) parent name ino ↔ Linked ops parent name ino := by
  rw [linked_snoc]
  constructor
  · rintro (rfl | ⟨-, hl⟩)
    · exact absurd rfl hne
    · exact hl
  · exact fun hl => Or.inr ⟨hne, hl⟩

theorem dirKey_inj {a c : InodeId} {x y : String} : dirKey a x = dirKey c y ↔ (a, x) = (c, y) := by
  rw [Prod.mk.injEq]
  refine (key_inj (x := nameBytes x) (y := nameBytes y)).trans (and_congr_right fun _ => ?_)
  exact nameBytes_injective.eq_iff

/-- The table holds the links that stand, each under its pair's key, and nothing else. -/
def HoldsLinks (v : View) (ops : List DirOp) : Prop :=
  ∀ key child, v.dirs[key]? = some child ↔ ∃ parent name, key = dirKey parent name ∧ Linked ops parent name child

theorem HoldsLinks.lookup_eq {ops : List DirOp} (h : HoldsLinks v ops) :
    v.lookup parent name = some ino ↔ Linked ops parent name ino := by
  refine (h _ _).trans ⟨?_, fun hl => ⟨_, _, rfl, hl⟩⟩
  rintro ⟨parent', name', hkey, hl⟩
  obtain ⟨rfl, rfl⟩ := Prod.mk.inj (dirKey_inj.mp hkey)
  exact hl

/-- **Step lemma.** A change succeeds and is recorded. -/
theorem HoldsLinks.step {ops : List DirOp} (h : HoldsLinks v ops) (op : DirOp) :
    ∃ u, v.applyLocally op.toMetaOp = .ok u ∧ HoldsLinks u (ops ++ [op]) := by
  cases op with
  | link p x c =>
      refine ⟨_, rfl, fun key child => ?_⟩
      show (v.dirs.insert (dirKey p x) c)[key]? = some child ↔ _
      rw [Std.ExtTreeMap.getElem?_insert]
      by_cases hkey : dirKey p x = key
      · subst hkey
        rw [if_pos Std.ReflCmp.compare_self]
        constructor
        · intro heq
          obtain rfl := Option.some.inj heq
          exact ⟨p, x, rfl, linked_snoc.mpr (Or.inl rfl)⟩
        · rintro ⟨p', x', heq, hl⟩
          obtain ⟨rfl, rfl⟩ := Prod.mk.inj (dirKey_inj.mp heq)
          rcases linked_snoc.mp hl with hop | ⟨hne, -⟩
          · cases hop
            rfl
          · exact absurd rfl hne
      · rw [if_neg (fun heq => hkey (Std.LawfulEqCmp.eq_of_compare heq)), h key child]
        refine exists_congr fun p' => exists_congr fun x' => and_congr_right ?_
        rintro rfl
        have hne : (DirOp.link p x c).pair ≠ (p', x') := fun heq => hkey (dirKey_inj.mpr heq)
        exact (linked_snoc_of_ne hne).symm
  | unlink p x =>
      refine ⟨_, rfl, fun key child => ?_⟩
      show (v.dirs.erase (dirKey p x))[key]? = some child ↔ _
      rw [Std.ExtTreeMap.getElem?_erase]
      by_cases hkey : dirKey p x = key
      · subst hkey
        rw [if_pos Std.ReflCmp.compare_self]
        constructor
        · intro hnone
          cases hnone
        · rintro ⟨p', x', heq, hl⟩
          rcases linked_snoc.mp hl with hop | ⟨hne, -⟩
          · cases hop
          · exact absurd (dirKey_inj.mp heq) hne
      · rw [if_neg (fun heq => hkey (Std.LawfulEqCmp.eq_of_compare heq)), h key child]
        refine exists_congr fun p' => exists_congr fun x' => and_congr_right ?_
        rintro rfl
        have hne : (DirOp.unlink p x).pair ≠ (p', x') := fun heq => hkey (dirKey_inj.mpr heq)
        exact (linked_snoc_of_ne hne).symm

/-- **Run lemma.** -/
theorem HoldsLinks.run {ops : List DirOp} (h : HoldsLinks v ops) (more : List DirOp) :
    ∃ u, (more.map DirOp.toMetaOp).foldlM applyLocally v = .ok u ∧ HoldsLinks u (ops ++ more) := by
  induction more generalizing v ops with
  | nil => exact ⟨v, rfl, by rwa [List.append_nil]⟩
  | cons op more ih =>
      obtain ⟨v₁, hstep, h₁⟩ := h.step op
      obtain ⟨u, hrun, hu⟩ := ih h₁
      refine ⟨u, ?_, by rwa [List.append_assoc] at hu⟩
      rw [List.map_cons, List.foldlM_cons, hstep, Res.ok_bind]
      exact hrun

/-- A `readdir` that succeeds returns what `lookup` finds. -/
theorem mem_readdir {cs : List (String × InodeId)} (h : v.readdir parent = .ok cs) :
    (name, ino) ∈ cs ↔ v.lookup parent name = some ino := by
  have hmap : (v.dirs.toList.filter fun e => (dirPrefix parent).isPrefixOf e.1).mapM dirName = .ok cs := by
    rw [← walk_eq_filter]
    exact h
  rw [Res.mem_of_mapM hmap]
  constructor
  · rintro ⟨⟨key, child⟩, hmem, hname⟩
    obtain ⟨hmem, hpre⟩ := List.mem_filter.mp hmem
    obtain ⟨t, rfl⟩ := List.isPrefixOf_iff_prefix.mp hpre
    have hbytes := dirName_eq_ok hname
    rw [List.drop_left' (length_dirPrefix parent)] at hbytes
    have hchild : child = ino := by
      unfold dirName at hname
      split at hname
      · cases hname
      · exact (Prod.mk.inj (Res.ok.inj hname)).2
    show v.dirs[dirPrefix parent ++ nameBytes name]? = _
    rw [hbytes, ← hchild]
    exact Std.ExtTreeMap.mem_toList_iff_getElem?_eq_some.mp hmem
  · intro hfound
    refine ⟨(dirPrefix parent ++ nameBytes name, ino), List.mem_filter.mpr ⟨?_, ?_⟩, ?_⟩
    · exact Std.ExtTreeMap.mem_toList_iff_getElem?_eq_some.mpr hfound
    · exact List.isPrefixOf_iff_prefix.mpr (List.prefix_append _ _)
    · unfold dirName
      rw [List.drop_left' (length_dirPrefix parent), fromUTF8?_nameBytes]

theorem nodup_readdir {cs : List (String × InodeId)} (h : v.readdir parent = .ok cs) : (cs.map Prod.fst).Nodup := by
  have hnames : ((cs.map Prod.fst).map nameBytes).Nodup := by
    rw [List.map_map]
    show (cs.map fun c => nameBytes c.1).Nodup
    rw [readdir_names h]
    exact (v.ascending_children parent).nodup
  exact hnames.of_map

theorem HoldsLinks.readdir_ok {ops : List DirOp} (h : HoldsLinks v ops) (parent : InodeId) :
    ∃ cs, v.readdir parent = .ok cs := by
  unfold readdir
  refine Res.exists_mapM fun e he => ?_
  obtain ⟨key, child⟩ := e
  have hmem := (List.dropWhile_sublist _).mem ((List.takeWhile_sublist _).mem he)
  obtain ⟨p, x, rfl, -⟩ := (h _ _).mp (Std.ExtTreeMap.mem_toList_iff_getElem?_eq_some.mp hmem)
  refine ⟨(x, child), ?_⟩
  show dirName (dirPrefix p ++ nameBytes x, child) = _
  unfold dirName
  rw [List.drop_left' (length_dirPrefix p), fromUTF8?_nameBytes]

/-- **The directory table is a map for each parent.** From an empty table, any links and unlinks succeed; then `lookup`
    finds a child exactly if the last link of the pair, which no unlink of it follows, made it one, and `readdir` returns
    exactly the names and children that `lookup` finds in this parent, each name once. -/
theorem directory_map (hempty : v.dirs = ∅) (ops : List DirOp) :
    ∃ u, (ops.map DirOp.toMetaOp).foldlM applyLocally v = .ok u ∧ ∀ parent,
      (∀ name child, u.lookup parent name = some child ↔ Linked ops parent name child) ∧
      ∃ cs, u.readdir parent = .ok cs ∧ (cs.map Prod.fst).Nodup ∧
        ∀ name child, (name, child) ∈ cs ↔ u.lookup parent name = some child := by
  have hnone : HoldsLinks v [] := by
    intro key child
    rw [hempty]
    constructor
    · intro hfound
      cases hfound
    · rintro ⟨_, _, -, before, after, heq, -⟩
      cases before with
      | nil => cases heq
      | cons op before => cases heq
  obtain ⟨u, hrun, hu⟩ := hnone.run ops
  refine ⟨u, hrun, fun parent => ⟨fun name child => hu.lookup_eq, ?_⟩⟩
  obtain ⟨cs, hcs⟩ := hu.readdir_ok parent
  exact ⟨cs, hcs, nodup_readdir hcs, fun name child => mem_readdir hcs⟩

/-- Changes of two directories: an empty name, and a name that is removed from one and linked in the other. -/
def sampleChanges : List DirOp := [.link 1 "" 5, .link 1 "a" 6, .unlink 1 "a", .link 2 "a" 7]

theorem directory_map_sampleChanges : ∃ u, (sampleChanges.map DirOp.toMetaOp).foldlM applyLocally empty = .ok u ∧
    u.lookup 1 "" = some 5 ∧ u.lookup 2 "a" = some 7 ∧ ∀ child, u.lookup 1 "a" ≠ some child := by
  obtain ⟨u, hrun, h⟩ := directory_map (v := empty) rfl sampleChanges
  refine ⟨u, hrun, ?_, ?_, fun child hc => ?_⟩
  · exact ((h 1).1 "" 5).mpr ⟨[], _, rfl, by decide⟩
  · exact ((h 2).1 "a" 7).mpr ⟨sampleChanges.take 3, [], rfl, by simp⟩
  · have hlinked : Linked ([.link 1 "" 5, .link 1 "a" 6] ++ [.unlink 1 "a"] ++ [.link 2 "a" 7]) 1 "a" child :=
      ((h 1).1 "a" child).mp hc
    rcases linked_snoc.mp hlinked with hop | ⟨-, hlinked⟩
    · cases hop
    · rcases linked_snoc.mp hlinked with hop | ⟨hne, -⟩
      · cases hop
      · exact hne rfl

end View

/-- Whatever becomes of an operation, the tables are as they were or as it leaves them. -/
theorem MetaStore.view_apply {env : Env} {w w' : World} {s s' : MetaStore} {op : MetaOp} {res : Res MetaStoreError Unit}
    (h : s.apply env w op = (res, w', s')) : s'.view = s.view ∨ s.view.applyLocally op = .ok s'.view := by
  have hview : ∀ t : MetaStore, t.view = s.view →
      (t.applyView op).2.view = s.view ∨ s.view.applyLocally op = .ok (t.applyView op).2.view := by
    intro t ht
    unfold applyView
    rw [ht]
    cases hlocal : s.view.applyLocally op with
    | ok u => exact Or.inr rfl
    | err e => exact Or.inl ht
    | panic => exact Or.inl ht
  unfold apply at h
  dsimp only at h
  split at h
  · obtain ⟨-, -, rfl⟩ := h
    exact hview _ rfl
  · split at h
    · obtain ⟨-, -, rfl⟩ := h
      exact hview _ rfl
    · obtain ⟨-, -, rfl⟩ := h
      exact Or.inl rfl
  · obtain ⟨-, -, rfl⟩ := h
    exact Or.inl rfl

end Tartine
