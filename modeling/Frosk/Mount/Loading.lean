import Mathlib.Tactic
import Frosk.Fs.Forest
import Frosk.Mount.Stored

/-!
# Images in the kernel: directories on demand

`Shows` is what holds of the kernel's entries at any time: each of them is the entry of a
node of the image, and each directory is either not loaded and empty, or has exactly the
names of the description. `assure_dir` loads a directory entry by entry, so the invariant has
the rows that are still to come.

* `round_shows` — one round of the loop of `assure_dir`.
* `assure_shows` — `assure_dir`.
* `resolve_shows` — `fs_resolve`.
-/

namespace Frosk.Mount

open Lib Fs
open Builder (Fsd Host)

-- ---------------------------------------------------------------------------
-- Rows
-- ---------------------------------------------------------------------------

section Rows

variable {rs : List (CStr × Kind)} {r : CStr × Kind} {name : CStr} {k : Kind} {fsd : Fsd}

/-- The last row is found last. -/
theorem findRow_snoc (rs : List (CStr × Kind)) (r : CStr × Kind) (name : CStr) :
    findRow (rs ++ [r]) name = (findRow rs name).or (if r.1 = name then some r.2 else none) := by
  rw [findRow, List.find?_append, findRow]
  cases rs.find? fun r => r.1 = name with
  | some r' => rfl
  | none =>
    by_cases h : r.1 = name
    · simp [h]
    · simp [h]

/-- No row is found when none has the name. -/
theorem findRow_eq_none : findRow rs name = none ↔ name ∉ rs.map Prod.fst := by
  rw [findRow, Option.map_eq_none_iff, List.find?_eq_none, List.mem_map, not_exists]
  refine forall_congr' ?_
  intro r
  rw [decide_eq_true_eq, not_and]

/-- With different names the row that has the name is found. -/
theorem findRow_eq_some (h : (rs.map Prod.fst).Nodup) : findRow rs name = some k ↔ (name, k) ∈ rs := by
  induction rs with
  | nil => simp [findRow]
  | cons r rs ih =>
    rw [List.map_cons, List.nodup_cons] at h
    obtain ⟨hnew, hnodup⟩ := h
    by_cases hr : r.1 = name
    · have hfind : findRow (r :: rs) name = some r.2 := by
        rw [findRow, List.find?_cons_of_pos (by simpa using hr)]
        rfl
      rw [hfind, List.mem_cons]
      constructor
      · intro hk
        exact .inl (Prod.ext hr.symm (Option.some.inj hk).symm)
      · rintro (heq | hmem)
        · exact congrArg some (congrArg Prod.snd heq).symm
        · exact absurd (List.mem_map_of_mem hmem) (hr ▸ hnew)
    · have hfind : findRow (r :: rs) name = findRow rs name := by
        rw [findRow, List.find?_cons_of_neg (by simpa using hr)]
        rfl
      rw [hfind, ih hnodup, List.mem_cons]
      refine ⟨.inr, fun hmem => hmem.resolve_left fun heq => hr ?_⟩
      exact (congrArg Prod.fst heq).symm

/-- The order of the rows does not matter. -/
theorem findRow_reverse (h : (rs.map Prod.fst).Nodup) (name : CStr) :
    findRow rs.reverse name = findRow rs name := by
  have hrev : (rs.reverse.map Prod.fst).Nodup := by
    rw [List.map_reverse]
    exact List.nodup_reverse.mpr h
  refine Option.ext ?_
  intro k
  rw [findRow_eq_some hrev, findRow_eq_some h, List.mem_reverse]

/-- The names of a directory are different. -/
theorem Distinct.nodup (h : Distinct fsd) : ((rows fsd).map Prod.fst).Nodup := by
  induction fsd with
  | done => exact List.nodup_nil
  | file fields actual rest ih => exact List.nodup_cons.mpr ⟨h.1, ih h.2⟩
  | dir fields contents rest ihc ih => exact List.nodup_cons.mpr ⟨h.1, ih h.2.2⟩
  | indir fields target rest ih => exact List.nodup_cons.mpr ⟨h.1, ih h.2⟩

/-- The names of the directories in it are different too. -/
theorem Distinct.contents (h : Distinct fsd) {contents : Fsd} (hmem : (name, .dir contents) ∈ rows fsd) :
    Distinct contents := by
  induction fsd with
  | done => cases hmem
  | file fields actual rest ih =>
    rcases List.mem_cons.mp hmem with heq | hmem
    · cases heq
    · exact ih h.2 hmem
  | dir fields inner rest ihc ih =>
    rcases List.mem_cons.mp hmem with heq | hmem
    · cases heq
      exact h.2.1
    · exact ih h.2.2 hmem
  | indir fields target rest ih =>
    rcases List.mem_cons.mp hmem with heq | hmem
    · cases heq
    · exact ih h.2 hmem

end Rows

-- ---------------------------------------------------------------------------
-- The invariant
-- ---------------------------------------------------------------------------

/-- The image as the kernel sees it: the host whose files are on it, the description, the
memory with the first metadata block, and the disk. -/
structure Source where
  host : Host
  fsd  : Fsd
  mem  : Memory
  disk : Memory

/-- The chain from `p` on leads to the node `q`. -/
inductive Reaches (M : Memory) (p : Nat) : Nat → Prop
  | first : Reaches M p p
  | next {q : Nat} (h : Reaches M p q) (hq : q ≠ 0) : Reaches M p (commonNext M (addr q))

/-- The first node of a directory. -/
def Source.first (S : Source) (s : State) (d : Ptr) : Nat := commonData S.mem (s.ent d).node

/-- The entry `x` is that of a node of the chain from `first` on. -/
structure EntryShows (S : Source) (s : State) (first : Nat) (x : Ptr) (k : Kind) : Prop where
  type : (s.ent x).type = k.entType
  node : ∃ p, (s.ent x).node = addr p ∧ Reaches S.mem first p ∧
    RowNode S.host S.mem S.disk p ((s.ent x).name, k)
  file : k.entType = .FILE → (s.ent x).flags = {} ∧ ((s.ent x).size = fsSizeUnknown ∨
    (s.ent x).size = blockSize S.mem (addr (commonData S.mem (s.ent x).node)))

/-- The directory `d` has the rows of the description, but for those that are still to come. -/
structure DirShows (S : Source) (s : State) (F : Forest) (kind : Ptr → Kind) (d : Ptr) (contents : Fsd)
    (todo : List (CStr × Kind)) : Prop where
  holds    : kind d = .dir contents
  distinct : Distinct contents
  hasdata  : (s.ent d).flags.hasdata = true
  node     : ∃ p, Inner p ∧ (s.ent d).node = addr p ∧ nodeType S.mem (addr p) = some .DIRECTORY ∧
    Stored S.host S.mem S.disk contents 0 (commonData S.mem (addr p))
  absent   : (s.ent d).flags.present = false → F.tree d = .nil
  loaded   : (s.ent d).flags.present = true → ∃ done, (rows contents).reverse = done ++ todo ∧
    ∀ name, ((F.tree d).lookup s.key name.key).map kind = findRow done name

/-- The entries in memory are those of the image, as far as they are loaded. -/
structure Shows (S : Source) (s : State) (F : Forest) (kind : Ptr → Kind)
    (todo : Ptr → List (CStr × Kind)) : Prop where
  planted : Planted s F s.rootDir
  root    : kind s.rootDir = .dir S.fsd
  mem     : s.mem = S.mem
  size    : s.nodeSize = 0x10
  dev     : s.rootDev = true
  entries : ∀ d ∈ F.live, ∀ x ∈ (F.tree d).toList, EntryShows S s (S.first s d) x (kind x)
  dirs    : ∀ d ∈ F.live, ∃ contents, DirShows S s F kind d contents (todo d)

/-- The rows that are to come while directory `d` is loaded. -/
def pending (d : Ptr) (rs : List (CStr × Kind)) (x : Ptr) : List (CStr × Kind) := if x = d then rs else []

/-- Nothing is pending at the end. -/
theorem pending_nil (d : Ptr) : pending d [] = fun _ => [] :=
  funext fun _ => ite_self _

/-- A pointer to the first metadata block is followed without a change. -/
theorem resolve_inner (E : Env) {s : State} (hsize : s.nodeSize = 0x10) {p : Nat} (hp : Inner p) :
    resolveNode E p s = some (s, addr p) := by
  rw [resolveNode_root E s hp.1 hp.2, hsize]
  refine congrArg (fun a => some (s, a)) (Nat.mod_eq_of_lt ?_)
  have hlt := hp.2
  unfold rfsmbLoc wordSize
  omega

/-- No node is at the null pointer. -/
theorem addr_ne_null (p : Nat) : addr p ≠ NULL := by
  unfold addr rfsmbLoc NULL
  omega

-- ---------------------------------------------------------------------------
-- A new entry
-- ---------------------------------------------------------------------------

section Loading

variable {E : Env} {S : Source} {s s₁ s' : State} {F : Forest} {kind : Ptr → Kind}
  {todo : Ptr → List (CStr × Kind)} {d x : Ptr} {r : CStr × Kind} {rs : List (CStr × Kind)} {p : Nat}
  {contents : Fsd} {k : Kind} {first : Nat}

/-- Nothing but the links of the entry changed. -/
theorem EntryShows.relink (h : EntryShows S s first x k) {left right root : Ptr}
    (hsame : s'.ent x = { s.ent x with left := left, right := right, root := root }) :
    EntryShows S s' first x k := by
  obtain ⟨htype, hnode, hfile⟩ := h
  refine ⟨?_, ?_, ?_⟩
  · rw [hsame]
    exact htype
  · rw [hsame]
    exact hnode
  · rw [hsame]
    exact hfile

/-- The entry that `assure_dir` makes for a row. -/
theorem entryShows_made (hrow : RowNode S.host S.mem S.disk p r) (hreach : Reaches S.mem first p)
    {old : Entry} {lp : Ptr}
    (hmade : s'.ent x = markLoaded (addr p) r.2.entType (initEntry old (some r.1) lp r.2.entType)) :
    EntryShows S s' first x r.2 := by
  obtain ⟨name, kind⟩ := r
  cases kind with
  | file actual =>
    refine ⟨?_, ⟨p, ?_, hreach, ?_⟩, fun _ => ⟨?_, .inl ?_⟩⟩ <;> rw [hmade]
    · rfl
    · rfl
    · exact hrow
    · rfl
    · rfl
  | dir contents =>
    refine ⟨?_, ⟨p, ?_, hreach, ?_⟩, nofun⟩ <;> rw [hmade]
    · rfl
    · rfl
    · exact hrow
  | indir target =>
    refine ⟨?_, ⟨p, ?_, hreach, ?_⟩, nofun⟩ <;> rw [hmade]
    · rfl
    · rfl
    · exact hrow

/-- What is in use is not where a new entry is made. -/
theorem Shows.ne_fresh (h : Shows S s F kind todo) (hd : d ∈ F.live) (hx : x ∈ d :: (F.tree d).toList) :
    x ≠ fresh E s := by
  rintro rfl
  exact E.kalloc.fresh s.used ((h.planted.holds d hd).used _ hx)

/-- The name of a row that is still to come is not in the directory. -/
theorem DirShows.not_found (h : DirShows S s F kind d contents (r :: rs))
    (hpresent : (s.ent d).flags.present = true) : (F.tree d).lookup s.key r.1.key = none := by
  obtain ⟨done, hrows, hfound⟩ := h.loaded hpresent
  have hnodup : ((done ++ r :: rs).map Prod.fst).Nodup := by
    rw [← hrows, List.map_reverse]
    exact List.nodup_reverse.mpr h.distinct.nodup
  have hnone : findRow done r.1 = none := by
    rw [findRow_eq_none]
    rw [List.map_append, List.nodup_append] at hnodup
    exact fun hmem => hnodup.2.2 r.1 hmem r.1 (by simp) rfl
  rw [← hfound] at hnone
  exact Option.map_eq_none_iff.mp hnone

/-- A directory that the new entry is not in. -/
theorem DirShows.other {q : Ptr} (h : DirShows S s F kind x contents rs)
    (hsorted : (F.tree x).Sorted s.key) (hq : ∀ y ∈ x :: (F.tree x).toList, y ≠ q)
    (hkept : ∀ y ∈ x :: (F.tree x).toList, ∃ left right root, s'.ent y =
      { s.ent y with left := left, right := right, root := root }) {F' : Forest}
    (htree : F'.tree x = F.tree x) (k : Kind) :
    DirShows S s' F' (Function.update kind q k) x contents rs := by
  obtain ⟨left, right, root, hx⟩ := hkept x List.mem_cons_self
  have hkey : ∀ y ∈ (F.tree x).toList, s'.key y = s.key y := by
    intro y hy
    obtain ⟨left, right, root, hy⟩ := hkept y (List.mem_cons_of_mem _ hy)
    rw [State.key, hy]
    rfl
  refine ⟨?_, h.distinct, ?_, ?_, ?_, ?_⟩
  · rw [Function.update_of_ne (hq x List.mem_cons_self)]
    exact h.holds
  · rw [hx]
    exact h.hasdata
  · rw [hx]
    exact h.node
  · intro ha
    rw [hx] at ha
    rw [htree]
    exact h.absent ha
  · intro hp
    rw [hx] at hp
    obtain ⟨done, hrows, hfound⟩ := h.loaded hp
    refine ⟨done, hrows, ?_⟩
    intro name
    rw [← hfound, htree, SearchTree.lookup_congr hkey]
    refine Option.map_congr fun y hy => Function.update_of_ne (hq y (List.mem_cons_of_mem _ ?_)) ..
    exact ((SearchTree.lookup_eq_some hsorted).mp hy).1

/-- The directory that the new entry is in. -/
theorem DirShows.insert {q : Ptr} (h : DirShows S s F kind d contents (r :: rs))
    (hpresent : (s.ent d).flags.present = true) (hholds : Holds s d (F.tree d))
    (hq : ∀ y ∈ d :: (F.tree d).toList, y ≠ q)
    (hkept : ∀ y ∈ d :: (F.tree d).toList, ∃ left right root, s'.ent y =
      { s.ent y with left := left, right := right, root := root })
    (hkey : s'.key q = r.1.key) {F' : Forest}
    (htree : F'.tree d = (F.tree d).place s.key r.1.key q) :
    DirShows S s' F' (Function.update kind q r.2) d contents rs := by
  obtain ⟨left, right, root, hd⟩ := hkept d List.mem_cons_self
  have hkeys : ∀ y ∈ (F.tree d).toList, s'.key y = s.key y := by
    intro y hy
    obtain ⟨left, right, root, hy⟩ := hkept y (List.mem_cons_of_mem _ hy)
    rw [State.key, hy]
    rfl
  have hsorted : (F.tree d).Sorted s'.key := SearchTree.sorted_congr hkeys hholds.sorted
  have hnone := h.not_found hpresent
  have hleaf : (F.tree d).LeafAt s'.key r.1.key := by
    rw [SearchTree.leafAt_congr hkeys, Links.leafAt_iff hholds.shape, hnone]
    simp
  refine ⟨?_, h.distinct, ?_, ?_, ?_, ?_⟩
  · rw [Function.update_of_ne (hq d List.mem_cons_self)]
    exact h.holds
  · rw [hd]
    exact h.hasdata
  · rw [hd]
    exact h.node
  · intro ha
    rw [hd, hpresent] at ha
    cases ha
  · intro hp
    obtain ⟨done, hrows, hfound⟩ := h.loaded hpresent
    refine ⟨done ++ [r], by rw [hrows, List.append_assoc, List.singleton_append], ?_⟩
    intro name
    rw [htree, ← SearchTree.place_congr hkeys, findRow_snoc, ← hfound]
    by_cases hname : r.1 = name
    · subst hname
      rw [SearchTree.lookup_place_self hsorted hkey, hnone, if_pos rfl, Option.map_some,
        Function.update_self]
      rfl
    · have hne : name.key ≠ r.1.key := fun hk => hname (CStr.key_inj hk).symm
      rw [SearchTree.lookup_place_ne hleaf hkey hne, SearchTree.lookup_congr hkeys, if_neg hname,
        Option.or_none]
      refine Option.map_congr fun y hy => Function.update_of_ne (hq y (List.mem_cons_of_mem _ ?_)) ..
      exact ((SearchTree.lookup_eq_some hholds.sorted).mp hy).1

/-- A directory that was just made. -/
theorem dirShows_made {q : Ptr} {name : CStr} (hrow : RowNode S.host S.mem S.disk p (name, .dir contents))
    (hdistinct : Distinct contents) {old : Entry} {lp : Ptr}
    (hmade : s'.ent q = markLoaded (addr p) .DIRECTORY (initEntry old (some name) lp .DIRECTORY))
    {F' : Forest} (htree : F'.tree q = .nil) :
    DirShows S s' F' (Function.update kind q (.dir contents)) q contents [] := by
  refine ⟨Function.update_self .., hdistinct, ?_, ⟨p, hrow.entry.inner, ?_, hrow.entry.type, hrow.leads⟩,
    fun _ => htree, fun hp => ?_⟩
  · rw [hmade]
    rfl
  · rw [hmade]
    rfl
  · rw [hmade] at hp
    cases hp

/-- The entry of the next row goes into the directory. -/
theorem load_shows (h : Shows S s F kind (pending d (r :: rs))) (hd : d ∈ F.live)
    (hpresent : (s.ent d).flags.present = true) (hrow : RowNode S.host S.mem S.disk p r)
    (hreach : Reaches S.mem (S.first s d) p) (hr : Replaced E s d (F.tree d) r.1 r.2.entType s₁) :
    Shows S (s₁.modify (fresh E s) (markLoaded (addr p) r.2.entType))
      (F.insert s d r.1 r.2.entType (fresh E s)) (Function.update kind (fresh E s) r.2) (pending d rs) := by
  obtain ⟨contents, hdir⟩ := h.dirs d hd
  rw [pending, if_pos rfl] at hdir
  let q := fresh E s
  let s' := s₁.modify q (markLoaded (addr p) r.2.entType)
  have hnone := hdir.not_found hpresent
  have hstays : ∀ x, ¬ F.Gone s d r.1 x := by
    rintro x ⟨e, hlook, -⟩
    rw [hnone] at hlook
    cases hlook
  have hplanted := hr.planted h.planted hd ⟨rfl, fun _ _ _ _ _ hy => hy⟩
  have hdq : d ≠ q := h.ne_fresh hd List.mem_cons_self
  obtain ⟨old, lp, hmade⟩ := hr.made
  have hmade' : s'.ent q = markLoaded (addr p) r.2.entType (initEntry old (some r.1) lp r.2.entType) := by
    rw [← hmade]
    exact modify_ent_self
  have hkept : ∀ y, y ≠ q → ∃ left right root, s'.ent y =
      { s.ent y with left := left, right := right, root := root } := by
    intro y hy
    obtain ⟨left, right, root, hsame, -⟩ := hr.kept y hy
    exact ⟨left, right, root, (modify_ent_ne hy).trans hsame⟩
  have hkeyq : s'.key q = r.1.key := by
    rw [State.key, hmade']
    exact congrArg CStr.key ((mark_aside (.load r.1 r.2.entType (addr p))).name _ |>.trans
      (initEntry_links _).2.2.2.1)
  have hmem : s₁.mem = s.mem := by rw [hr.others]
  have hsize : s₁.nodeSize = s.nodeSize := by rw [hr.others]
  have hdev : s₁.rootDev = s.rootDev := by rw [hr.others]
  have hroot : s₁.rootDir = s.rootDir := by rw [hr.others]
  refine ⟨?_, ?_, hmem.trans h.mem, hsize.trans h.size, hdev.trans h.dev, fun x hx y hy => ?_,
    fun x hx => ?_⟩
  · have hroot' : s'.rootDir = s.rootDir := hroot
    rw [hroot']
    exact hplanted.modify (mark_aside (.load r.1 r.2.entType (addr p)))
      (mark_hasdata (.load r.1 r.2.entType (addr p)) _ (hmade ▸ (initEntry_links _).2.2.2.2))
  · have hroot' : s'.rootDir = s.rootDir := hroot
    rw [hroot', Function.update_of_ne (h.ne_fresh h.planted.root List.mem_cons_self)]
    exact h.root
  · have hxq : x ≠ q := by
      rintro rfl
      rw [insert_tree_new] at hy
      cases hy
    have hfirst : S.first s' x = S.first s x := by
      obtain ⟨left, right, root, hx'⟩ := hkept x hxq
      rw [Source.first, hx']
      rfl
    rw [hfirst]
    obtain ⟨⟨hlive, -⟩, ⟨rfl, rfl⟩ | ⟨hmem, -⟩⟩ := mem_insert_tree h.planted hd hdq hx hxq hy
    · rw [Function.update_self]
      exact entryShows_made hrow hreach hmade'
    · have hyq : y ≠ q := h.ne_fresh hlive (List.mem_cons_of_mem _ hmem)
      obtain ⟨left, right, root, hy'⟩ := hkept y hyq
      rw [Function.update_of_ne hyq]
      exact (h.entries x hlive y hmem).relink hy'
  · rcases hx with ⟨hlive, -⟩ | ⟨rfl, htype⟩
    · have hfresh : ∀ y ∈ x :: (F.tree x).toList, y ≠ q := fun y hy => h.ne_fresh hlive hy
      by_cases hxd : x = d
      · subst hxd
        rw [pending, if_pos rfl]
        exact ⟨contents, hdir.insert hpresent (h.planted.holds x hlive) hfresh
          (fun y hy => hkept y (hfresh y hy)) hkeyq (insert_tree_self hdq)⟩
      · obtain ⟨contents', hother⟩ := h.dirs x hlive
        rw [pending, if_neg hxd] at hother ⊢
        exact ⟨contents', hother.other (h.planted.holds x hlive).sorted hfresh
          (fun y hy => hkept y (hfresh y hy)) (insert_tree_ne (hfresh x List.mem_cons_self) hxd) r.2⟩
    · obtain ⟨name, kind'⟩ := r
      cases kind' with
      | file actual => cases htype
      | indir target => cases htype
      | dir inner =>
        obtain ⟨done, hrows, -⟩ := hdir.loaded hpresent
        have hmem : (name, .dir inner) ∈ rows contents := by
          rw [← List.mem_reverse, hrows]
          simp
        rw [pending, if_neg hdq.symm]
        exact ⟨inner, dirShows_made hrow (hdir.distinct.contents hmem) hmade' insert_tree_new⟩

-- ---------------------------------------------------------------------------
-- assure_dir
-- ---------------------------------------------------------------------------

/-- Where the kernel goes for a pointer. -/
def target (p : Nat) : Nat := if p = 0 then NULL else addr p

/-- Resolving a pointer to a node gives the node, with no block to load. -/
theorem resolve_rows (h : RowNodes S.host S.mem S.disk p rs) (E : Env) (hsize : s.nodeSize = 0x10) :
    resolveNode E p s = some (s, target p) := by
  cases rs with
  | nil =>
    obtain rfl : p = 0 := h
    rfl
  | cons r rs =>
    have hinner := h.1.entry.inner
    rw [resolve_inner E hsize hinner, target, if_neg hinner.1]

/-- The type of the node decides the type of the entry. -/
theorem entType_nodeType (k : Kind) : k.nodeType.entType = some k.entType := by
  cases k <;> rfl

/-- The entry `x` is the root or in a directory, and is of that kind. -/
structure Is (s : State) (F : Forest) (kind : Ptr → Kind) (x : Ptr) (k : Kind) : Prop where
  ne_null : x ≠ NULL
  holds   : kind x = k
  place   : x = s.rootDir ∨ ∃ d ∈ F.live, x ∈ (F.tree d).toList

/-- What is found: the entry `x`, or `NULL`. -/
def IsFound (s : State) (F : Forest) (kind : Ptr → Kind) (x : Ptr) : Option Kind → Prop
  | none => x = NULL
  | some k => Is s F kind x k

/-- No entry is lost. -/
def Keeps (s : State) (F : Forest) (kind : Ptr → Kind) (s' : State) (F' : Forest)
    (kind' : Ptr → Kind) : Prop :=
  ∀ x k, Is s F kind x k → Is s' F' kind' x k

/-- What a function leaves that worked on directory `d`, which is loaded then. -/
structure Worked (s : State) (F : Forest) (kind : Ptr → Kind) (d : Ptr) (s' : State) (F' : Forest)
    (kind' : Ptr → Kind) : Prop where
  live    : d ∈ F'.live
  same    : kind' d = kind d
  present : (s'.ent d).flags.present = true
  node    : (s'.ent d).node = (s.ent d).node
  root    : s'.rootDir = s.rootDir
  keeps   : Keeps s F kind s' F' kind'

/-- A new entry takes the place of none. -/
theorem keeps_insert (h : Shows S s F kind todo) (hd : d ∈ F.live) {name : CStr} {type : EntType}
    (hnone : (F.tree d).lookup s.key name.key = none) (hroot : s'.rootDir = s.rootDir) (k : Kind) :
    Keeps s F kind s' (F.insert s d name type (fresh E s)) (Function.update kind (fresh E s) k) := by
  have hold : ∀ x ∈ F.live, ∀ y ∈ x :: (F.tree x).toList, y ≠ fresh E s := fun x hx y hy => h.ne_fresh hx hy
  have hstays : ∀ x, ¬ F.Gone s d name x := by
    rintro x ⟨e, hlook, -⟩
    rw [hnone] at hlook
    cases hlook
  rintro x k' ⟨hne, hkind, hplace⟩
  have hx : x ≠ fresh E s := by
    rcases hplace with rfl | ⟨d', hd', hmem⟩
    · exact hold _ h.planted.root _ List.mem_cons_self
    · exact hold d' hd' x (List.mem_cons_of_mem _ hmem)
  refine ⟨hne, (Function.update_of_ne hx ..).trans hkind, hplace.imp (·.trans hroot.symm) ?_⟩
  rintro ⟨d', hd', hmem⟩
  refine ⟨d', .inl ⟨hd', hstays d'⟩, ?_⟩
  have hd'q := hold d' hd' d' List.mem_cons_self
  by_cases heq : d' = d
  · subst heq
    rw [insert_tree_self hd'q]
    exact SearchTree.mem_place_of_ne hmem
      ((SearchTree.lookup_eq_none (h.planted.holds d' hd).sorted).mp hnone)
  · rw [insert_tree_ne hd'q heq]
    exact hmem

/-- One round of the loop of `assure_dir`. -/
theorem round_shows (h : Shows S s F kind (pending d (r :: rs))) (hd : d ∈ F.live)
    (hpresent : (s.ent d).flags.present = true) (hrows : RowNodes S.host S.mem S.disk p (r :: rs))
    (hreach : Reaches S.mem (S.first s d) p) :
    ∃ s' F' kind', Settles (fun k => assureRound (assureDir E k) E k d s (addr p))
        (s', target (commonNext S.mem (addr p))) ∧
      Shows S s' F' kind' (pending d rs) ∧ Worked s F kind d s' F' kind' := by
  obtain ⟨hrow, hnext⟩ := hrows
  obtain ⟨contents, hdir⟩ := h.dirs d hd
  rw [pending, if_pos rfl] at hdir
  have hholds := h.planted.holds d hd
  have hnone := hdir.not_found hpresent
  obtain ⟨n, sl, lp, hfound, hfind⟩ := find_spec hholds r.1
  obtain ⟨s₁, hr, hreplace⟩ := replace_spec (E := E) hholds hfound r.2.entType
  have hshows := load_shows h hd hpresent hrow hreach hr
  have hdq : d ≠ fresh E s := h.ne_fresh hd List.mem_cons_self
  obtain ⟨left, right, root, hkept, -⟩ := hr.kept d hdq
  refine ⟨_, _, _, ⟨max n 2000 + 1, fun k hk => ?_⟩, hshows, .inl ⟨hd, ?_⟩, Function.update_of_ne hdq .., ?_,
    ?_, ?_, keeps_insert h hd hnone ?_ _⟩
  · obtain ⟨k, rfl⟩ : ∃ j, k = j + 1 := ⟨k - 1, by omega⟩
    have hname := hrow.entry.name
    have hload : loadEntryWith (assureDir E (k + 1)) E (k + 1) (addr p) r.1 d r.2.entType s =
        some (s₁.modify (fresh E s) (markLoaded (addr p) r.2.entType), fresh E s) := by
      have hfind' := hfind (assureDir E (k + 1)) (k + 1) (by omega)
        (assureDir_ready hholds.type (.inr hpresent) E k)
      have hreplace' := hreplace (k + 1) fun e he => by
        rw [hnone] at he
        cases he
      rw [loadEntryWith, insertEntryWith, hfind']
      simp only [Option.bind_eq_bind, Option.bind_some, hreplace']
    simp only [assureRound]
    rw [h.mem, hrow.entry.type, Option.bind_some, entType_nodeType]
    simp only [Option.bind_eq_bind, Option.bind_some, resolve_inner E h.size hname.inner, h.mem, hname.type,
      ne_eq, not_true_eq_false, if_false, strAt_mono hname.value (show 2000 ≤ k + 1 by omega), hload]
    rw [hshows.mem]
    exact resolve_rows hnext E hshows.size
  · rintro ⟨e, hlook, -⟩
    rw [hnone] at hlook
    cases hlook
  · rw [modify_ent_ne hdq, hkept]
    exact hpresent
  · rw [modify_ent_ne hdq, hkept]
  all_goals
    show s₁.rootDir = s.rootDir
    rw [hr.others]

/-- `assureDir` puts the rows of the directory into its tree, one at a time. -/
theorem loop_shows (h : Shows S s F kind (pending d rs)) (hd : d ∈ F.live)
    (hpresent : (s.ent d).flags.present = true) (hrows : RowNodes S.host S.mem S.disk p rs)
    (hreach : Reaches S.mem (S.first s d) p) :
    ∃ s' F' kind', (∃ n, ∀ k j, n ≤ k → n ≤ j →
        iterate (assureBody (assureDir E k) E k d) j (s, target p) = some (some s')) ∧
      Shows S s' F' kind' (fun _ => []) ∧ Worked s F kind d s' F' kind' := by
  induction rs generalizing s F kind p with
  | nil =>
    obtain rfl : p = 0 := hrows
    refine ⟨s, F, kind, ⟨1, fun k j _ hj => ?_⟩, pending_nil d ▸ h, hd, rfl, hpresent, rfl, rfl,
      fun _ _ hx => hx⟩
    obtain ⟨j, rfl⟩ : ∃ i, j = i + 1 := ⟨j - 1, by omega⟩
    have hbody : assureBody (assureDir E k) E k d (s, target 0) = .inr (some s) := by
      rw [assureBody, if_pos (show target 0 = NULL from rfl)]
    exact iterate_succ_inr hbody j
  | cons r rs ih =>
    obtain ⟨s₁, F₁, kind₁, ⟨n₁, hn₁⟩, hshows₁, hworked₁⟩ := round_shows (E := E) h hd hpresent hrows hreach
    have hfirst : S.first s₁ d = S.first s d := by rw [Source.first, hworked₁.node, Source.first]
    obtain ⟨s₂, F₂, kind₂, ⟨n₂, hn₂⟩, hshows₂, hworked₂⟩ :=
      ih hshows₁ hworked₁.live hworked₁.present hrows.2 (hfirst ▸ hreach.next hrows.1.entry.inner.1)
    refine ⟨s₂, F₂, kind₂, ⟨max n₁ (n₂ + 1), fun k j hk hj => ?_⟩, hshows₂, hworked₂.live,
      hworked₂.same.trans hworked₁.same, hworked₂.present, hworked₂.node.trans hworked₁.node,
      hworked₂.root.trans hworked₁.root, fun x k hx => hworked₂.keeps x k (hworked₁.keeps x k hx)⟩
    obtain ⟨j, rfl⟩ : ∃ i, j = i + 1 := ⟨j - 1, by omega⟩
    have htarget : target p = addr p := if_neg hrows.1.entry.inner.1
    have hround := hn₁ k (by omega)
    have hbody : assureBody (assureDir E k) E k d (s, target p) =
        .inl (s₁, target (commonNext S.mem (addr p))) := by
      rw [htarget, assureBody, if_neg (addr_ne_null p)]
      simp only [hround]
    rw [iterate_succ_inl hbody]
    exact hn₂ k j (by omega) (by omega)

/-- The directory is marked before its rows are loaded. -/
theorem mark_shows (h : Shows S s F kind fun _ => []) (hd : d ∈ F.live)
    (hdir : DirShows S s F kind d contents []) (habsent : (s.ent d).flags.present = false) :
    Shows S (s.modify d fun v => { v with flags.present := true }) F kind
      (pending d (rows contents).reverse) := by
  let f : Entry → Entry := fun v => { v with flags.present := true }
  have haside : Aside f := by
    constructor <;> intro _ <;> rfl
  have hent : ∀ y, y ≠ d → (s.modify d f).ent y = s.ent y := fun y hy => modify_ent_ne hy
  have hself : (s.modify d f).ent d = f (s.ent d) := modify_ent_self
  have hkey : (s.modify d f).key = s.key := by
    funext y
    exact congrArg CStr.key (modify_field s d Entry.name haside.name y)
  have hfirst : ∀ y, S.first (s.modify d f) y = S.first s y := fun y =>
    congrArg (commonData S.mem) (modify_field s d (f := f) Entry.node (fun _ => rfl) y)
  refine ⟨h.planted.modify haside fun _ => rfl, h.root, h.mem, h.size, h.dev, fun x hx y hy => ?_,
    fun x hx => ?_⟩
  · rw [hfirst]
    by_cases hyd : y = d
    · subst hyd
      obtain ⟨htype, hnode, -⟩ := h.entries x hx y hy
      refine ⟨?_, ?_, ?_⟩
      · rw [hself]
        exact htype
      · rw [hself]
        exact hnode
      · intro hfile
        rw [hdir.holds] at hfile
        cases hfile
    · obtain ⟨htype, hnode, hfile⟩ := h.entries x hx y hy
      exact ⟨hent y hyd ▸ htype, hent y hyd ▸ hnode, hent y hyd ▸ hfile⟩
  · by_cases hxd : x = d
    · subst hxd
      rw [pending, if_pos rfl]
      refine ⟨contents, hdir.holds, hdir.distinct, ?_, ?_, fun ha => ?_, fun _ => ⟨[], rfl, fun name => ?_⟩⟩
      · rw [hself]
        exact hdir.hasdata
      · rw [hself]
        exact hdir.node
      · rw [hself] at ha
        cases ha
      · rw [hdir.absent habsent]
        rfl
    · obtain ⟨contents', hother⟩ := h.dirs x hx
      rw [pending, if_neg hxd]
      exact ⟨contents', hother.holds, hother.distinct, hent x hxd ▸ hother.hasdata, hent x hxd ▸ hother.node,
        hent x hxd ▸ hother.absent, by rw [hent x hxd, hkey]; exact hother.loaded⟩

/-- So `assureDir` returns, and the tree has the entries of the directory. -/
theorem assure_shows (h : Shows S s F kind fun _ => []) (hd : d ∈ F.live) (E : Env) :
    ∃ s' F' kind', Settles (fun k => assureDir E k d s) s' ∧ Shows S s' F' kind' (fun _ => []) ∧
      Worked s F kind d s' F' kind' := by
  have hholds := h.planted.holds d hd
  by_cases hpresent : (s.ent d).flags.present = true
  · refine ⟨s, F, kind, settles_succ (settles_of_eq fun k => ?_), h, hd, rfl, hpresent, rfl, rfl,
      fun _ _ hx => hx⟩
    exact assureDir_ready hholds.type (.inr hpresent) E k
  · obtain ⟨contents, hdir⟩ := h.dirs d hd
    have habsent : (s.ent d).flags.present = false := Bool.eq_false_iff.mpr hpresent
    have hmark := mark_shows h hd hdir habsent
    obtain ⟨p, hinner, hnode, htype, hstored⟩ := hdir.node
    have hrows := hstored.rowNodes (show RowNodes S.host S.mem S.disk 0 [] from rfl)
    rw [List.append_nil] at hrows
    let s₀ := s.modify d fun v => { v with flags.present := true }
    have hself : s₀.ent d = { s.ent d with flags.present := true } := modify_ent_self
    have hbegin : S.first s₀ d = commonData S.mem (addr p) := by rw [Source.first, hself, hnode]
    obtain ⟨s', F', kind', ⟨n, hn⟩, hshows, hworked⟩ := loop_shows (E := E) hmark hd
      (congrArg (fun v => v.flags.present) hself) hrows (hbegin ▸ .first)
    refine ⟨s', F', kind', ⟨n + 1, fun k hk => ?_⟩, hshows, hworked.live, hworked.same, hworked.present,
      hworked.node.trans (show (s₀.ent d).node = _ by rw [hself]), hworked.root,
      fun x k hx => hworked.keeps x k ⟨hx.ne_null, hx.holds, hx.place⟩⟩
    obtain ⟨k, rfl⟩ : ∃ j, k = j + 1 := ⟨k - 1, by omega⟩
    have hcheck : ¬ (¬ (s.ent d).flags.hasdata = true ∨ (s.ent d).node = NULL ∨
        nodeType s.mem (s.ent d).node ≠ some .DIRECTORY) := by
      rw [hdir.hasdata, hnode, h.mem, htype]
      simp [addr_ne_null]
    have hfirst : resolveNode E (commonData s₀.mem (s₀.ent d).node) s₀ =
        some (s₀, target (commonData S.mem (addr p))) := by
      rw [hself, hmark.mem, hnode]
      exact resolve_rows hrows E hmark.size
    have hloop := hn k k (by omega) (by omega)
    show assureDir E (k + 1) d s = some s'
    rw [assureDir, if_neg (not_not_intro hholds.type), if_neg (by simp [h.dev, habsent]), if_neg hcheck]
    refine (congrArg (Option.bind · _) hfirst).trans ?_
    exact congrArg Option.join hloop

-- ---------------------------------------------------------------------------
-- fs_resolve
-- ---------------------------------------------------------------------------

/-- A directory that is found is in use. -/
theorem Is.live (hx : Is s F kind x (.dir contents)) (h : Shows S s F kind todo) : x ∈ F.live := by
  rcases hx.place with rfl | ⟨d, hd, hmem⟩
  · exact h.planted.root
  · refine h.planted.dirs d hd x hmem ?_
    rw [(h.entries d hd x hmem).type, hx.holds]
    rfl

/-- What an entry is decides its type. -/
theorem Is.type (hx : Is s F kind x k) (h : Shows S s F kind todo) : (s.ent x).type = k.entType := by
  rcases hx.place with rfl | ⟨d, hd, hmem⟩
  · obtain ⟨contents, hdir⟩ := h.dirs _ h.planted.root
    rw [(h.planted.holds _ h.planted.root).type, ← hx.holds, hdir.holds]
    rfl
  · rw [(h.entries d hd x hmem).type, hx.holds]

/-- `fsResolve` finds the row of that name. -/
theorem resolve_shows (h : Shows S s F kind fun _ => []) (hx : Is s F kind x (.dir contents)) (E : Env)
    (name : CStr) : ∃ s' F' kind' y, Settles (fun k => fsResolve E k name x s) (s', y) ∧
      Shows S s' F' kind' (fun _ => []) ∧ IsFound s' F' kind' y (findRow (rows contents) name) ∧
      (∀ k, findRow (rows contents) name = some k →
        EntryShows S s' (S.first s x) y k ∧ (s'.ent y).name = name) ∧
      s'.rootDir = s.rootDir ∧ Keeps s F kind s' F' kind' := by
  have hlive := hx.live h
  obtain ⟨s', F', kind', ⟨n, hn⟩, hshows, hworked⟩ := assure_shows h hlive E
  have hholds := hshows.planted.holds x hworked.live
  obtain ⟨sl, lp, hfound, m, hm⟩ := descend_found hholds name
  have hrow : findRow (rows contents) name = ((F'.tree x).lookup s'.key name.key).map kind' := by
    obtain ⟨contents', hdir⟩ := hshows.dirs x hworked.live
    obtain rfl : contents' = contents := by
      have hkind := hdir.holds
      rw [hworked.same, hx.holds] at hkind
      exact (Kind.dir.inj hkind).symm
    obtain ⟨done, hrows, hrow⟩ := hdir.loaded hworked.present
    rw [List.append_nil] at hrows
    rw [← findRow_reverse hdir.distinct.nodup, hrows, ← hrow]
  refine ⟨s', F', kind', ((F'.tree x).lookup s'.key name.key).getD NULL, ⟨max n m, fun k hk => ?_⟩, hshows,
    ?_, fun k hk => ?_, hworked.root, hworked.keeps⟩
  · have hassure := hn k (by omega)
    have hok : ¬ (x = NULL ∨ (s.ent x).type ≠ .DIRECTORY) := by
      simp [hx.ne_null, (h.planted.holds x hlive).type]
    rw [← hfound.load]
    simp only [fsResolve, find, findWith, if_neg hok, hassure, Option.bind_eq_bind, Option.bind_some,
      iterate_mono hm (show m ≤ k by omega)]
  · rw [hrow]
    cases hlook : (F'.tree x).lookup s'.key name.key with
    | none => rfl
    | some y =>
      have hmem := ((SearchTree.lookup_eq_some hholds.sorted).mp hlook).1
      exact ⟨Links.shape_ne_null hholds.shape y hmem, rfl, .inr ⟨x, hworked.live, hmem⟩⟩
  · rw [hrow] at hk
    obtain ⟨y, hlook, rfl⟩ := Option.map_eq_some_iff.mp hk
    obtain ⟨hmem, hkey⟩ := (SearchTree.lookup_eq_some hholds.sorted).mp hlook
    have hfirst : S.first s' x = S.first s x := by rw [Source.first, hworked.node, Source.first]
    rw [hlook, Option.getD_some, ← hfirst]
    exact ⟨hshows.entries x hworked.live y hmem, CStr.key_inj hkey⟩

end Loading

end Frosk.Mount
