import Mathlib.Tactic
import Frosk.Fs.Bounds

/-!
# The kernel's file system: the tree of a directory

`Holds s d t` says that directory `d` is the search tree `t` of its entries.
For a directory that needs no loading, `find_spec` says where `find` ends and
`replace_spec` what `insert_entry` and `fs_mkdir` make of the tree: the new
entry is `place`d in it, and no entry outside the directory changes.
-/

namespace Frosk.Fs

open Lib

/-- The order of the entries of a directory. -/
def State.key (s : State) (x : Ptr) : List Int := (s.ent x).name.key

/-- Directory `d` is the tree `t` of entries. -/
structure Holds (s : State) (d : Ptr) (t : SearchTree Ptr) : Prop where
  ne_null : d ≠ NULL
  type    : (s.ent d).type = .DIRECTORY
  shape   : (s.links d).Shape NULL (s.ent d).root NULL t
  sorted  : t.Sorted s.key
  apart   : d ∉ t.toList
  used    : ∀ x ∈ d :: t.toList, x ∈ s.used

/-- No entry is in the tree twice. -/
theorem nodup_of_sorted {s : State} {t : SearchTree Ptr} (h : t.Sorted s.key) : t.toList.Nodup := by
  refine List.Pairwise.imp ?_ h
  rintro a b hab rfl
  exact absurd hab (lt_irrefl _)

-- ---------------------------------------------------------------------------
-- Updates of single entries
-- ---------------------------------------------------------------------------

/-- An update that leaves alone what the tree of a directory is made of. -/
structure Aside (f : Entry → Entry) : Prop where
  left   : ∀ v, (f v).left = v.left
  right  : ∀ v, (f v).right = v.right
  parent : ∀ v, (f v).parent = v.parent
  root   : ∀ v, (f v).root = v.root
  name   : ∀ v, (f v).name = v.name
  type   : ∀ v, (f v).type = v.type

section Modify

variable {s : State} {x y d : Ptr} {f g : Entry → Entry}

theorem modify_ent_self : (s.modify x f).ent x = f (s.ent x) := Function.update_self ..

theorem modify_ent_ne (h : y ≠ x) : (s.modify x f).ent y = s.ent y := Function.update_of_ne h ..

/-- A field that the update keeps is as before in every entry. -/
theorem modify_field {β : Type} (s : State) (x : Ptr) {f : Entry → Entry} (π : Entry → β)
    (h : ∀ v, π (f v) = π v) (y : Ptr) :
    π ((s.modify x f).ent y) = π (s.ent y) := by
  by_cases hy : y = x
  · rw [hy, modify_ent_self, h]
  · rw [modify_ent_ne hy]

/-- A field that an update sets. -/
theorem update_field {β : Type} (s : State) (x : Ptr) {f : Entry → Entry} (π : Entry → β) {v : β}
    (h : ∀ u, π (f u) = v) (y : Ptr) :
    π ((s.modify x f).ent y) = Function.update (fun y => π (s.ent y)) x v y := by
  by_cases hy : y = x
  · rw [hy, modify_ent_self, Function.update_self, h]
  · rw [modify_ent_ne hy, Function.update_of_ne hy]

/-- Two updates of one entry. -/
theorem modify_modify : (s.modify x f).modify x g = s.modify x (g ∘ f) := by
  simp [State.modify]

/-- An update of other fields leaves the links alone. -/
theorem links_modify (hf : Aside f) : (s.modify x f).links d = s.links d := by
  unfold State.links
  simp only [modify_field _ _ _ hf.root, modify_field _ _ _ hf.left, modify_field _ _ _ hf.right,
    modify_field _ _ _ hf.parent]

/-- So the tree is as before. -/
theorem Holds.modify {t : SearchTree Ptr} (h : Holds s d t) (hf : Aside f) :
    Holds (s.modify x f) d t where
  ne_null := h.ne_null
  type := by rw [modify_field _ _ _ hf.type, h.type]
  shape := by
    rw [links_modify hf, modify_field _ _ _ hf.root]
    exact h.shape
  sorted := by
    refine SearchTree.sorted_congr (fun y _ => ?_) h.sorted
    exact modify_field _ _ (fun v => v.name.key) (fun v => congrArg CStr.key (hf.name v)) y
  apart := h.apart
  used := h.used

end Modify

-- ---------------------------------------------------------------------------
-- Storing a new entry
-- ---------------------------------------------------------------------------

section Store

variable (s : State) (d e : Ptr)

theorem store_root : s.store d e .root = s.modify d (Entry.setRoot e) := rfl

theorem store_left (p : Ptr) : s.store d e (.left p) = s.modify p (Entry.setLeft e) := rfl

theorem store_right (p : Ptr) : s.store d e (.right p) = s.modify p (Entry.setRight e) := rfl

/-- An entry is stored in a slot of the tree. -/
theorem links_store (sl : Slot Ptr) : (s.store d e sl).links d = (s.links d).store e sl := by
  cases sl with
  | root =>
    rw [store_root]
    refine Links.ext ?_ (funext fun x => ?_) (funext fun x => ?_) (funext fun x => ?_)
    · exact congrArg Entry.root modify_ent_self
    · exact modify_field s d (f := Entry.setRoot e) Entry.left (fun _ => rfl) x
    · exact modify_field s d (f := Entry.setRoot e) Entry.right (fun _ => rfl) x
    · exact modify_field s d (f := Entry.setRoot e) Entry.parent (fun _ => rfl) x
  | left p =>
    rw [store_left]
    refine Links.ext ?_ (funext fun x => ?_) (funext fun x => ?_) (funext fun x => ?_)
    · exact modify_field s p (f := Entry.setLeft e) Entry.root (fun _ => rfl) d
    · exact update_field s p (f := Entry.setLeft e) Entry.left (fun _ => rfl) x
    · exact modify_field s p (f := Entry.setLeft e) Entry.right (fun _ => rfl) x
    · exact modify_field s p (f := Entry.setLeft e) Entry.parent (fun _ => rfl) x
  | right p =>
    rw [store_right]
    refine Links.ext ?_ (funext fun x => ?_) (funext fun x => ?_) (funext fun x => ?_)
    · exact modify_field s p (f := Entry.setRight e) Entry.root (fun _ => rfl) d
    · exact modify_field s p (f := Entry.setRight e) Entry.left (fun _ => rfl) x
    · exact update_field s p (f := Entry.setRight e) Entry.right (fun _ => rfl) x
    · exact modify_field s p (f := Entry.setRight e) Entry.parent (fun _ => rfl) x

/-- Storing into a slot changes links only. -/
theorem store_links_only (sl : Slot Ptr) (x : Ptr) : ∃ l r u, (s.store d e sl).ent x =
    { s.ent x with left := l, right := r, root := u } ∧ (x ≠ d → u = (s.ent x).root) := by
  cases sl with
  | root =>
    rw [store_root]
    by_cases hx : x = d
    · subst hx
      exact ⟨_, _, e, modify_ent_self, fun h => absurd rfl h⟩
    · exact ⟨_, _, _, modify_ent_ne hx, fun _ => rfl⟩
  | left p =>
    rw [store_left]
    by_cases hx : x = p
    · subst hx
      exact ⟨e, _, _, modify_ent_self, fun _ => rfl⟩
    · exact ⟨_, _, _, modify_ent_ne hx, fun _ => rfl⟩
  | right p =>
    rw [store_right]
    by_cases hx : x = p
    · subst hx
      exact ⟨_, e, _, modify_ent_self, fun _ => rfl⟩
    · exact ⟨_, _, _, modify_ent_ne hx, fun _ => rfl⟩

/-- No name and no type changes. -/
theorem store_name (sl : Slot Ptr) (x : Ptr) :
    ((s.store d e sl).ent x).name = (s.ent x).name ∧
    ((s.store d e sl).ent x).type = (s.ent x).type := by
  obtain ⟨l, r, u, h, _⟩ := store_links_only s d e sl x
  rw [h]
  exact ⟨rfl, rfl⟩

variable {s d e} in
/-- Entries that do not own the slot are as before. -/
theorem store_ent_ne {x : Ptr} {sl : Slot Ptr} (hd : x ≠ d) (hsl : sl.owner ≠ some x) :
    (s.store d e sl).ent x = s.ent x := by
  cases sl with
  | root => exact modify_ent_ne hd
  | left p => exact modify_ent_ne fun h => hsl (congrArg some h.symm)
  | right p => exact modify_ent_ne fun h => hsl (congrArg some h.symm)

end Store

section Create

variable {E : Env} {s : State} {name : CStr} {lp d : Ptr} {type : EntType}

/-- The entry `create_entry` makes. -/
def fresh (E : Env) (s : State) : Ptr := E.kalloc.pick s.used

/-- A new entry is the only one that is written. -/
theorem createEntry_ent : (createEntry E (some name) lp type s).1.ent =
    Function.update s.ent (fresh E s) (initEntry (s.ent (fresh E s)) (some name) lp type) := rfl

/-- The fields of a new entry. -/
theorem initEntry_links (old : Entry) :
    (initEntry old (some name) lp type).left = NULL ∧
    (initEntry old (some name) lp type).right = NULL ∧
    (initEntry old (some name) lp type).parent = lp ∧
    (initEntry old (some name) lp type).name = name ∧
    (initEntry old (some name) lp type).type = type := by
  cases type <;> exact ⟨rfl, rfl, rfl, rfl, rfl⟩

/-- A new entry has no entries below it yet. -/
theorem links_create (hd : d ≠ fresh E s) :
    (createEntry E (some name) lp type s).1.links d =
      (s.links d).create NULL (fresh E s) lp := by
  let used : State := { s with used := fresh E s :: s.used }
  let init : Entry → Entry := fun old => initEntry old (some name) lp type
  have hcreate : createEntry E (some name) lp type s =
      (used.modify (fresh E s) init, fresh E s) := rfl
  rw [hcreate]
  refine Links.ext ?_ (funext fun x => ?_) (funext fun x => ?_) (funext fun x => ?_)
  · exact congrArg Entry.root (modify_ent_ne (f := init) hd)
  · exact update_field used (fresh E s) (f := init) Entry.left (fun _ => (initEntry_links _).1) x
  · exact update_field used (fresh E s) (f := init) Entry.right (fun _ => (initEntry_links _).2.1) x
  · exact update_field used (fresh E s) (f := init) Entry.parent
      (fun _ => (initEntry_links _).2.2.1) x

end Create

-- ---------------------------------------------------------------------------
-- find and the replacement it leads to
-- ---------------------------------------------------------------------------

/-- Where `find` ends: the slot of the name. -/
structure Found (s : State) (d : Ptr) (t : SearchTree Ptr) (name : CStr) (sl : Slot Ptr) (lp : Ptr) :
    Prop where
  load  : (s.links d).load sl = (t.lookup s.key name.key).getD NULL
  owner : ∀ x, sl.owner = some x → x ∈ t.toList
  place : ∀ q, q ≠ NULL → q ∉ t.toList →
    (((s.links d).create NULL q lp).store q sl).Shape NULL
      (((s.links d).create NULL q lp).store q sl).root NULL (t.place s.key name.key q)

/-- The search ends in the slot of the name. -/
theorem descend_found {s : State} {d : Ptr} {t : SearchTree Ptr} (h : Holds s d t) (name : CStr) :
    ∃ sl lp, Found s d t name sl lp ∧ Exits (descendBody (s.links d) NULL fun x =>
      strcmp name (s.ent x).name) (.root, NULL) (sl, lp) := by
  obtain ⟨sl, lp, hexits, hload, hwhere, hplace⟩ := descend_spec
    (fun x => strcmp name (s.ent x).name) s.key name.key t .root NULL h.shape
    (nodup_of_sorted h.sorted) (fun _ hp => nomatch hp) (fun x _ => ⟨strcmp_lt _ _, strcmp_gt _ _⟩)
  refine ⟨sl, lp, ⟨hload, ?_, ?_⟩, hexits⟩
  · intro x hx
    rcases hwhere with ⟨rfl, _⟩ | ⟨y, hy, hyo⟩
    · exact nomatch hx
    · rw [hyo] at hx
      exact Option.some.inj hx ▸ hy
  · intro q hq hqt
    exact hplace q hq hqt (fun hn => nomatch hn)

/-- `find` returns the slot of a name, if the directory needs no loading. -/
theorem find_spec {s : State} {d : Ptr} {t : SearchTree Ptr} (h : Holds s d t) (name : CStr) :
    ∃ n sl lp, Found s d t name sl lp ∧ ∀ (assure : Ptr → State → Option State) (k : Nat),
      n ≤ k → assure d s = some s → findWith assure k name d s = some (s, sl, lp) := by
  obtain ⟨sl, lp, hfound, n, hn⟩ := descend_found h name
  refine ⟨n, sl, lp, hfound, ?_⟩
  intro assure k hle hassure
  have hok : ¬ (d = NULL ∨ (s.ent d).type ≠ .DIRECTORY) := by simp [h.ne_null, h.type]
  rw [findWith, if_neg hok, hassure]
  simp only [Option.bind_eq_bind, Option.bind_some, iterate_mono hn hle]

/-- What a replacement makes of the state. -/
structure Replaced (E : Env) (s : State) (d : Ptr) (t : SearchTree Ptr) (name : CStr) (type : EntType)
    (s' : State) : Prop where
  holds  : Holds s' d (t.place s.key name.key (fresh E s))
  made   : ∃ old lp, s'.ent (fresh E s) = initEntry old (some name) lp type
  kept   : ∀ x, x ≠ fresh E s → ∃ l r u, s'.ent x =
    { s.ent x with left := l, right := r, root := u } ∧ (x ≠ d → u = (s.ent x).root)
  inside : ∀ x, x ≠ fresh E s → x ∉ t.toList → ∃ u, s'.ent x = { s.ent x with root := u }
  frame  : ∀ x, x ≠ fresh E s → x ∉ d :: t.toList → s'.ent x = s.ent x
  used   : s'.used = fresh E s :: s.used
  others : s' = { s with ent := s'.ent, used := s'.used }

/-- A new entry in the slot of its name. -/
theorem store_spec {E : Env} {s : State} {d : Ptr} {t : SearchTree Ptr} {name : CStr}
    {sl : Slot Ptr} {lp : Ptr} (h : Holds s d t) (hf : Found s d t name sl lp) (type : EntType) :
    Replaced E s d t name type
      ((createEntry E (some name) lp type s).1.store d (fresh E s) sl) := by
  have hfresh : fresh E s ∉ s.used := E.kalloc.fresh s.used
  have hnull : fresh E s ≠ NULL := E.kalloc.ne_null s.used
  have hnew : ∀ x ∈ d :: t.toList, x ≠ fresh E s := fun x hx hxe => hfresh (hxe ▸ h.used x hx)
  have hd : d ≠ fresh E s := hnew d List.mem_cons_self
  have het : fresh E s ∉ t.toList := fun hmem => hnew _ (List.mem_cons_of_mem _ hmem) rfl
  have hsle : sl.owner ≠ some (fresh E s) := fun hsl => het (hf.owner _ hsl)
  let s₁ := (createEntry E (some name) lp type s).1
  let s' := s₁.store d (fresh E s) sl
  have hlinks : s'.links d = ((s.links d).create NULL (fresh E s) lp).store (fresh E s) sl := by
    rw [links_store, links_create hd]
  have hmade : s'.ent (fresh E s) =
      initEntry (s.ent (fresh E s)) (some name) lp type := by
    rw [store_ent_ne hd.symm hsle]
    rw [createEntry_ent, Function.update_self]
  have hent : ∀ x, x ≠ fresh E s → s₁.ent x = s.ent x := by
    intro x hx
    rw [createEntry_ent, Function.update_of_ne hx]
  have hkey : ∀ x ∈ t.toList, s'.key x = s.key x := by
    intro x hx
    have hx' := hnew x (List.mem_cons_of_mem _ hx)
    unfold State.key
    rw [(store_name s₁ d (fresh E s) sl x).1, hent x hx']
  have hkeye : s'.key (fresh E s) = name.key := by
    unfold State.key
    rw [hmade, (initEntry_links _).2.2.2.1]
  have hused : s'.used = fresh E s :: s.used := by cases sl <;> rfl
  refine ⟨?_, ⟨_, lp, hmade⟩, ?_, ?_, ?_, hused, ?_⟩
  · refine ⟨h.ne_null, ?_, ?_, ?_, ?_, ?_⟩
    · rw [(store_name s₁ d (fresh E s) sl d).2, hent d hd, h.type]
    · have hroot : (s'.ent d).root = (s'.links d).root := rfl
      rw [hroot, hlinks]
      exact hf.place _ hnull het
    · rw [← SearchTree.place_congr hkey]
      exact SearchTree.sorted_place (SearchTree.sorted_congr hkey h.sorted) hkeye
    · intro hmem
      rcases SearchTree.mem_place h.sorted hmem with hde | ⟨hdt, _⟩
      · exact hd hde
      · exact h.apart hdt
    · intro x hx
      rw [hused]
      rcases List.mem_cons.mp hx with rfl | hx
      · exact List.mem_cons_of_mem _ (h.used x List.mem_cons_self)
      · rcases SearchTree.mem_place h.sorted hx with rfl | ⟨hxt, _⟩
        · exact List.mem_cons_self
        · exact List.mem_cons_of_mem _ (h.used x (List.mem_cons_of_mem _ hxt))
  · intro x hx
    rw [← hent x hx]
    exact store_links_only s₁ d (fresh E s) sl x
  · intro x hx hxt
    rw [← hent x hx]
    cases sl with
    | root =>
      by_cases hxd : x = d
      · subst hxd
        exact ⟨_, modify_ent_self⟩
      · exact ⟨_, modify_ent_ne hxd⟩
    | left p => exact ⟨_, modify_ent_ne fun hxp => hxt (hxp ▸ hf.owner p rfl)⟩
    | right p => exact ⟨_, modify_ent_ne fun hxp => hxt (hxp ▸ hf.owner p rfl)⟩
  · intro x hx hxd
    simp only [List.mem_cons, not_or] at hxd
    rw [store_ent_ne hxd.1 fun hsl => hxd.2 (hf.owner x hsl), hent x hx]
  · cases sl <;> rfl

/-- `replace_entry` returns, and leaves the new entry in place of the old one. -/
theorem replace_spec {E : Env} {s : State} {d : Ptr} {t : SearchTree Ptr} {name : CStr}
    {sl : Slot Ptr} {lp : Ptr} (h : Holds s d t) (hf : Found s d t name sl lp) (type : EntType) :
    ∃ s', Replaced E s d t name type s' ∧ ∀ k,
      (∀ e, t.lookup s.key name.key = some e → decimate k e s = some s) →
      replaceEntry E k name d type sl lp s = some (s', fresh E s) := by
  refine ⟨_, store_spec h hf type, ?_⟩
  intro k hdec
  have hold : (if (s.links d).load sl ≠ NULL then decimate k ((s.links d).load sl) s
      else some s) = some s := by
    rw [hf.load]
    cases hlook : t.lookup s.key name.key with
    | none => simp
    | some e =>
      rw [Option.getD_some]
      split
      · exact hdec e hlook
      · rfl
  unfold replaceEntry
  simp only [hold, Option.bind_eq_bind, Option.bind_some]
  rfl

end Frosk.Fs
