import Mathlib.Tactic
import Frosk.Fs.Tree

/-!
# The kernel's file system: a directory as a map

`Op` are the operations that put an entry into a directory: the functions
`fs_mkdir`, `fs_mkvdir` and `fs_enter`, and a round of the loop of `assure_dir`,
which by then has marked the directory as present. A run of operations is kept
with the entry that the last operation on each name made.

Main result: `directory_map_iff`. After every operation of a run each name
resolves to the entry of the last operation on it, precisely when every
operation is on a new name or on one whose entry has no entries below it in the
tree. The slot of the name is given a new entry with empty links, and whatever
hung below the old one is lost (`recreate_loses`).
-/

namespace Frosk.Fs

open Lib

/-- An operation that makes an entry. -/
inductive Op where
  | mkdir (name : CStr)
  | mkvdir (name : CStr)
  | enter (name : CStr) (data : Ptr) (size : Nat)
  | load (name : CStr) (type : EntType) (node : Nat)
deriving DecidableEq

namespace Op

def name : Op → CStr
  | mkdir name | mkvdir name | enter name _ _ | load name _ _ => name

def type : Op → EntType
  | mkdir _ | mkvdir _ => .DIRECTORY
  | enter _ _ _ => .FILE
  | load _ type _ => type

/-- What the operation stores in the entry after `create_entry`. -/
def mark : Op → Entry → Entry
  | mkdir _, v => { v with flags.present := true, flags.hasdata := true }
  | mkvdir _, v => { v with flags.present := true, flags.hasdata := true, flags.virt := true }
  | enter _ data size, v => { v with flags.virt := true, data := data, size := size }
  | load _ type node, v => markLoaded node type v

/-- The entry the operation makes, in storage that held `old`. -/
def made (op : Op) (old : Entry) (lpar : Ptr) : Entry :=
  op.mark (initEntry old (some op.name) lpar op.type)

def call (E : Env) (d : Ptr) (s : State) (op : Op) (n : Nat) : Option (State × Ptr) :=
  match op with
  | mkdir name => fsMkdir E n name d s
  | mkvdir name => fsMkvdir E n name d s
  | enter name data size => fsEnter E n name data size d s
  | load name type node => loadEntry E n node name d type s

end Op

/-- A directory in use, with the last operation on each name and its entry. -/
structure Dir where
  fs   : State
  last : CStr → Option (Op × Ptr)

/-- The operation made entry `e` and left the file system as `s`. -/
def Dir.record (u : Dir) (op : Op) (s : State) (e : Ptr) : Dir :=
  ⟨s, Function.update u.last op.name (some (op, e))⟩

def Dir.call (E : Env) (d : Ptr) (u : Dir) (op : Op) (n : Nat) : Option (Dir × Ptr) :=
  (op.call E d u.fs n).map fun r => (u.record op r.1 r.2, r.2)

def Dir.Step (E : Env) (d : Ptr) (u : Dir) (op : Op) (u' : Dir) (e : Ptr) : Prop :=
  ∃ n, u.call E d op n = some (u', e)

section Record

variable {u : Dir} {op : Op} {s : State} {e : Ptr} {name : CStr}

/-- The last entry of a name is the one just made. -/
theorem record_last_self : (u.record op s e).last op.name = some (op, e) :=
  Function.update_self ..

/-- Other names keep theirs. -/
theorem record_last_ne (h : name ≠ op.name) : (u.record op s e).last name = u.last name :=
  Function.update_of_ne h ..

end Record

/-- The entry is what the operation made, apart from its links. -/
def Described (op : Op) (v : Entry) : Prop :=
  ∃ old lp l r, v = { op.made old lp with left := l, right := r }

/-- Every name resolves to the entry of the last operation on it, and to `NULL`
if there was none. -/
def IsMap (E : Env) (d : Ptr) (u : Dir) : Prop :=
  ∀ name, (∃ n, fsResolve E n name d u.fs =
      some (u.fs, ((u.last name).map Prod.snd).getD NULL)) ∧
    ∀ op e, u.last name = some (op, e) → e ≠ NULL ∧ op.name = name ∧ Described op (u.fs.ent e)

/-- The name is new, or its entry is a leaf of the tree. -/
def NewOrLeaf (u : Dir) (op : Op) : Prop :=
  ∀ p ∈ u.last op.name, (u.fs.ent p.2).left = NULL ∧ (u.fs.ent p.2).right = NULL

instance (u : Dir) (op : Op) : Decidable (NewOrLeaf u op) :=
  inferInstanceAs (Decidable (∀ p ∈ u.last op.name, _))

/-- A directory without entries that `assure_dir` has nothing to load for. -/
structure Empty (s : State) (d : Ptr) : Prop where
  ne_null : d ≠ NULL
  used    : d ∈ s.used
  type    : (s.ent d).type = .DIRECTORY
  root    : (s.ent d).root = NULL
  ready   : s.rootDev = false ∨ (s.ent d).flags.present = true

-- ---------------------------------------------------------------------------
-- The operations are one
-- ---------------------------------------------------------------------------

/-- What a call sets in its entry is no link. -/
theorem mark_aside (op : Op) : Aside op.mark := by
  cases op with
  | mkdir _ => constructor <;> intro _ <;> rfl
  | mkvdir _ => constructor <;> intro _ <;> rfl
  | enter _ _ _ => constructor <;> intro _ <;> rfl
  | load _ type _ => cases type <;> constructor <;> intro _ <;> rfl

/-- A call in three steps: it finds the slot, replaces the entry in it, and marks the new one. -/
theorem call_eq (E : Env) (d : Ptr) (s : State) (op : Op) (n : Nat) :
    op.call E d s n = (find E n op.name d s).bind fun r =>
      (replaceEntry E n op.name d op.type r.2.1 r.2.2 r.1).bind fun q =>
        some (q.1.modify q.2 op.mark, q.2) := by
  cases op with
  | mkdir name => rfl
  | mkvdir name =>
    rw [Op.call, fsMkvdir, fsMkdir]
    simp only [Option.bind_eq_bind, Option.bind_assoc, Option.bind_some, modify_modify]
    rfl
  | enter name data size =>
    rw [Op.call, fsEnter, insertEntry, insertEntryWith]
    simp only [Option.bind_eq_bind, Option.bind_assoc]
    rfl
  | load name type node =>
    rw [Op.call, loadEntry, loadEntryWith, insertEntryWith]
    simp only [Option.bind_eq_bind, Option.bind_assoc]
    rfl

/-- More rounds do not change a result. -/
theorem call_below (E : Env) (d : Ptr) (s : State) (op : Op) {n k : Nat} (hle : n ≤ k) :
    Below (op.call E d s n) (op.call E d s k) := by
  cases op with
  | mkdir name => exact fsMkdir_below E hle name d s
  | mkvdir name => exact fsMkvdir_below E hle name d s
  | enter name data size => exact fsEnter_below E hle name data size d s
  | load name type node => exact loadEntry_below E hle node name d type s

theorem dirCall_fueled (E : Env) (d : Ptr) : Fueled (Dir.call E d) := by
  intro u op n m r hle h
  obtain ⟨q, hq, rfl⟩ := Option.map_eq_some_iff.mp h
  exact Option.map_eq_some_iff.mpr ⟨q, call_below E d u.fs op hle q hq, rfl⟩

-- ---------------------------------------------------------------------------
-- One operation
-- ---------------------------------------------------------------------------

/-- A directory that is there already is not loaded. -/
theorem assureDir_ready {s : State} {d : Ptr} (htype : (s.ent d).type = .DIRECTORY)
    (hready : s.rootDev = false ∨ (s.ent d).flags.present = true) (E : Env) (k : Nat) :
    assureDir E (k + 1) d s = some s := by
  have hcond : (¬ s.rootDev ∨ (s.ent d).flags.present) := by
    rcases hready with h | h
    · exact .inl (by simp [h])
    · exact .inr h
  rw [assureDir, if_neg (by simp [htype]), if_pos hcond]

/-- An entry that an operation made has nothing to free. -/
theorem decimate_described {op : Op} {s : State} {e : Ptr} (h : Described op (s.ent e))
    (k : Nat) : decimate (k + 1) e s = some s := by
  obtain ⟨old, lp, l, r, h⟩ := h
  have hdir : ∀ {v : Entry}, s.ent e = v → v.type = .DIRECTORY → v.root = NULL →
      decimate (k + 1) e s = some s := by
    rintro _ rfl htype hroot
    rw [decimate, decimateWith, htype]
    split
    · show destroy (k + 1) (s.ent e).root s = some s
      rw [hroot, destroy, if_pos rfl]
    · rfl
  have hplain : ∀ {v : Entry}, s.ent e = v → v.flags.hasdata = false →
      decimate (k + 1) e s = some s := by
    rintro _ rfl hflag
    rw [decimate, decimateWith, if_neg (by simp [hflag])]
  cases op with
  | mkdir name => exact hdir h rfl rfl
  | mkvdir name => exact hdir h rfl rfl
  | enter name data size => exact hplain h rfl
  | load name type node =>
    cases type with
    | FILE => exact hplain h rfl
    | DIRECTORY => exact hdir h rfl rfl
    | INDIRECT => exact hplain h rfl

/-- The tree of a directory in use agrees with the last operations. -/
structure Agrees (d : Ptr) (u : Dir) (t : SearchTree Ptr) : Prop where
  holds     : Holds u.fs d t
  ready     : u.fs.rootDev = false ∨ (u.fs.ent d).flags.present = true
  last      : ∀ name, (u.last name).map Prod.snd = t.lookup u.fs.key name.key
  described : ∀ name op e, u.last name = some (op, e) → op.name = name ∧ Described op (u.fs.ent e)

/-- What an operation makes of the state. -/
structure Done (E : Env) (s : State) (d : Ptr) (t : SearchTree Ptr) (op : Op) (s' : State) :
    Prop where
  holds : Holds s' d (t.place s.key op.name.key (fresh E s))
  made  : Described op (s'.ent (fresh E s))
  kept  : ∀ x, x ≠ fresh E s → x ≠ d →
    ∃ l r, s'.ent x = { s.ent x with left := l, right := r }
  ready : s.rootDev = false ∨ (s.ent d).flags.present = true →
    s'.rootDev = false ∨ (s'.ent d).flags.present = true

section Step

variable {E : Env} {d : Ptr} {u : Dir} {t : SearchTree Ptr} {op : Op} {s' : State}

/-- What the tree has for a name is the last entry that was made. -/
theorem lookup_last (h : Agrees d u t) {name : CStr} {e : Ptr}
    (he : t.lookup u.fs.key name.key = some e) : ∃ op, u.last name = some (op, e) := by
  rw [← h.last] at he
  obtain ⟨p, hp, rfl⟩ := Option.map_eq_some_iff.mp he
  exact ⟨p.1, hp⟩

/-- A call on a directory returns a new entry and places it. -/
theorem call_spec (h : Agrees d u t) (E : Env) (op : Op) :
    ∃ n s', op.call E d u.fs n = some (s', fresh E u.fs) ∧ Done E u.fs d t op s' := by
  obtain ⟨n, sl, lp, hfound, hfind⟩ := find_spec h.holds op.name
  obtain ⟨s₁, hrep, hreplace⟩ := replace_spec (E := E) h.holds hfound op.type
  have hd : d ≠ fresh E u.fs := by
    intro hde
    have hused := h.holds.used d List.mem_cons_self
    rw [hde] at hused
    exact E.kalloc.fresh u.fs.used hused
  have hfind' : find E (n + 1) op.name d u.fs = some (u.fs, sl, lp) :=
    hfind _ _ (Nat.le_succ n) (assureDir_ready h.holds.type h.ready E n)
  have hreplace' : replaceEntry E (n + 1) op.name d op.type sl lp u.fs =
      some (s₁, fresh E u.fs) := by
    refine hreplace _ ?_
    intro e he
    obtain ⟨o, ho⟩ := lookup_last h he
    exact decimate_described (h.described op.name o e ho).2 n
  refine ⟨n + 1, s₁.modify (fresh E u.fs) op.mark, ?_, ?_, ?_, ?_, ?_⟩
  · rw [call_eq, hfind', Option.bind_some, hreplace', Option.bind_some]
  · exact hrep.holds.modify (mark_aside op)
  · obtain ⟨old, lp, hmade⟩ := hrep.made
    refine ⟨old, lp, (op.made old lp).left, (op.made old lp).right, ?_⟩
    rw [modify_ent_self, hmade]
    rfl
  · intro x hx hxd
    obtain ⟨l, r, v, hkept, hroot⟩ := hrep.kept x hx
    rw [modify_ent_ne hx, hkept, hroot hxd]
    exact ⟨l, r, rfl⟩
  · intro hready
    obtain ⟨l, r, v, hkept, _⟩ := hrep.kept d hd
    have hdev : s₁.rootDev = u.fs.rootDev := by rw [hrep.others]
    rw [modify_ent_ne hd, hkept]
    exact hready.imp (fun hr => hdev.trans hr) id

/-- The other entries keep their names. -/
theorem done_key (h : Agrees d u t) (hdone : Done E u.fs d t op s') :
    (∀ x ∈ t.toList, x ≠ fresh E u.fs ∧ x ≠ d) ∧
    (∀ x ∈ t.toList, s'.key x = u.fs.key x) ∧ s'.key (fresh E u.fs) = op.name.key := by
  have hne : ∀ x ∈ t.toList, x ≠ fresh E u.fs ∧ x ≠ d := by
    intro x hx
    constructor
    · rintro rfl
      exact E.kalloc.fresh u.fs.used (h.holds.used _ (List.mem_cons_of_mem _ hx))
    · rintro rfl
      exact h.holds.apart hx
  refine ⟨hne, ?_, ?_⟩
  · intro x hx
    obtain ⟨l, r, hkept⟩ := hdone.kept x (hne x hx).1 (hne x hx).2
    rw [State.key, hkept]
    rfl
  · obtain ⟨old, lp, l, r, hmade⟩ := hdone.made
    rw [State.key, hmade]
    show ((op.mark _).name).key = _
    rw [(mark_aside op).name, (initEntry_links _).2.2.2.1]

/-- An operation on a new name or on a leaf keeps the agreement. -/
theorem agrees_done (h : Agrees d u t) (hdone : Done E u.fs d t op s') (hleaf : NewOrLeaf u op) :
    Agrees d (u.record op s' (fresh E u.fs))
      (t.place u.fs.key op.name.key (fresh E u.fs)) := by
  obtain ⟨hne, hkey, hkeye⟩ := done_key h hdone
  have hsorted : t.Sorted s'.key := SearchTree.sorted_congr hkey h.holds.sorted
  have hleafAt : t.LeafAt s'.key op.name.key := by
    rw [SearchTree.leafAt_congr hkey, Links.leafAt_iff h.holds.shape]
    intro e he
    obtain ⟨o, ho⟩ := lookup_last h he
    exact hleaf _ ho
  refine ⟨hdone.holds, hdone.ready h.ready, ?_, ?_⟩
  · intro name
    show _ = SearchTree.lookup s'.key _ _
    rw [← SearchTree.place_congr hkey]
    by_cases hname : name = op.name
    · rw [hname, record_last_self, SearchTree.lookup_place_self hsorted hkeye]
      rfl
    · have hkne : name.key ≠ op.name.key := fun hk => hname (CStr.key_inj hk)
      rw [record_last_ne hname, h.last, SearchTree.lookup_place_ne hleafAt hkeye hkne,
        SearchTree.lookup_congr hkey]
  · intro name o e hlast
    by_cases hname : name = op.name
    · rw [hname, record_last_self] at hlast
      obtain ⟨rfl, rfl⟩ := Prod.mk.inj (Option.some.inj hlast)
      exact ⟨hname.symm, hdone.made⟩
    · rw [record_last_ne hname] at hlast
      obtain ⟨hon, old, lp, l, r, hdesc⟩ := h.described name o e hlast
      have hmem : e ∈ t.toList := by
        have hlook := h.last name
        rw [hlast] at hlook
        exact ((SearchTree.lookup_eq_some h.holds.sorted).mp hlook.symm).1
      obtain ⟨l', r', hkept⟩ := hdone.kept e (hne e hmem).1 (hne e hmem).2
      refine ⟨hon, old, lp, l', r', ?_⟩
      show s'.ent e = _
      rw [hkept, hdesc]

/-- What resolving a name gives. -/
theorem resolve_spec {s : State} (h : Holds s d t)
    (hready : s.rootDev = false ∨ (s.ent d).flags.present = true) (E : Env) (name : CStr) :
    ∃ n, fsResolve E n name d s = some (s, (t.lookup s.key name.key).getD NULL) := by
  obtain ⟨n, sl, lp, hfound, hfind⟩ := find_spec h name
  refine ⟨n + 1, ?_⟩
  have hfind' : find E (n + 1) name d s = some (s, sl, lp) :=
    hfind _ _ (Nat.le_succ n) (assureDir_ready h.type hready E n)
  rw [fsResolve, hfind', ← hfound.load]
  rfl

/-- A tree that agrees with the calls is the map of them. -/
theorem isMap_of_agrees (h : Agrees d u t) (E : Env) : IsMap E d u := by
  intro name
  refine ⟨?_, fun op e hlast => ⟨?_, h.described name op e hlast⟩⟩
  · rw [h.last]
    exact resolve_spec h.holds h.ready E name
  · have hlook := h.last name
    rw [hlast] at hlook
    have hmem := ((SearchTree.lookup_eq_some h.holds.sorted).mp hlook.symm).1
    exact Links.shape_ne_null h.holds.shape e hmem

/-- An operation on the name of an inner entry loses another name. -/
theorem not_isMap_done (h : Agrees d u t) (hdone : Done E u.fs d t op s')
    (hleaf : ¬ NewOrLeaf u op) :
    ¬ IsMap E d (u.record op s' (fresh E u.fs)) := by
  obtain ⟨hne, hkey, hkeye⟩ := done_key h hdone
  have hleafAt : ¬ t.LeafAt s'.key op.name.key := by
    rw [SearchTree.leafAt_congr hkey, Links.leafAt_iff h.holds.shape]
    intro hall
    refine hleaf fun p hp => hall p.2 ?_
    rw [← h.last, show u.last op.name = some p from hp]
    rfl
  obtain ⟨x, hx, hxk, hlost⟩ := SearchTree.exists_lost
    (SearchTree.sorted_congr hkey h.holds.sorted) hleafAt hkeye
  intro hmap
  -- `x` was the entry of its name, and still is for the record of operations
  have hlook : t.lookup u.fs.key (s'.ent x).name.key = some x :=
    (SearchTree.lookup_eq_some h.holds.sorted).mpr ⟨hx, (hkey x hx).symm⟩
  obtain ⟨o, ho⟩ := lookup_last h hlook
  have hname : (s'.ent x).name ≠ op.name := fun heq => hxk (congrArg CStr.key heq)
  have hlast : (u.record op s' (fresh E u.fs)).last (s'.ent x).name = some (o, x) := by
    rw [record_last_ne hname, ho]
  obtain ⟨⟨n, hn⟩, _⟩ := hmap (s'.ent x).name
  obtain ⟨m, hm⟩ := resolve_spec hdone.holds (hdone.ready h.ready) E (s'.ent x).name
  rw [hlast] at hn
  have heq : some (s', x) = some (s', (SearchTree.lookup s'.key (s'.ent x).name.key _).getD NULL) :=
    (fsResolve_below E (Nat.le_max_left n m) _ _ _ _ hn).symm.trans
      (fsResolve_below E (Nat.le_max_right n m) _ _ _ _ hm)
  have hnone : (t.place u.fs.key op.name.key (fresh E u.fs)).lookup s'.key
      (s'.ent x).name.key = none := by
    rw [← SearchTree.place_congr hkey]
    exact hlost
  rw [hnone] at heq
  exact Links.shape_ne_null h.holds.shape x hx (Prod.mk.inj (Option.some.inj heq)).2

end Step

-- ---------------------------------------------------------------------------
-- Runs
-- ---------------------------------------------------------------------------

/-- Both are empty at first. -/
theorem agrees_start {s : State} {d : Ptr} (h : Empty s d) :
    Agrees d ⟨s, fun _ => none⟩ .nil where
  holds := {
    ne_null := h.ne_null
    type := h.type
    shape := h.root
    sorted := List.Pairwise.nil
    apart := List.not_mem_nil
    used := fun x hx => by
      obtain rfl := List.mem_singleton.mp hx
      exact h.used }
  ready := h.ready
  last _ := rfl
  described _ _ _ hlast := nomatch hlast

/-- **A directory is a map** from names to the entries last made for them,
after every operation of a run, if and only if no operation is on a name whose
entry has others below it. -/
theorem directory_map_iff (E : Env) (s : State) (d : Ptr) (h : Empty s d) (ops : List Op) :
    Along (Dir.Step E d) (fun _ _ u _ => IsMap E d u) ⟨s, fun _ => none⟩ ops ↔
      Whenever (Dir.Step E d) NewOrLeaf ⟨s, fun _ => none⟩ ops := by
  have hcall : ∀ u op, (∃ t, Agrees d u t) → ∃ t s', Agrees d u t ∧ Done E u.fs d t op s' ∧
      Dir.Step E d u op (u.record op s' (fresh E u.fs)) (fresh E u.fs) := by
    rintro u op ⟨t, ht⟩
    obtain ⟨n, s', hcall, hdone⟩ := call_spec ht E op
    exact ⟨t, s', ht, hdone, n, by rw [Dir.call, hcall]; rfl⟩
  have hdet : ∀ u op u₁ e₁ u₂ e₂, Dir.Step E d u op u₁ e₁ → Dir.Step E d u op u₂ e₂ →
      u₁ = u₂ ∧ e₁ = e₂ := by
    rintro u op u₁ e₁ u₂ e₂ ⟨n, hn⟩ ⟨m, hm⟩
    exact Prod.mk.inj ((dirCall_fueled E d).unique hn hm)
  have hall : ∀ {ops : List Op} {u : Dir},
      Whenever (Dir.Step E d) (fun _ _ => True) u ops := by
    intro ops
    induction ops with
    | nil => exact trivial
    | cons op ops ih => exact ⟨trivial, fun _ _ _ => ih⟩
  have hgood : ∀ u op, (∃ t, Agrees d u t) → True → NewOrLeaf u op →
      ∃ u' e, Dir.Step E d u op u' e ∧ IsMap E d u' ∧ ∃ t, Agrees d u' t := by
    intro u op hinv _ hleaf
    obtain ⟨t, s', ht, hdone, hstep⟩ := hcall u op hinv
    have hagrees := agrees_done ht hdone hleaf
    exact ⟨_, _, hstep, isMap_of_agrees hagrees E, _, hagrees⟩
  have hbad : ∀ u op u' e, (∃ t, Agrees d u t) → True → ¬ NewOrLeaf u op →
      Dir.Step E d u op u' e → ¬ IsMap E d u' := by
    intro u op u' e hinv _ hleaf hstep hmap
    obtain ⟨t, s', ht, hdone, hstep'⟩ := hcall u op hinv
    obtain ⟨rfl, rfl⟩ := hdet _ _ _ _ _ _ hstep hstep'
    exact not_isMap_done ht hdone hleaf hmap
  exact along_iff_whenever hgood hbad hdet ⟨.nil, agrees_start h⟩ hall

-- ---------------------------------------------------------------------------
-- Two runs
-- ---------------------------------------------------------------------------

/-- Storage above everything in use, and an empty disk. -/
def Env.plain : Env where
  kalloc := .above
  phys := .upward
  virt := .upward
  disk _ := 0
  hook _ _ _ _ := (0, [])

/-- A directory at address 1, in storage that holds nothing else. -/
def State.single : State where
  ent _ := ⟨NULL, NULL, NULL, ⟨[], CStr.clean_nil⟩, NULL, .DIRECTORY, {}, .UNLOCKED, NULL, 0, NULL,
    NULL, NULL, NULL⟩
  used := [1]
  mem _ := 0
  frames := []
  pages := []
  rootDev := false
  rootDir := 1
  nodeSize := 0x10

/-- The directory of the example. -/
theorem single_empty : Empty State.single 1 := ⟨by decide, by decide, rfl, rfl, .inl rfl⟩

/-- The name `a`. -/
def nameA : CStr := ⟨[97], by decide⟩

/-- The name `b`. -/
def nameB : CStr := ⟨[98], by decide⟩

/-- The second name hangs below the first; making it again does no harm. -/
theorem directory_map_leaf :
    Along (Dir.Step .plain 1) (fun _ _ u _ => IsMap .plain 1 u) ⟨.single, fun _ => none⟩
      [.mkdir nameB, .enter nameA 0x5000 4, .load nameA .FILE 0x1030] :=
  (directory_map_iff .plain .single 1 single_empty _).mpr
    (whenever_of_checkRun ((dirCall_fueled .plain 1).computes 4) (by decide +kernel))

/-- `b` is made, then `a`, then `b` again: `a` no longer resolves. -/
theorem recreate_loses :
    ¬ Along (Dir.Step .plain 1) (fun _ _ u _ => IsMap .plain 1 u) ⟨.single, fun _ => none⟩
      [.mkdir nameB, .mkdir nameA, .mkdir nameB] := by
  intro h
  have hcheck := checkPost_of_along ((dirCall_fueled .plain 1).computes 4)
    (q := fun _ _ u _ => ((fsResolve .plain 4 nameA 1 u.fs).map Prod.snd).all
      fun e => e == ((u.last nameA).map Prod.snd).getD NULL) (fun u op u' e hmap => ?_) h
  · exact absurd hcheck (by decide +kernel)
  · obtain ⟨⟨n, hn⟩, _⟩ := hmap nameA
    cases hr : fsResolve .plain 4 nameA 1 u'.fs with
    | none => rfl
    | some r =>
      have h₁ := fsResolve_below .plain (Nat.le_max_left n 4) _ _ _ _ hn
      have h₂ := fsResolve_below .plain (Nat.le_max_right n 4) _ _ _ _ hr
      obtain rfl := Option.some.inj (h₂.symm.trans h₁)
      simp

end Frosk.Fs
