import Mathlib.Tactic
import Frosk.Fs.Reading

/-!
# The kernel's file system: all directories

A `Forest` is what the entries of all directories look like from above: the directories in
use, the tree of each, and how deep each entry is. `Planted` says that the entries in
memory are such a forest, whose trees share no entry. It is what the functions that make
entries keep, although they free whatever was in a directory they replace.

* `replace_planted` — `insert_entry` and `fs_mkdir`.
* `assure_planted` — `assure_dir`, which loads a directory.
-/

namespace Frosk.Fs

open Lib

/-- Directories in use, with their trees, and the depth of all entries. -/
structure Forest where
  live : Set Ptr
  tree : Ptr → SearchTree Ptr
  rank : Ptr → Nat

namespace Forest

/-- The entry is `o`, or in a directory under `o`. -/
inductive Under (F : Forest) (o : Ptr) : Ptr → Prop
  | self : Under F o o
  | entry {g x : Ptr} (hg : Under F o g) (hlive : g ∈ F.live) (hx : x ∈ (F.tree g).toList) :
      Under F o x

/-- The entry is in a directory under `o`: these are the entries that `decimate` frees. -/
def Inside (F : Forest) (o x : Ptr) : Prop := ∃ g ∈ F.live, F.Under o g ∧ x ∈ (F.tree g).toList

/-- What goes when directory `d` gets a new entry of that name. -/
def Gone (F : Forest) (s : State) (d : Ptr) (name : CStr) (x : Ptr) : Prop :=
  ∃ e, (F.tree d).lookup s.key name.key = some e ∧ F.Under e x

open Classical in
/-- The forest with the new entry `q` in directory `d`. -/
noncomputable def insert (F : Forest) (s : State) (d : Ptr) (name : CStr) (type : EntType) (q : Ptr) :
    Forest where
  live := {x | (x ∈ F.live ∧ ¬ F.Gone s d name x) ∨ (x = q ∧ type = .DIRECTORY)}
  tree := Function.update (Function.update F.tree d ((F.tree d).place s.key name.key q)) q .nil
  rank := Function.update F.rank q (F.rank d + 1)

end Forest

/-- The entries are the forest `F`, with the directory `r` at its root. -/
structure Planted (s : State) (F : Forest) (r : Ptr) : Prop where
  root  : r ∈ F.live
  base  : F.rank r = 0
  holds : ∀ d ∈ F.live, Holds s d (F.tree d)
  apart : ∀ d ∈ F.live, ∀ g ∈ F.live, ∀ x ∈ (F.tree d).toList, x ∈ (F.tree g).toList → d = g
  rank  : ∀ d ∈ F.live, ∀ x ∈ (F.tree d).toList, F.rank d < F.rank x
  dirs  : ∀ d ∈ F.live, ∀ x ∈ (F.tree d).toList, (s.ent x).type = .DIRECTORY → x ∈ F.live
  plain : ∀ d ∈ F.live, ∀ x ∈ (F.tree d).toList, (s.ent x).type ≠ .DIRECTORY →
    (s.ent x).flags.hasdata = false

section Freeing

variable {s : State} {F : Forest} {r o d e x : Ptr}

/-- What is under a directory is deeper. -/
theorem Planted.under_rank (h : Planted s F r) (hx : F.Under o x) : F.rank o ≤ F.rank x := by
  induction hx with
  | self => exact le_rfl
  | @entry g x hg hlive hx ih => exact ih.trans (h.rank g hlive x hx).le

/-- What is under an entry of a directory is in no tree of a directory that is not. -/
theorem Planted.not_inside (h : Planted s F r) (hd : d ∈ F.live) (hnot : ¬ F.Under o d)
    (hx : x ∈ d :: (F.tree d).toList) : ¬ F.Inside o x := by
  rintro ⟨g, hg, hunder, hmem⟩
  rcases List.mem_cons.mp hx with rfl | hx
  · exact hnot (.entry hunder hg hmem)
  · rw [h.apart d hd g hg x hx hmem] at hnot
    exact hnot hunder

-- ---------------------------------------------------------------------------
-- destroy and decimate
-- ---------------------------------------------------------------------------

/-- Only storage was freed, and only that of entries inside of `o`. -/
def Freed (F : Forest) (o : Ptr) (s s' : State) : Prop :=
  s' = { s with used := s'.used } ∧ ∀ y ∈ s.used, ¬ F.Inside o y → y ∈ s'.used

theorem freed_refl (F : Forest) (o : Ptr) (s : State) : Freed F o s s := ⟨rfl, fun _ hy _ => hy⟩

/-- What is freed in two steps. -/
theorem Freed.trans {s₁ s₂ : State} (h : Freed F o s s₁) (h' : Freed F o s₁ s₂) : Freed F o s s₂ := by
  refine ⟨?_, fun y hy hout => h'.2 y (h.2 y hy hout) hout⟩
  rw [h'.1, h.1]

/-- Freeing changes no entry. -/
theorem Freed.ent {s' : State} (h : Freed F o s s') : s'.ent = s.ent := by
  rw [h.1]

/-- One entry inside is freed. -/
theorem freed_kfree (hx : F.Inside o x) : Freed F o s (s.kfree x) := by
  refine ⟨rfl, fun y hy hout => (List.mem_erase_of_ne ?_).mpr hy⟩
  rintro rfl
  exact hout hx

/-- `destroy` frees entries inside only, by induction on its bound. -/
theorem destroy_freed (h : Planted s F r) {n : Nat} {t : SearchTree Ptr} {par : Ptr} {s₁ s₂ : State}
    (hent : s₁.ent = s.ent) (hshape : (s.links NULL).Shape NULL x par t)
    (hin : ∀ y ∈ t.toList, F.Inside o y) (hrun : destroy n x s₁ = some s₂) : Freed F o s₁ s₂ := by
  induction n generalizing x t par s₁ s₂ with
  | zero => cases hrun
  | succ n ih =>
    rw [destroy] at hrun
    split at hrun
    · obtain rfl := Option.some.inj hrun
      exact freed_refl F o s₁
    · rename_i hne
      cases t with
      | nil => exact absurd hshape hne
      | node l p r₁ =>
        obtain ⟨rfl, -, -, hleft, hright⟩ := hshape
        simp only [SearchTree.toList, List.mem_append, List.mem_cons] at hin
        obtain ⟨a, ha, hrun⟩ := Option.bind_eq_some_iff.mp hrun
        obtain ⟨b, hb, hrun⟩ := Option.bind_eq_some_iff.mp hrun
        obtain ⟨c, hc, hrun⟩ := Option.bind_eq_some_iff.mp hrun
        obtain rfl := Option.some.inj hrun
        rw [hent] at ha
        have hfa := ih hent hleft (fun y hy => hin y (.inl hy)) ha
        have hea : a.ent = s.ent := hfa.ent.trans hent
        rw [hea] at hb
        have hfb := ih hea hright (fun y hy => hin y (.inr (.inr hy))) hb
        have heb : b.ent = s.ent := hfb.ent.trans hea
        have hself : F.Inside o x := hin x (.inr (.inl rfl))
        refine ((hfa.trans hfb).trans ?_).trans (freed_kfree hself)
        obtain ⟨g, hg, hunder, hmem⟩ := hself
        rw [decimateWith, heb] at hc
        split at hc
        · rename_i hdata
          by_cases hdir : (s.ent x).type = .DIRECTORY
          · rw [hdir] at hc
            have hlive := h.dirs g hg x hmem hdir
            have hroot : (s.links NULL).Shape NULL (s.ent x).root NULL (F.tree x) :=
              Links.shape_congr (h.holds x hlive).shape fun _ _ => ⟨rfl, rfl, rfl⟩
            exact ih heb hroot (fun y hy => ⟨x, hlive, .entry hunder hg hmem, hy⟩) hc
          · exact absurd hdata (by rw [h.plain g hg x hmem hdir]; decide)
        · obtain rfl := Option.some.inj hc
          exact freed_refl F o b

/-- An entry that is replaced: what is in it is freed. -/
theorem decimate_freed (h : Planted s F r) (hd : d ∈ F.live) (he : e ∈ (F.tree d).toList) {n : Nat}
    {s' : State} (hrun : decimate n e s = some s') : Freed F e s s' := by
  rw [decimate, decimateWith] at hrun
  split at hrun
  · rename_i hdata
    by_cases hdir : (s.ent e).type = .DIRECTORY
    · rw [hdir] at hrun
      have hlive := h.dirs d hd e he hdir
      have hroot : (s.links NULL).Shape NULL (s.ent e).root NULL (F.tree e) :=
        Links.shape_congr (h.holds e hlive).shape fun _ _ => ⟨rfl, rfl, rfl⟩
      exact destroy_freed h rfl hroot (fun y hy => ⟨e, hlive, .self, hy⟩) hrun
    · exact absurd hdata (by rw [h.plain d hd e he hdir]; decide)
  · obtain rfl := Option.some.inj hrun
    exact freed_refl F e s

end Freeing

-- ---------------------------------------------------------------------------
-- A new entry
-- ---------------------------------------------------------------------------

section Inserting

variable {E : Env} {s s₁ s' : State} {F : Forest} {r d x y : Ptr} {name : CStr} {type : EntType}

/-- The directory with the new entry stays. -/
theorem Planted.not_gone (h : Planted s F r) (hd : d ∈ F.live) : ¬ F.Gone s d name d := by
  rintro ⟨e, hlook, hunder⟩
  have he := ((SearchTree.lookup_eq_some (h.holds d hd).sorted).mp hlook).1
  exact absurd (h.under_rank hunder) (h.rank d hd e he).not_ge

/-- The root directory is never freed. -/
theorem Planted.root_not_gone (h : Planted s F r) (hd : d ∈ F.live) : ¬ F.Gone s d name r := by
  rintro ⟨e, hlook, hunder⟩
  have he := ((SearchTree.lookup_eq_some (h.holds d hd).sorted).mp hlook).1
  have hrank := h.rank d hd e he
  have hle := h.under_rank hunder
  have hbase := h.base
  omega

/-- Entries of a directory that stays stay, but for the one that is replaced. -/
theorem Planted.entry_not_gone (h : Planted s F r) (hx : x ∈ F.live)
    (hstays : ¬ F.Gone s d name x) (hy : y ∈ (F.tree x).toList)
    (hother : (F.tree d).lookup s.key name.key ≠ some y) : ¬ F.Gone s d name y := by
  rintro ⟨e, hlook, hunder⟩
  cases hunder with
  | self => exact hother hlook
  | @entry g y hg hlive hmem =>
    rw [h.apart x hx g hlive y hy hmem] at hstays
    exact hstays ⟨e, hlook, hg⟩

/-- What is freed before the entry is made. -/
structure Cleared (F : Forest) (s : State) (d : Ptr) (name : CStr) (s₁ : State) : Prop where
  same : s₁ = { s with used := s₁.used }
  used : ∀ x ∈ F.live, ¬ F.Gone s d name x → ∀ y ∈ x :: (F.tree x).toList, y ∈ s.used → y ∈ s₁.used

/-- The trees of the directories that stay are as before. -/
theorem Cleared.holds (hc : Cleared F s d name s₁) (h : Planted s F r) (hx : x ∈ F.live)
    (hstays : ¬ F.Gone s d name x) : Holds s₁ x (F.tree x) := by
  obtain ⟨hne, htype, hshape, hsorted, hapart, hused⟩ := h.holds x hx
  have hent : s₁.ent = s.ent := by rw [hc.same]
  have hlinks : s₁.links x = s.links x := by rw [hc.same]; rfl
  have hkey : s₁.key = s.key := by rw [hc.same]; rfl
  exact ⟨hne, hent ▸ htype, hent ▸ hlinks ▸ hshape, hkey ▸ hsorted, hapart,
    fun y hy => hc.used x hx hstays y hy (hused y hy)⟩

/-- An entry made by `create_entry`. -/
theorem initEntry_fresh {old v : Entry} {lp : Ptr} (hv : v = initEntry old (some name) lp type) :
    v.type = type ∧ v.name = name ∧ v.flags.hasdata = false ∧ (type = .DIRECTORY → v.root = NULL) := by
  subst hv
  cases type with
  | FILE => exact ⟨rfl, rfl, rfl, nofun⟩
  | DIRECTORY => exact ⟨rfl, rfl, rfl, fun _ => rfl⟩
  | INDIRECT => exact ⟨rfl, rfl, rfl, nofun⟩

section Insert

variable {q : Ptr}

theorem insert_tree_new : (F.insert s d name type q).tree q = .nil := Function.update_self ..

theorem insert_tree_self (hq : d ≠ q) :
    (F.insert s d name type q).tree d = (F.tree d).place s.key name.key q :=
  (Function.update_of_ne hq ..).trans (Function.update_self ..)

theorem insert_tree_ne (hq : x ≠ q) (hd : x ≠ d) : (F.insert s d name type q).tree x = F.tree x :=
  (Function.update_of_ne hq ..).trans (Function.update_of_ne hd ..)

/-- The entries of the directories after the insertion. -/
theorem mem_insert_tree (h : Planted s F r) (hd : d ∈ F.live) (hdq : d ≠ q)
    (hx : x ∈ (F.insert s d name type q).live) (hxq : x ≠ q)
    (hy : y ∈ ((F.insert s d name type q).tree x).toList) :
    (x ∈ F.live ∧ ¬ F.Gone s d name x) ∧ (x = d ∧ y = q ∨
      y ∈ (F.tree x).toList ∧ (F.tree d).lookup s.key name.key ≠ some y) := by
  have hlive : x ∈ F.live ∧ ¬ F.Gone s d name x := hx.resolve_right fun hnew => hxq hnew.1
  refine ⟨hlive, ?_⟩
  have hsorted := (h.holds d hd).sorted
  by_cases hxd : x = d
  · subst hxd
    rw [insert_tree_self hdq] at hy
    rcases SearchTree.mem_place hsorted hy with rfl | ⟨hmem, hkey⟩
    · exact .inl ⟨rfl, rfl⟩
    · refine .inr ⟨hmem, fun hlook => hkey ?_⟩
      exact ((SearchTree.lookup_eq_some hsorted).mp hlook).2
  · rw [insert_tree_ne hxq hxd] at hy
    refine .inr ⟨hy, fun hlook => hxd ?_⟩
    exact h.apart x hlive.1 d hd y hy ((SearchTree.lookup_eq_some hsorted).mp hlook).1

end Insert

/-- A directory that was not touched. -/
theorem Replaced.holds_other (h : Planted s F r) (hd : d ∈ F.live) (hc : Cleared F s d name s₁)
    (hr : Replaced E s₁ d (F.tree d) name type s') (hx : x ∈ F.live) (hstays : ¬ F.Gone s d name x)
    (hxd : x ≠ d) : Holds s' x (F.tree x) := by
  have hfresh : fresh E s₁ ∉ s₁.used := E.kalloc.fresh s₁.used
  obtain ⟨hne, htype, hshape, hsorted, hapart, hused⟩ := hc.holds h hx hstays
  have hnew : ∀ y ∈ x :: (F.tree x).toList, y ≠ fresh E s₁ := fun y hy hyq => hfresh (hyq ▸ hused y hy)
  obtain ⟨l, rt, u, hkept, hroot⟩ := hr.kept x (hnew x List.mem_cons_self)
  have hin : ∀ y ∈ (F.tree x).toList, ∃ u, s'.ent y = { s₁.ent y with root := u } := by
    intro y hy
    refine hr.inside y (hnew y (List.mem_cons_of_mem _ hy)) fun hyd => hxd ?_
    exact h.apart x hx d hd y hy hyd
  have htop : (s'.ent x).root = (s₁.ent x).root := by
    rw [hkept]
    exact hroot hxd
  refine ⟨hne, ?_, ?_, ?_, hapart, ?_⟩
  · rw [hkept]
    exact htype
  · rw [htop]
    refine Links.shape_congr hshape ?_
    intro y hy
    obtain ⟨v, hv⟩ := hin y hy
    simp only [State.links, hv, and_self]
  · refine SearchTree.sorted_congr (fun y hy => ?_) hsorted
    obtain ⟨v, hv⟩ := hin y hy
    exact congrArg (fun e => e.name.key) hv
  · intro y hy
    rw [hr.used]
    exact List.mem_cons_of_mem _ (hused y hy)

/-- With the new entry the forest is planted as before. -/
theorem Replaced.planted (h : Planted s F r) (hd : d ∈ F.live) (hc : Cleared F s d name s₁)
    (hr : Replaced E s₁ d (F.tree d) name type s') :
    Planted s' (F.insert s d name type (fresh E s₁)) r := by
  have hfresh : fresh E s₁ ∉ s₁.used := E.kalloc.fresh s₁.used
  have hent : s₁.ent = s.ent := by rw [hc.same]
  have hkey : s₁.key = s.key := by rw [hc.same]; rfl
  -- nothing that stays is at the address of the new entry
  have hold : ∀ {x}, x ∈ F.live → ¬ F.Gone s d name x → ∀ y ∈ x :: (F.tree x).toList,
      y ≠ fresh E s₁ :=
    fun hx hstays y hy hyq => hfresh (hyq ▸ (hc.holds h hx hstays).used y hy)
  have hdq : d ≠ fresh E s₁ := hold hd (h.not_gone hd) d List.mem_cons_self
  have hrq : r ≠ fresh E s₁ := hold h.root (h.root_not_gone hd) r List.mem_cons_self
  obtain ⟨old, lp, hmade⟩ := hr.made
  obtain ⟨htype, -, hdata, hroot⟩ := initEntry_fresh hmade
  have hsame : ∀ y, y ≠ fresh E s₁ → (s'.ent y).type = (s.ent y).type ∧
      (s'.ent y).flags = (s.ent y).flags := by
    intro y hy
    obtain ⟨l, rt, u, hkept, -⟩ := hr.kept y hy
    rw [hkept, hent]
    exact ⟨rfl, rfl⟩
  -- the entries of a directory are the new one and old ones
  have hmem : ∀ {x y}, x ∈ (F.insert s d name type (fresh E s₁)).live →
      y ∈ ((F.insert s d name type (fresh E s₁)).tree x).toList → x ≠ fresh E s₁ ∧
      (x ∈ F.live ∧ ¬ F.Gone s d name x) ∧ (x = d ∧ y = fresh E s₁ ∨ y ≠ fresh E s₁ ∧
        y ∈ (F.tree x).toList ∧ (F.tree d).lookup s.key name.key ≠ some y) := by
    intro x y hx hy
    have hxq : x ≠ fresh E s₁ := by
      rintro rfl
      rw [insert_tree_new] at hy
      cases hy
    obtain ⟨hlive, hcases⟩ := mem_insert_tree h hd hdq hx hxq hy
    refine ⟨hxq, hlive, hcases.imp_right fun hin => ⟨?_, hin⟩⟩
    exact hold hlive.1 hlive.2 y (List.mem_cons_of_mem _ hin.1)
  refine ⟨.inl ⟨h.root, h.root_not_gone hd⟩, ?_, ?_, ?_, ?_, ?_, ?_⟩
  · exact (Function.update_of_ne hrq ..).trans h.base
  · rintro x (⟨hx, hstays⟩ | ⟨rfl, rfl⟩)
    · have hxq := hold hx hstays x List.mem_cons_self
      by_cases hxd : x = d
      · subst hxd
        rw [insert_tree_self hxq, ← hkey]
        exact hr.holds
      · rw [insert_tree_ne hxq hxd]
        exact hr.holds_other h hd hc hx hstays hxd
    · rw [insert_tree_new]
      refine ⟨E.kalloc.ne_null s₁.used, htype, hroot rfl, List.Pairwise.nil, List.not_mem_nil, ?_⟩
      intro y hy
      rw [hr.used, List.mem_singleton.mp hy]
      exact List.mem_cons_self
  · intro x hx g hg y hy hy'
    obtain ⟨-, ⟨hxl, hxs⟩, hcx⟩ := hmem hx hy
    obtain ⟨-, ⟨hgl, hgs⟩, hcg⟩ := hmem hg hy'
    rcases hcx with ⟨rfl, hyq⟩ | ⟨hyq, hyx, -⟩
    · rcases hcg with ⟨rfl, -⟩ | ⟨hne, -, -⟩
      · rfl
      · exact absurd hyq hne
    · rcases hcg with ⟨-, hyq'⟩ | ⟨-, hyg, -⟩
      · exact absurd hyq' hyq
      · exact h.apart x hxl g hgl y hyx hyg
  · intro x hx y hy
    obtain ⟨hxq, ⟨hxl, -⟩, hcx⟩ := hmem hx hy
    show Function.update F.rank (fresh E s₁) (F.rank d + 1) x <
      Function.update F.rank (fresh E s₁) (F.rank d + 1) y
    rw [Function.update_of_ne hxq]
    rcases hcx with ⟨rfl, rfl⟩ | ⟨hyq, hyx, -⟩
    · rw [Function.update_self]
      exact Nat.lt_succ_self _
    · rw [Function.update_of_ne hyq]
      exact h.rank x hxl y hyx
  · intro x hx y hy hdir
    obtain ⟨-, ⟨hxl, hxs⟩, hcx⟩ := hmem hx hy
    rcases hcx with ⟨-, rfl⟩ | ⟨hyq, hyx, hother⟩
    · exact .inr ⟨rfl, htype.symm.trans hdir⟩
    · rw [(hsame y hyq).1] at hdir
      exact .inl ⟨h.dirs x hxl y hyx hdir, h.entry_not_gone hxl hxs hyx hother⟩
  · intro x hx y hy hfile
    obtain ⟨-, ⟨hxl, -⟩, hcx⟩ := hmem hx hy
    rcases hcx with ⟨-, rfl⟩ | ⟨hyq, hyx, -⟩
    · exact hdata
    · rw [(hsame y hyq).1] at hfile
      rw [(hsame y hyq).2]
      exact h.plain x hxl y hyx hfile

/-- Fields that are no links may be set. -/
theorem Planted.modify (h : Planted s F r) {f : Entry → Entry} (hf : Aside f)
    (hdata : (s.ent x).type ≠ .DIRECTORY → (f (s.ent x)).flags.hasdata = (s.ent x).flags.hasdata) :
    Planted (s.modify x f) F r where
  root := h.root
  base := h.base
  holds d hd := (h.holds d hd).modify hf
  apart := h.apart
  rank := h.rank
  dirs d hd y hy hdir := by
    rw [modify_field _ _ _ hf.type] at hdir
    exact h.dirs d hd y hy hdir
  plain d hd y hy hfile := by
    rw [modify_field _ _ _ hf.type] at hfile
    by_cases hyx : y = x
    · subst hyx
      rw [modify_ent_self, hdata hfile]
      exact h.plain d hd y hy hfile
    · rw [modify_ent_ne hyx]
      exact h.plain d hd y hy hfile

/-- What a function leaves that worked on directory `d`. -/
structure Keeps (s : State) (r d : Ptr) (s' : State) : Prop where
  planted : ∃ F, Planted s' F r ∧ d ∈ F.live
  present : (s.ent d).flags.present = true → (s'.ent d).flags.present = true
  rootDev : s'.rootDev = s.rootDev

/-- Two steps that keep the forest. -/
theorem Keeps.trans (h : Keeps s r d s₁) (h' : Keeps s₁ r d s') : Keeps s r d s' :=
  ⟨h'.planted, fun hp => h'.present (h.present hp), h'.rootDev.trans h.rootDev⟩

/-- What the slot held is emptied before it gets a new entry. -/
theorem cleared_of_decimate (h : Planted s F r) (hd : d ∈ F.live) {sl : Slot Ptr} {lp : Ptr}
    (hf : Found s d (F.tree d) name sl lp) {n : Nat}
    (hrun : (if (s.links d).load sl ≠ NULL then decimate n ((s.links d).load sl) s else some s) =
      some s₁) : Cleared F s d name s₁ := by
  have hsorted := (h.holds d hd).sorted
  cases hlook : (F.tree d).lookup s.key name.key with
  | none =>
    have hnone : (s.links d).load sl = NULL := by
      rw [hf.load, hlook]
      rfl
    rw [if_neg (not_not_intro hnone)] at hrun
    obtain rfl := Option.some.inj hrun
    exact ⟨rfl, fun _ _ _ _ _ hy => hy⟩
  | some e =>
    have he := ((SearchTree.lookup_eq_some hsorted).mp hlook).1
    have hload : (s.links d).load sl = e := by
      rw [hf.load, hlook]
      rfl
    have hne : e ≠ NULL := Links.shape_ne_null (h.holds d hd).shape e he
    rw [hload, if_pos hne] at hrun
    have hfreed := decimate_freed h hd he hrun
    refine ⟨hfreed.1, fun x hx hstays y hy hused => hfreed.2 y hused ?_⟩
    exact h.not_inside hx (fun hunder => hstays ⟨e, hlook, hunder⟩) hy

/-- `insert_entry` and `fs_mkdir`, from the slot that `find` found. -/
theorem replace_planted (h : Planted s F r) (hd : d ∈ F.live) {sl : Slot Ptr} {lp : Ptr}
    (hf : Found s d (F.tree d) name sl lp) {n : Nat} {e : Ptr}
    (hrun : replaceEntry E n name d type sl lp s = some (s', e)) :
    Keeps s r d s' ∧ e ≠ d ∧ (s'.ent e).type = type := by
  obtain ⟨s₁, hclear, hrun⟩ := Option.bind_eq_some_iff.mp hrun
  have hc := cleared_of_decimate h hd hf hclear
  have hholds := hc.holds h hd (h.not_gone hd)
  have hf₁ : Found s₁ d (F.tree d) name sl lp := by
    have hlinks : s₁.links d = s.links d := by rw [hc.same]; rfl
    have hkey : s₁.key = s.key := by rw [hc.same]; rfl
    refine ⟨?_, hf.owner, ?_⟩
    · rw [hlinks, hkey]
      exact hf.load
    · rw [hlinks, hkey]
      exact hf.place
  have hr := store_spec (E := E) hholds hf₁ type
  have hresult : ((createEntry E (some name) lp type s₁).1.store d (fresh E s₁) sl, fresh E s₁) =
      (s', e) := Option.some.inj hrun
  obtain ⟨rfl, rfl⟩ := Prod.mk.inj hresult
  have hdq : d ≠ fresh E s₁ :=
    fun hd' => E.kalloc.fresh s₁.used (show fresh E s₁ ∈ s₁.used from hd' ▸ hholds.used d List.mem_cons_self)
  have hstays : d ∈ (F.insert s d name type (fresh E s₁)).live := .inl ⟨hd, h.not_gone hd⟩
  obtain ⟨old, lp', hmade⟩ := hr.made
  refine ⟨⟨⟨_, hr.planted h hd hc, hstays⟩, ?_, ?_⟩, hdq.symm, (initEntry_fresh hmade).1⟩
  · intro hp
    obtain ⟨l, rt, u, hkept, -⟩ := hr.kept d hdq
    rw [hkept]
    show (s₁.ent d).flags.present = true
    rw [hc.same]
    exact hp
  · rw [hr.others]
    show s₁.rootDev = s.rootDev
    rw [hc.same]

/-- The entries are the same, whatever else changed. -/
theorem Planted.congr (h : Planted s F r) (hent : s'.ent = s.ent) (hused : s'.used = s.used) :
    Planted s' F r where
  root := h.root
  base := h.base
  holds d hd := by
    obtain ⟨hne, htype, hshape, hsorted, hapart, hin⟩ := h.holds d hd
    have hlinks : s'.links d = s.links d := by
      unfold State.links
      rw [hent]
    have hkey : s'.key = s.key := by
      unfold State.key
      rw [hent]
    exact ⟨hne, hent ▸ htype, hent ▸ hlinks ▸ hshape, hkey ▸ hsorted, hapart, hused ▸ hin⟩
  apart := h.apart
  rank := h.rank
  dirs := hent ▸ h.dirs
  plain := hent ▸ h.plain

/-- A metadata block that is loaded is no entry. -/
theorem keeps_of_resolve (h : Planted s F r) (hd : d ∈ F.live) {p n : Nat}
    (hrun : resolveNode E p s = some (s', n)) : Keeps s r d s' := by
  have hent := resolveNode_ent hrun
  obtain ⟨hused, hdev⟩ := resolveNode_keeps hrun
  exact ⟨⟨F, h.congr hent hused, hd⟩, fun hp => hent ▸ hp, hdev⟩

-- ---------------------------------------------------------------------------
-- The functions
-- ---------------------------------------------------------------------------

/-- A file is not marked as a directory is. -/
theorem mark_hasdata (op : Op) (v : Entry) (htype : v.type = op.type) (hfile : v.type ≠ .DIRECTORY) :
    (op.mark v).flags.hasdata = v.flags.hasdata := by
  cases op with
  | mkdir _ => exact absurd htype hfile
  | mkvdir _ => exact absurd htype hfile
  | enter _ _ _ => rfl
  | load _ type _ =>
    cases type with
    | FILE => rfl
    | DIRECTORY => exact absurd htype hfile
    | INDIRECT => rfl

/-- `find` ends in the slot of the name, after `assure_dir`. -/
theorem find_found {assure : Ptr → State → Option State} {n : Nat} {sl : Slot Ptr} {lp : Ptr}
    (hrun : findWith assure n name d s = some (s', sl, lp)) :
    assure d s = some s' ∧ ∀ t, Holds s' d t → Found s' d t name sl lp := by
  rw [findWith] at hrun
  split at hrun
  · cases hrun
  · obtain ⟨s₁, hassure, hrun⟩ := Option.bind_eq_some_iff.mp hrun
    obtain ⟨⟨sl₁, lp₁⟩, hdescend, hrun⟩ := Option.bind_eq_some_iff.mp hrun
    obtain ⟨rfl, hslot⟩ := Prod.mk.inj (Option.some.inj hrun)
    obtain ⟨rfl, rfl⟩ := Prod.mk.inj hslot
    refine ⟨hassure, ?_⟩
    intro t hholds
    obtain ⟨sl₂, lp₂, hfound, hexits⟩ := descend_found hholds name
    obtain ⟨rfl, rfl⟩ := Prod.mk.inj (exits_unique hexits ⟨n, hdescend⟩)
    exact hfound

/-- An entry is made in a directory after `find`. -/
theorem make_planted (h : Planted s F r) (hd : d ∈ F.live) (op : Op) {sl : Slot Ptr} {lp : Ptr}
    (hf : ∀ t, Holds s d t → Found s d t op.name sl lp) {n : Nat} {e : Ptr}
    (hrun : replaceEntry E n op.name d op.type sl lp s = some (s₁, e)) :
    Keeps s r d (s₁.modify e op.mark) := by
  obtain ⟨⟨⟨F', hplanted, hlive⟩, hpresent, hdev⟩, hne, htype⟩ :=
    replace_planted h hd (hf _ (h.holds d hd)) hrun
  refine ⟨⟨F', hplanted.modify (mark_aside op) (mark_hasdata op _ htype), hlive⟩, ?_, hdev⟩
  intro hp
  rw [modify_ent_ne hne.symm]
  exact hpresent hp

/-- One round of the loop of `assure_dir`. -/
theorem round_planted (h : Planted s F r) (hd : d ∈ F.live)
    (hready : s.rootDev = false ∨ (s.ent d).flags.present = true) {k n n' : Nat}
    (hrun : assureRound (assureDir E k) E k d s n = some (s', n')) : Keeps s r d s' := by
  obtain ⟨type, -, hrun⟩ := Option.bind_eq_some_iff.mp hrun
  obtain ⟨⟨s₁, name⟩, hname, hrun⟩ := Option.bind_eq_some_iff.mp hrun
  have hkeeps := keeps_of_resolve h hd hname
  dsimp only at hrun
  split at hrun
  · cases hrun
  · obtain ⟨str, -, hrun⟩ := Option.bind_eq_some_iff.mp hrun
    obtain ⟨⟨s₂, e⟩, hload, hnext⟩ := Option.bind_eq_some_iff.mp hrun
    obtain ⟨⟨s₃, e₃⟩, hinsert, hmark⟩ := Option.bind_eq_some_iff.mp hload
    obtain ⟨⟨s₄, sl, lp⟩, hfind, hreplace⟩ := Option.bind_eq_some_iff.mp hinsert
    obtain ⟨rfl, rfl⟩ := Prod.mk.inj (Option.some.inj hmark)
    obtain ⟨F₁, hplanted, hlive⟩ := hkeeps.planted
    obtain ⟨hassure, hfound⟩ := find_found hfind
    -- the directory was marked before, so there is nothing to load
    have hready₁ : s₁.rootDev = false ∨ (s₁.ent d).flags.present = true :=
      hready.imp (fun hz => hkeeps.rootDev.trans hz) hkeeps.present
    have hsame : s₄ = s₁ := by
      cases k with
      | zero => cases hassure
      | succ k =>
        rw [assureDir_ready (hplanted.holds d hlive).type hready₁] at hassure
        exact (Option.some.inj hassure).symm
    subst hsame
    have hmade := make_planted hplanted hlive (.load str type n) hfound hreplace
    obtain ⟨F₂, hplanted₂, hlive₂⟩ := hmade.planted
    exact (hkeeps.trans hmade).trans (keeps_of_resolve hplanted₂ hlive₂ hnext)

/-- A directory that is loaded stays part of the forest, and is there afterwards. -/
theorem assure_planted (h : Planted s F r) (hd : d ∈ F.live) {k : Nat}
    (hrun : assureDir E k d s = some s') :
    Keeps s r d s' ∧ (s'.rootDev = false ∨ (s'.ent d).flags.present = true) := by
  cases k with
  | zero => cases hrun
  | succ k =>
    rw [assureDir] at hrun
    split at hrun
    · cases hrun
    · split at hrun
      · rename_i hready
        obtain rfl := Option.some.inj hrun
        refine ⟨⟨⟨F, h, hd⟩, id, rfl⟩, hready.imp_left ?_⟩
        exact fun hz => Bool.not_eq_true _ ▸ hz
      · split at hrun
        · cases hrun
        · obtain ⟨⟨s₁, n⟩, hnode, hrun⟩ := Option.bind_eq_some_iff.mp hrun
          -- the directory is marked, and stays marked in the loop
          let s₀ := s.modify d fun v => { v with flags.present := true }
          have hmark : Planted s₀ F r := by
            refine h.modify (f := fun v => { v with flags.present := true }) ?_ fun _ => rfl
            constructor <;> intro _ <;> rfl
          have hpresent₀ : (s₀.ent d).flags.present = true :=
            congrArg (fun v => v.flags.present) modify_ent_self
          have hkeeps := keeps_of_resolve hmark hd hnode
          have hdone : ∀ x, some x = some s' → Keeps s₀ r d x ∧ (x.ent d).flags.present = true := by
            refine iterate_invariant
              (fun u => Keeps s₀ r d u.1 ∧ (u.1.ent d).flags.present = true)
              (fun u => ∀ x, some x = u → Keeps s₀ r d x ∧ (x.ent d).flags.present = true)
              ?_ ?_ ⟨hkeeps, hkeeps.present hpresent₀⟩ (Option.join_eq_some_iff.mp hrun)
            · rintro ⟨s₂, n₂⟩ u ⟨hinv, hp⟩ hbody
              rw [assureBody] at hbody
              split at hbody
              · cases hbody
              · split at hbody
                · cases hbody
                · rename_i v hround
                  obtain rfl := Sum.inl.inj hbody
                  obtain ⟨F₂, hplanted, hlive⟩ := hinv.planted
                  have hnext := round_planted hplanted hlive (.inr hp) hround
                  exact ⟨hinv.trans hnext, hnext.present hp⟩
            · rintro ⟨s₂, n₂⟩ u hinv hbody x rfl
              rw [assureBody] at hbody
              split at hbody
              · obtain rfl := Option.some.inj (Sum.inr.inj hbody)
                exact hinv
              · split at hbody
                · cases hbody
                · cases hbody
          obtain ⟨⟨hplanted, -, hdev⟩, hpresent⟩ := hdone s' rfl
          exact ⟨⟨hplanted, fun _ => hpresent, hdev⟩, .inr hpresent⟩

/-- The functions that make an entry in a directory. -/
theorem call_planted (h : Planted s F r) (hd : d ∈ F.live) (op : Op) {n : Nat} {e : Ptr}
    (hrun : op.call E d s n = some (s', e)) : Keeps s r d s' := by
  rw [call_eq] at hrun
  obtain ⟨⟨s₁, sl, lp⟩, hfind, hrun⟩ := Option.bind_eq_some_iff.mp hrun
  obtain ⟨⟨s₂, e₂⟩, hreplace, hmark⟩ := Option.bind_eq_some_iff.mp hrun
  obtain ⟨rfl, rfl⟩ := Prod.mk.inj (Option.some.inj hmark)
  obtain ⟨hassure, hfound⟩ := find_found hfind
  have hkeeps := (assure_planted h hd hassure).1
  obtain ⟨F₁, hplanted, hlive⟩ := hkeeps.planted
  exact hkeeps.trans (make_planted hplanted hlive op hfound hreplace)

end Inserting

end Frosk.Fs
