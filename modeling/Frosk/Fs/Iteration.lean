import Mathlib.Tactic
import Frosk.Fs.Forest

/-!
# The kernel's file system: going through a directory

`fs_first` and `fs_next` find the entries of a directory by their links.

* `iterates_reachable` — in every state that calls on directories of the file system
  reach, and for each of its directories, `fs_first` and then `fs_next` yield the entries
  below the root of the directory, each once, in the order of their names, and then `NULL`.
-/

namespace Frosk.Fs

open Lib

-- ---------------------------------------------------------------------------
-- Runs
-- ---------------------------------------------------------------------------

/-- A call on a directory: it makes an entry, or only loads the directory. -/
inductive Call where
  | make (op : Op) (dir : Ptr)
  | resolve (name : CStr) (dir : Ptr)
  | first (dir : Ptr)

namespace Call

def dir : Call → Ptr
  | make _ dir | resolve _ dir | first dir => dir

def run (E : Env) (n : Nat) (s : State) : Call → Option (State × Ptr)
  | make op dir => op.call E dir s n
  | resolve name dir => fsResolve E n name dir s
  | first dir => fsFirst E n dir s

end Call

/-- The directory `x` is the directory `r`, or an entry of a directory that is in `r`. -/
inductive Attached (s : State) (r : Ptr) : Ptr → Prop
  | root : Attached s r r
  | entry {d x : Ptr} (hd : Attached s r d) (hx : (s.links d).Reaches NULL (s.ent d).root x)
      (htype : (s.ent x).type = .DIRECTORY) : Attached s r x

/-- A call on a directory of the file system returns. -/
def Call.Step (E : Env) (r : Ptr) (s : State) (c : Call) (s' : State) : Prop :=
  Attached s r c.dir ∧ ∃ n e, c.run E n s = some (s', e)

/-- The root directory, before it has entries. -/
structure Start (s : State) (r : Ptr) : Prop where
  ne_null : r ≠ NULL
  used    : r ∈ s.used
  type    : (s.ent r).type = .DIRECTORY
  root    : (s.ent r).root = NULL

/-- A directory that needs no loading is ready. If `assure_dir` returns, then `fs_first`
does, and the entries from there on are those below the root of the directory, in the order
of their names. -/
structure Iterates (E : Env) (s : State) (d : Ptr) : Prop where
  ready : s.rootDev = false ∨ (s.ent d).flags.present = true → ∃ k, assureDir E k d s = some s
  order : ∀ k s₁, assureDir E k d s = some s₁ → ∃ x l, Settles (fun k => fsFirst E k d s) (s₁, x) ∧
    Visits (fun a b => Settles (fun k => fsNext k a s₁) b) NULL x l ∧ l.Nodup ∧
    (∀ y, y ∈ l ↔ (s₁.links d).Reaches NULL (s₁.ent d).root y) ∧
    l.Pairwise fun a b => strcmp (s₁.ent a).name (s₁.ent b).name < 0

section Runs

variable {E : Env} {s s' : State} {F : Forest} {r d : Ptr}

/-- The root directory alone is a forest. -/
theorem Start.planted (h : Start s r) : Planted s ⟨{r}, fun _ => .nil, fun _ => 0⟩ r where
  root := rfl
  base := rfl
  holds d hd := by
    obtain rfl : d = r := hd
    refine ⟨h.ne_null, h.type, h.root, List.Pairwise.nil, List.not_mem_nil, ?_⟩
    intro x hx
    rw [List.mem_singleton.mp hx]
    exact h.used
  apart _ _ _ _ _ hx := absurd hx List.not_mem_nil
  rank _ _ _ hx := absurd hx List.not_mem_nil
  dirs _ _ _ hx := absurd hx List.not_mem_nil
  plain _ _ _ hx := absurd hx List.not_mem_nil

/-- Every attached directory is one of the forest. -/
theorem Planted.attached (h : Planted s F r) (hd : Attached s r d) : d ∈ F.live := by
  induction hd with
  | root => exact h.root
  | @entry d x _ hx htype ih => exact h.dirs d ih x ((reaches_iff (h.holds d ih).shape).mp hx) htype

/-- A call on such a directory keeps the forest. -/
theorem step_planted (h : Planted s F r) {c : Call} (hstep : c.Step E r s s') :
    ∃ F', Planted s' F' r := by
  obtain ⟨hattached, n, e, hrun⟩ := hstep
  have hd := h.attached hattached
  cases c with
  | make op dir =>
    obtain ⟨F', hplanted, -⟩ := (call_planted h hd op hrun).planted
    exact ⟨F', hplanted⟩
  | resolve name dir =>
    obtain ⟨⟨s₁, sl, lp⟩, hfind, hresult⟩ := Option.bind_eq_some_iff.mp hrun
    obtain ⟨rfl, -⟩ := Prod.mk.inj (Option.some.inj hresult)
    obtain ⟨F', hplanted, -⟩ := (assure_planted h hd (find_found hfind).1).1.planted
    exact ⟨F', hplanted⟩
  | first dir =>
    obtain ⟨s₁, hassure, hrest⟩ := Option.bind_eq_some_iff.mp hrun
    obtain ⟨x, -, hresult⟩ := Option.bind_eq_some_iff.mp hrest
    obtain ⟨rfl, -⟩ := Prod.mk.inj (Option.some.inj hresult)
    obtain ⟨F', hplanted, -⟩ := (assure_planted h hd hassure).1.planted
    exact ⟨F', hplanted⟩

theorem run_planted {cs : List Call} (hrun : Trace (Call.Step E r) s cs s') (h : Planted s F r) :
    ∃ F', Planted s' F' r := by
  induction hrun generalizing F with
  | nil s => exact ⟨F, h⟩
  | cons hstep _ ih =>
    obtain ⟨F₁, h₁⟩ := step_planted h hstep
    exact ih h₁

-- ---------------------------------------------------------------------------
-- fs_first and fs_next
-- ---------------------------------------------------------------------------

/-- `leftmost` of the root of a tree. -/
theorem settles_leftmost {t : SearchTree Ptr} {x par : Ptr} (h : (s.links d).Shape NULL x par t) :
    Settles (fun k => leftmost k x s) ((t.toList ++ [NULL]).head (by simp)) := by
  cases t with
  | nil =>
    have hx : x = NULL := h
    refine settles_of_eq ?_
    intro k
    rw [leftmost, if_pos hx, hx]
    rfl
  | node l p rt =>
    have hne : x ≠ NULL := by
      rw [h.1]
      exact h.2.1
    obtain ⟨y, hy, hexits⟩ := leftmost_spec h
    have hhead : ((SearchTree.node l p rt).toList ++ [NULL]).head (by simp) = y := by
      rw [List.head_append_of_ne_nil (List.ne_nil_of_mem (List.mem_of_head? hy))]
      exact Option.some.inj ((List.head?_eq_some_head _).symm.trans hy)
    rw [hhead]
    unfold leftmost
    simp only [if_neg hne]
    exact settles_of_exits hexits

/-- `fs_next` returns the next entry of the order. -/
theorem settles_next {x y : Ptr} (h : (s.links d).Next NULL x y) :
    Settles (fun k => fsNext k x s) y := by
  rw [Links.Next] at h
  unfold fsNext
  split at h
  · rename_i hright
    have hright' : (s.ent x).right ≠ NULL := hright
    simp only [if_pos hright', leftmost, if_neg hright']
    exact settles_of_exits h
  · rename_i hright
    have hright' : ¬ (s.ent x).right ≠ NULL := hright
    simp only [if_neg hright']
    exact settles_of_exits h

/-- So all entries of a directory are gone through in order. -/
theorem Planted.iterates (h : Planted s F r) (hd : d ∈ F.live) (E : Env) : Iterates E s d := by
  refine ⟨fun hready => ⟨1, assureDir_ready (h.holds d hd).type hready E 0⟩, fun k s₁ hassure => ?_⟩
  obtain ⟨F₁, h₁, hd₁⟩ := (assure_planted h hd hassure).1.planted
  have hholds := h₁.holds d hd₁
  have hnodup := nodup_of_sorted hholds.sorted
  refine ⟨_, (F₁.tree d).toList, ?_, visits_mono (visits_toList hholds.shape hnodup) fun _ _ => settles_next,
    hnodup, fun y => (reaches_iff hholds.shape).symm, ?_⟩
  · have hload : Settles (fun k => assureDir E k d s) s₁ :=
      ⟨k, fun k' hle => assureDir_below E hle d s s₁ hassure⟩
    have hpair := (settles_leftmost hholds.shape).bind
      (g := fun _ e => some (s₁, e)) (settles_of_eq fun _ => rfl)
    exact hload.bind (g := fun k s => (leftmost k (s.ent d).root s).bind fun e => some (s, e)) hpair
  · exact hholds.sorted.imp fun hlt => (strcmp_lt _ _).mpr hlt

end Runs

/-- **Iteration**: in every state that is reached, each directory can be gone through. -/
theorem iterates_reachable (E : Env) (s s' : State) (r d : Ptr) (h : Start s r) (cs : List Call)
    (hrun : Trace (Call.Step E r) s cs s') (hd : Attached s' r d) : Iterates E s' d := by
  obtain ⟨F, hplanted⟩ := run_planted hrun h.planted
  exact hplanted.iterates (hplanted.attached hd) E

/-- A directory with a directory in it. -/
def State.withDirectory : State :=
  (((Op.mkdir nameB).call .plain 1 .single 3).getD (.single, NULL)).1

/-- A file in the inner directory. -/
def State.withFile : State :=
  (((Op.enter nameA 0x5000 4).call .plain 2 .withDirectory 3).getD (.single, NULL)).1

theorem attached_inner {s : State} (hroot : (s.ent 1).root = 2) (htype : (s.ent 2).type = .DIRECTORY) :
    Attached s 1 2 := by
  refine .entry .root ?_ htype
  rw [hroot]
  exact .here (by decide)

/-- The inner directory can be gone through. -/
theorem iterates_inner :
    Trace (Call.Step .plain 1) State.single
      [.make (.mkdir nameB) 1, .make (.enter nameA 0x5000 4) 2] State.withFile ∧
    Iterates .plain State.withFile 2 := by
  have hinner : Attached State.withDirectory 1 2 := attached_inner (by decide) (by decide)
  have htrace : Trace (Call.Step .plain 1) State.single
      [.make (.mkdir nameB) 1, .make (.enter nameA 0x5000 4) 2] State.withFile :=
    .cons ⟨.root, 3, 2, rfl⟩ (.cons ⟨hinner, 3, 3, rfl⟩ (.nil _))
  exact ⟨htrace, iterates_reachable .plain .single .withFile 1 2 ⟨by decide, by decide, rfl, rfl⟩ _ htrace
    (attached_inner (by decide) (by decide))⟩

end Frosk.Fs
