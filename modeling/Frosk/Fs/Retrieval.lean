import Mathlib.Tactic
import Frosk.Fs.Iteration

/-!
# The kernel's file system: paths

`fs_retrieve` looks the components of a path up one after the other. Only when it comes to
the next component does it look at what the last one was, and then it asserts that it is a
directory.

* `walk_settles` — where no directory is still to be loaded, every component can be looked up.
* `retrieve_walks_iff` — it returns what resolving the components yields exactly if it
  starts at `NULL`, or if every component but the last is a directory.
-/

namespace Frosk.Fs

open Lib

-- ---------------------------------------------------------------------------
-- Components
-- ---------------------------------------------------------------------------

/-- The components of a path without its first slash: what is between the slashes. Nothing
behind the last slash is no component. -/
def components (name : List UInt8) : List CStr :=
  let parts := name.splitOn slash
  (if parts.getLast? = some [] then parts.dropLast else parts).map .ofChars

/-- The path behind its first slash, if it begins with one. -/
def relative (name : CStr) : List UInt8 :=
  if name.chars.head? = some slash then name.chars.tail else name.chars

/-- Where the lookup of a path starts. -/
def State.startOf (s : State) (name : CStr) (x : Ptr) : Ptr :=
  if name.chars.head? = some slash then s.rootDir else x

/-- The components one after the other: what is not there, and what is in something other
than a directory, is `NULL`. -/
def walk (E : Env) (n : Nat) : List CStr → Ptr → State → Option (State × Ptr)
  | [], x, s => some (s, x)
  | c :: cs, x, s =>
    if x = NULL ∨ (s.ent x).type ≠ .DIRECTORY then some (s, NULL)
    else do
      let (s, x) ← fsResolve E n c x s
      walk E n cs x s

/-- Wherever a component is looked up there is a directory. -/
def Directories (E : Env) : List CStr → Ptr → State → Prop
  | [], _, _ => True
  | c :: cs, x, s => (x ≠ NULL ∧ (s.ent x).type = .DIRECTORY) ∧
      ∀ k s' y, fsResolve E k c x s = some (s', y) → Directories E cs y s'

/-- The first component is what is before the first slash. -/
theorem components_cons {name : List UInt8} (h : name ≠ []) :
    components name = .ofChars (name.takeWhile (· ≠ slash)) ::
      components (name.dropWhile (· ≠ slash)).tail := by
  have hsplit : name.takeWhile (· ≠ slash) ++ name.dropWhile (· ≠ slash) = name :=
    List.takeWhile_append_dropWhile
  have hclean : slash ∉ name.takeWhile (· ≠ slash) :=
    fun hmem => by simpa using List.mem_takeWhile_imp hmem
  cases hrest : name.dropWhile (· ≠ slash) with
  | nil =>
    rw [hrest, List.append_nil] at hsplit
    rw [hsplit] at hclean ⊢
    have hparts : name.splitOn slash = [name] := List.splitOn_eq_singleton hclean
    rw [components, hparts, if_neg (by simpa using h)]
    rfl
  | cons c rest =>
    have hc : c = slash := by
      have hhead := List.head?_dropWhile_not (p := fun c => decide (c ≠ slash)) name
      rw [hrest] at hhead
      simpa using hhead
    subst hc
    rw [hrest] at hsplit
    have hparts : name.splitOn slash =
        name.takeWhile (· ≠ slash) :: rest.splitOn slash := by
      conv_lhs => rw [← hsplit]
      exact List.splitOn_append_cons_self_of_not_mem hclean rest
    have hne : rest.splitOn slash ≠ [] := List.splitOn_ne_nil _ _
    obtain ⟨part, parts, hmore⟩ := List.exists_cons_of_ne_nil hne
    rw [components, hparts, List.tail_cons, components, hmore, List.getLast?_cons_cons]
    split
    · rw [List.dropLast_cons_of_ne_nil (List.cons_ne_nil part parts), List.map_cons]
    · rw [List.map_cons]

-- ---------------------------------------------------------------------------
-- The loop
-- ---------------------------------------------------------------------------

/-- The components one after the other, as `fs_retrieve` takes them. -/
def follow (E : Env) (n : Nat) : List CStr → Ptr → State → Option (State × Ptr)
  | [], x, s => some (s, x)
  | c :: cs, x, s =>
    if x = NULL ∨ (s.ent x).type ≠ .DIRECTORY then none
    else do
      let (s, x) ← fsResolve E n c x s
      follow E n cs x s

section Follow

variable {E : Env} {s : State} {x : Ptr} {cs : List CStr}

/-- The loop follows the components. -/
theorem retrieveLoop_eq (E : Env) (n : Nat) {k : Nat} {name : List UInt8} (hk : name.length < k)
    (x : Ptr) (s : State) :
    (iterate (retrieveBody E n) k (s, name, x)).join = follow E n (components name) x s := by
  induction k generalizing name x s with
  | zero => exact absurd hk (Nat.not_lt_zero _)
  | succ k ih =>
    by_cases hname : name = []
    · have hbody : retrieveBody E n (s, name, x) = .inr (some (s, x)) := if_pos hname
      rw [iterate_succ_inr hbody, hname]
      rfl
    · rw [components_cons hname, follow]
      by_cases hx : x = NULL ∨ (s.ent x).type ≠ .DIRECTORY
      · have hbody : retrieveBody E n (s, name, x) = .inr none := by
          rw [retrieveBody, if_neg hname, if_pos hx]
        rw [iterate_succ_inr hbody, if_pos hx]
        rfl
      · rw [if_neg hx]
        cases hresolve : fsResolve E n (.ofChars (name.takeWhile (· ≠ slash))) x s with
        | none =>
          have hbody : retrieveBody E n (s, name, x) = .inr none := by
            simp only [retrieveBody, if_neg hname, if_neg hx, hresolve]
          rw [iterate_succ_inr hbody]
          rfl
        | some r =>
          obtain ⟨s', y⟩ := r
          have hbody : retrieveBody E n (s, name, x) =
              .inl (s', (name.dropWhile (· ≠ slash)).tail, y) := by
            simp only [retrieveBody, if_neg hname, if_neg hx, hresolve]
          rw [iterate_succ_inl hbody]
          refine ih ?_ y s'
          have hlen := (List.dropWhile_sublist (p := fun c => decide (c ≠ slash)) (l := name)).length_le
          have hpos := List.length_pos_of_ne_nil hname
          rw [List.length_tail]
          omega

/-- Among directories the assertions do not fail. -/
theorem follow_eq_walk (h : Directories E cs x s) (n : Nat) : follow E n cs x s = walk E n cs x s := by
  induction cs generalizing x s with
  | nil => rfl
  | cons c cs ih =>
    obtain ⟨⟨hne, htype⟩, hrest⟩ := h
    have hx : ¬ (x = NULL ∨ (s.ent x).type ≠ .DIRECTORY) := by simp [hne, htype]
    rw [follow, walk, if_neg hx, if_neg hx]
    cases hresolve : fsResolve E n c x s with
    | none => rfl
    | some r => exact ih (hrest n r.1 r.2 hresolve)

/-- A lookup has one result. -/
theorem resolve_unique {c : CStr} {n k : Nat} {r q : State × Ptr} (hr : fsResolve E n c x s = some r)
    (hq : fsResolve E k c x s = some q) : r = q := by
  have h₁ := fsResolve_below E (Nat.le_max_left n k) c x s r hr
  have h₂ := fsResolve_below E (Nat.le_max_right n k) c x s q hq
  exact Option.some.inj (h₁.symm.trans h₂)

/-- Elsewhere one of them does. -/
theorem follow_fails (h : ¬ Directories E cs x s) (n : Nat) : follow E n cs x s = none := by
  induction cs generalizing x s with
  | nil => exact absurd trivial h
  | cons c cs ih =>
    rw [follow]
    split
    · rfl
    · rename_i hx
      simp only [not_or, ne_eq, not_not] at hx
      have hrest : ∃ k s' y, fsResolve E k c x s = some (s', y) ∧ ¬ Directories E cs y s' := by
        by_contra hall
        refine h ⟨hx, ?_⟩
        intro k s' y hresolve
        by_contra hnot
        exact hall ⟨k, s', y, hresolve, hnot⟩
      obtain ⟨k, s', y, hk, hnot⟩ := hrest
      cases hresolve : fsResolve E n c x s with
      | none => rfl
      | some r =>
        obtain rfl := resolve_unique hresolve hk
        exact ih hnot

/-- From `NULL` on there is nothing. -/
theorem walk_null (E : Env) (n : Nat) (cs : List CStr) (s : State) : walk E n cs NULL s = some (s, NULL) := by
  cases cs with
  | nil => rfl
  | cons c cs => rw [walk, if_pos (.inl rfl)]

/-- More rounds do not change where the components lead. -/
theorem walk_below (E : Env) {n k : Nat} (hle : n ≤ k) (cs : List CStr) (x : Ptr) (s : State) :
    Below (walk E n cs x s) (walk E k cs x s) := by
  induction cs generalizing x s with
  | nil => exact below_refl _
  | cons c cs ih =>
    rw [walk, walk]
    exact below_ite (below_refl _) (below_bind (fsResolve_below E hle c x s) fun r => ih r.2 r.1)

/-- `fs_retrieve` follows the components of its path. -/
theorem fsRetrieve_eq {name : CStr} (hne : s.startOf name x ≠ NULL) {k : Nat}
    (hk : (relative name).length < k) :
    fsRetrieve E k name x s = follow E k (components (relative name)) (s.startOf name x) s := by
  have hcall : fsRetrieve E k name x s = if s.startOf name x = NULL then some (s, NULL)
      else (iterate (retrieveBody E k) k (s, relative name, s.startOf name x)).join := rfl
  rw [hcall, if_neg hne, retrieveLoop_eq E k hk]

/-- Where one of them is looked up in something else than a directory, it does not return. -/
theorem fsRetrieve_fails {name : CStr} (hne : s.startOf name x ≠ NULL)
    (hnot : ¬ Directories E (components (relative name)) (s.startOf name x) s) (r : State × Ptr) :
    ¬ Settles (fun k => fsRetrieve E k name x s) r := by
  rintro ⟨n, hn⟩
  have hfails := follow_fails hnot (max n ((relative name).length + 1))
  rw [← fsRetrieve_eq hne (by omega)] at hfails
  exact absurd ((hn _ (Nat.le_max_left ..)).symm.trans hfails) nofun

/-- Where no directory is still to be loaded, all the components can be looked up. -/
theorem walk_settles {F : Forest} {r : Ptr} (h : Planted s F r)
    (hready : ∀ d ∈ F.live, s.rootDev = false ∨ (s.ent d).flags.present = true) (cs : List CStr)
    (hx : x = NULL ∨ (s.ent x).type ≠ .DIRECTORY ∨ x ∈ F.live) :
    ∃ y, Settles (fun k => walk E k cs x s) (s, y) := by
  induction cs generalizing x with
  | nil => exact ⟨x, settles_of_eq fun _ => rfl⟩
  | cons c cs ih =>
    by_cases hstop : x = NULL ∨ (s.ent x).type ≠ .DIRECTORY
    · exact ⟨NULL, settles_of_eq fun _ => if_pos hstop⟩
    have hlive : x ∈ F.live := (or_assoc.mpr hx).resolve_left hstop
    obtain ⟨n, sl, lp, hfound, hfind⟩ := find_spec (h.holds x hlive) c
    have hresolve : ∀ k, max n 1 ≤ k → fsResolve E k c x s = some (s, (s.links x).load sl) := by
      intro k hk
      obtain ⟨j, rfl⟩ : ∃ j, k = j + 1 := ⟨k - 1, by omega⟩
      have hassure := assureDir_ready (h.holds x hlive).type (hready x hlive) E j
      rw [fsResolve, find, hfind _ _ (by omega) hassure]
      rfl
    -- what is found is an entry of the directory, so if it is a directory it is one of the tree
    have hnext : (s.links x).load sl = NULL ∨ (s.ent ((s.links x).load sl)).type ≠ .DIRECTORY ∨
        (s.links x).load sl ∈ F.live := by
      rw [hfound.load]
      cases hlook : (F.tree x).lookup s.key c.key with
      | none => exact .inl rfl
      | some y =>
        rw [Option.getD_some]
        by_cases htype : (s.ent y).type = .DIRECTORY
        · have hy := ((SearchTree.lookup_eq_some (h.holds x hlive).sorted).mp hlook).1
          exact .inr (.inr (h.dirs x hlive y hy htype))
        · exact .inr (.inl htype)
    obtain ⟨y, m, hm⟩ := ih hnext
    refine ⟨y, max (max n 1) m, ?_⟩
    intro k hk
    have hrest : walk E k cs ((s.links x).load sl) s = some (s, y) := hm k (by omega)
    dsimp only
    rw [walk, if_neg hstop, hresolve k (by omega)]
    exact hrest

end Follow

/-- **Paths**: when all the components can be looked up, as they always can where no directory is
still to be loaded (`walk_settles`), `fs_retrieve` returns what they lead to exactly if it starts at
`NULL`, or wherever a component is looked up is a directory. -/
theorem retrieve_walks_iff (E : Env) (s s' : State) (name : CStr) (x y : Ptr)
    (hwalk : Settles (fun k => walk E k (components (relative name)) (s.startOf name x) s) (s', y)) :
    Settles (fun k => fsRetrieve E k name x s) (s', y) ↔
      s.startOf name x = NULL ∨ Directories E (components (relative name)) (s.startOf name x) s := by
  by_cases hnull : s.startOf name x = NULL
  · have hcall : ∀ k, fsRetrieve E k name x s = some (s, NULL) := fun k => if_pos hnull
    rw [hnull] at hwalk
    simp only [walk_null] at hwalk
    simp only [hcall, hnull, true_or, iff_true]
    exact hwalk
  · rw [or_iff_right hnull]
    constructor
    · intro hretrieve
      by_contra hnot
      exact fsRetrieve_fails hnull hnot _ hretrieve
    · intro hdirs
      obtain ⟨n, hn⟩ := hwalk
      refine ⟨max n ((relative name).length + 1), ?_⟩
      intro k hk
      have hcall := fsRetrieve_eq (E := E) hnull (k := k) (by omega)
      rw [follow_eq_walk hdirs] at hcall
      exact hcall.trans (hn k (by omega))

/-- The path `/b/a`. -/
def pathBA : CStr := ⟨[47, 98, 47, 97], by decide⟩

theorem components_pathBA : components (relative pathBA) = [nameB, nameA] := rfl

theorem walk_withFile : walk .plain 3 (components (relative pathBA)) 1 State.withFile =
    some (State.withFile, 3) := rfl

/-- The file in the inner directory. -/
theorem retrieve_inner : Settles (fun k => fsRetrieve .plain k pathBA NULL .withFile) (.withFile, 3) := by
  have hwalk : Settles (fun k => walk .plain k (components (relative pathBA)) 1 State.withFile)
      (State.withFile, 3) := ⟨3, fun k hk => walk_below .plain hk _ _ _ _ walk_withFile⟩
  refine (retrieve_walks_iff .plain .withFile .withFile pathBA NULL 3 hwalk).mpr (.inr ?_)
  rw [components_pathBA]
  have hresolve : fsResolve .plain 3 nameB 1 State.withFile = some (State.withFile, 2) := rfl
  refine ⟨⟨by decide, by decide⟩, ?_⟩
  intro k s' y hk
  obtain ⟨rfl, rfl⟩ := Prod.mk.inj (resolve_unique hk hresolve)
  exact ⟨⟨by decide, by decide⟩, fun _ _ _ _ => trivial⟩

/-- There is no `b`, so `/b/a` is not there either; but `fs_retrieve` does not say so. -/
theorem retrieve_missing :
    Settles (fun k => walk .plain k (components (relative pathBA)) (State.single.startOf pathBA NULL)
      .single) (.single, NULL) ∧
    ¬ Settles (fun k => fsRetrieve .plain k pathBA NULL .single) (.single, NULL) := by
  have hwalk : walk .plain 3 (components (relative pathBA)) 1 State.single = some (State.single, NULL) := rfl
  refine ⟨⟨3, fun k hk => walk_below .plain hk _ _ _ _ hwalk⟩, fsRetrieve_fails (by decide) ?_ _⟩
  rw [components_pathBA]
  have hresolve : fsResolve .plain 3 nameB 1 State.single = some (State.single, NULL) := rfl
  rintro ⟨-, hrest⟩
  exact (hrest 3 _ _ hresolve).1.1 rfl

end Frosk.Fs
