import Mathlib.Tactic
import Frosk.Fs.Definitions

/-!
# The kernel's file system: bounds

A larger bound on the loops and on the depth of the recursion changes no
result of the functions of `fs.c`.
-/

namespace Frosk.Fs

open Lib

/-- More bytes do not change a string that ends. -/
theorem strAt_below (m : Memory) {n k : Nat} (hle : n ≤ k) (a : Nat) :
    Below (strAt m n a) (strAt m k a) :=
  fun _ h => strAt_mono h hle

/-- `decimate` with a larger bound for what it calls. -/
theorem decimateWith_below {f g : Ptr → State → Option State}
    (hfg : ∀ x s, Below (f x s) (g x s)) (x : Ptr) (s : State) :
    Below (decimateWith f x s) (decimateWith g x s) := by
  unfold decimateWith
  refine below_ite ?_ (below_refl _)
  cases (s.ent x).type with
  | FILE => exact below_refl _
  | DIRECTORY => exact hfg _ _
  | INDIRECT => exact below_refl _

/-- More rounds do not change what is freed. -/
theorem destroy_below {n k : Nat} (hle : n ≤ k) :
    ∀ x s, Below (destroy n x s) (destroy k x s) := by
  induction n generalizing k with
  | zero => exact fun _ _ => below_none
  | succ n ih =>
    obtain ⟨k, rfl⟩ : ∃ j, k = j + 1 := ⟨k - 1, by omega⟩
    have hrec : ∀ x s, Below (destroy n x s) (destroy k x s) := ih (by omega)
    intro x s
    rw [destroy, destroy]
    refine below_ite (below_refl _) ?_
    refine below_bind (hrec _ _) ?_
    intro s₁
    refine below_bind (hrec _ _) ?_
    intro s₂
    exact below_bind (decimateWith_below hrec _ _) fun s₃ => below_refl _

theorem decimate_below {n k : Nat} (hle : n ≤ k) (x : Ptr) (s : State) :
    Below (decimate n x s) (decimate k x s) :=
  decimateWith_below (destroy_below hle) x s

section With

variable {f g : Ptr → State → Option State} {n k : Nat}

/-- `find`, with a larger bound for the loads in it. -/
theorem findWith_below (hfg : ∀ x s, Below (f x s) (g x s)) (hle : n ≤ k) (name : CStr)
    (par : Ptr) (s : State) : Below (findWith f n name par s) (findWith g k name par s) := by
  unfold findWith
  refine below_ite (below_refl _) (below_bind (hfg _ _) fun s₁ => ?_)
  exact below_bind (below_iterate _ hle _) fun x => below_refl _

/-- The entry that replaces another one. -/
theorem replaceEntry_below (E : Env) (hle : n ≤ k) (name : CStr) (par : Ptr) (type : EntType)
    (sl : Slot Ptr) (lpar : Ptr) (s : State) :
    Below (replaceEntry E n name par type sl lpar s) (replaceEntry E k name par type sl lpar s) :=
  below_bind (below_ite (decimate_below hle _ _) (below_refl _)) fun _ => below_refl _

/-- `insert_entry`, with a larger bound for the loads in it. -/
theorem insertEntryWith_below (hfg : ∀ x s, Below (f x s) (g x s)) (E : Env) (hle : n ≤ k)
    (name : CStr) (par : Ptr) (type : EntType) (s : State) :
    Below (insertEntryWith f E n name par type s) (insertEntryWith g E k name par type s) :=
  below_bind (findWith_below hfg hle name par s) fun _ =>
    replaceEntry_below E hle _ _ _ _ _ _

/-- So is `load_entry`. -/
theorem loadEntryWith_below (hfg : ∀ x s, Below (f x s) (g x s)) (E : Env) (hle : n ≤ k)
    (nd : Nat) (name : CStr) (dir : Ptr) (type : EntType) (s : State) :
    Below (loadEntryWith f E n nd name dir type s) (loadEntryWith g E k nd name dir type s) :=
  below_bind (insertEntryWith_below hfg E hle name dir type s) fun _ => below_refl _

/-- One entry of a directory that is loaded. -/
theorem assureRound_below (hfg : ∀ x s, Below (f x s) (g x s)) (E : Env) (hle : n ≤ k)
    (dir : Ptr) (s : State) (nd : Nat) :
    Below (assureRound f E n dir s nd) (assureRound g E k dir s nd) := by
  unfold assureRound
  refine below_bind (below_refl _) fun type => below_bind (below_refl _) fun r => ?_
  refine below_ite below_none (below_bind (strAt_below _ hle _) fun str => ?_)
  exact below_bind (loadEntryWith_below hfg E hle _ _ _ _ _) fun _ => below_refl _

end With

/-- All entries of a directory that is loaded, by induction on the bound. -/
theorem assureDir_below (E : Env) {n k : Nat} (hle : n ≤ k) :
    ∀ x s, Below (assureDir E n x s) (assureDir E k x s) := by
  induction n generalizing k with
  | zero => exact fun _ _ => below_none
  | succ n ih =>
    obtain ⟨k, rfl⟩ : ∃ j, k = j + 1 := ⟨k - 1, by omega⟩
    have hle' : n ≤ k := by omega
    intro x s
    rw [assureDir, assureDir]
    refine below_ite below_none (below_ite (below_refl _) (below_ite below_none ?_))
    refine below_bind (below_refl _) fun r => below_iterate_join ?_ ?_ hle' _
    · rintro ⟨s₁, n₁⟩ s' h
      rw [assureBody] at h ⊢
      split at h
      · cases h
      · rename_i hn
        split at h
        · cases h
        · rename_i r hr
          rw [if_neg hn, assureRound_below (ih hle') E hle' x s₁ n₁ r hr]
          exact h
    · rintro ⟨s₁, n₁⟩ s' h
      rw [assureBody] at h ⊢
      split at h
      · rename_i hn
        rw [if_pos hn, h]
      · split at h <;> cases h

section Calls

variable (E : Env) {n k : Nat} (hle : n ≤ k)
include hle

theorem find_below (name : CStr) (par : Ptr) (s : State) :
    Below (find E n name par s) (find E k name par s) :=
  findWith_below (assureDir_below E hle) hle name par s

theorem insertEntry_below (name : CStr) (par : Ptr) (type : EntType) (s : State) :
    Below (insertEntry E n name par type s) (insertEntry E k name par type s) :=
  insertEntryWith_below (assureDir_below E hle) E hle name par type s

theorem loadEntry_below (nd : Nat) (name : CStr) (dir : Ptr) (type : EntType) (s : State) :
    Below (loadEntry E n nd name dir type s) (loadEntry E k nd name dir type s) :=
  loadEntryWith_below (assureDir_below E hle) E hle nd name dir type s

/-- More rounds do not change what is found. -/
theorem fsResolve_below (name : CStr) (par : Ptr) (s : State) :
    Below (fsResolve E n name par s) (fsResolve E k name par s) :=
  below_bind (find_below E hle name par s) fun _ => below_refl _

theorem fsMkdir_below (name : CStr) (par : Ptr) (s : State) :
    Below (fsMkdir E n name par s) (fsMkdir E k name par s) :=
  below_bind (find_below E hle name par s) fun _ =>
    below_bind (replaceEntry_below E hle _ _ _ _ _ _) fun _ => below_refl _

theorem fsMkvdir_below (name : CStr) (par : Ptr) (s : State) :
    Below (fsMkvdir E n name par s) (fsMkvdir E k name par s) :=
  below_bind (fsMkdir_below E hle name par s) fun _ => below_refl _

theorem fsEnter_below (name : CStr) (data : Ptr) (size : Nat) (par : Ptr) (s : State) :
    Below (fsEnter E n name data size par s) (fsEnter E k name data size par s) :=
  below_bind (insertEntry_below E hle name par .FILE s) fun _ => below_refl _

/-- More rounds do not change where a path leads. -/
theorem fsRetrieve_below (name : CStr) (x : Ptr) (s : State) :
    Below (fsRetrieve E n name x s) (fsRetrieve E k name x s) := by
  unfold fsRetrieve
  refine below_ite (below_refl _) (below_iterate_join ?_ ?_ hle _)
  · rintro ⟨s, name, x⟩ t h
    rw [retrieveBody] at h ⊢
    split at h
    · cases h
    split at h
    · cases h
    rename_i hname hdir
    cases hr : fsResolve E n (.ofChars (name.takeWhile (· ≠ slash))) x s with
    | none =>
      rw [hr] at h
      cases h
    | some r =>
      rw [hr] at h
      rw [if_neg hname, if_neg hdir, fsResolve_below E hle _ _ _ _ hr]
      exact h
  · rintro ⟨s, name, x⟩ r h
    rw [retrieveBody] at h ⊢
    split at h
    · rename_i hname
      rw [if_pos hname]
      exact h
    split at h
    · cases h
    split at h <;> cases h

/-- More rounds do not change a size. -/
theorem fsSize_below (e : Ptr) (s : State) : Below (fsSize E n e s) (fsSize E k e s) := by
  unfold fsSize
  refine below_ite below_none (below_ite (below_refl _) (below_ite below_none ?_))
  refine below_bind (below_refl _) fun r => below_bind ?_ fun _ => below_refl _
  exact below_iterate_join (fun _ _ h => h) (fun _ _ h => h) hle _

/-- More rounds do not change what is read. -/
theorem fsRead_below (addr size : Nat) (e : Ptr) (s : State) :
    Below (fsRead E n addr size e s) (fsRead E k addr size e s) := by
  unfold fsRead
  refine below_ite (below_refl _) (below_ite (below_refl _) ?_)
  refine below_bind (fsSize_below E hle e s) ?_
  intro r
  refine below_ite (below_refl _) (below_ite (below_refl _) (below_ite (below_refl _) ?_))
  refine below_ite below_none (below_bind (below_refl _) fun _ => below_bind ?_ fun _ => below_refl _)
  exact below_iterate_join (fun _ _ h => h) (fun _ _ h => h) hle _

end Calls

end Frosk.Fs
