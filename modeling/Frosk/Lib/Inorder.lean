import Mathlib.Tactic
import Frosk.Lib.SearchTree

/-!
# Going through a tree without a stack

Cells with links to their children and their parent can be visited from left to right by
their links alone: the next cell is the leftmost one below the right child, or, without a
right child, the first cell above that is not left through its right child.

`visits_toList` — from the leftmost cell of a tree on, this visits the cells of the tree
from left to right, and ends.
-/

namespace Frosk.Lib

variable {α : Type*}

namespace Links

section Loops

variable [DecidableEq α]

/-- The loop that goes down to the left. -/
def leftmostBody (L : Links α) (null x : α) : α ⊕ α :=
  if L.left x ≠ null then .inl (L.left x) else .inr x

/-- The loop that goes up as long as it comes from the right. -/
def climbBody (L : Links α) (null x : α) : α ⊕ α :=
  if L.parent x ≠ null ∧ L.right (L.parent x) = x then .inl (L.parent x) else .inr (L.parent x)

/-- The cell `y` comes after `x`. -/
def Next (L : Links α) (null x y : α) : Prop :=
  if L.right x ≠ null then Exits (L.leftmostBody null) (L.right x) y
  else Exits (L.climbBody null) x y

end Loops

/-- The cell `y` hangs below `x`, or is `x`. -/
inductive Reaches (L : Links α) (null : α) : α → α → Prop
  | here {x : α} (hx : x ≠ null) : Reaches L null x x
  | left {x y : α} (hx : x ≠ null) (h : Reaches L null (L.left x) y) : Reaches L null x y
  | right {x y : α} (hx : x ≠ null) (h : Reaches L null (L.right x) y) : Reaches L null x y

end Links

/-- One cell after the other, up to `null`. -/
inductive Visits (next : α → α → Prop) (null : α) : α → List α → Prop
  | done : Visits next null null []
  | cons {x y : α} {l : List α} (hx : x ≠ null) (hnext : next x y) (hrest : Visits next null y l) :
      Visits next null x (x :: l)

variable {L : Links α} {null q par : α} {t : SearchTree α}

/-- What is reached from a node are the nodes of its tree. -/
theorem reaches_iff {y : α} (h : L.Shape null q par t) : L.Reaches null q y ↔ y ∈ t.toList := by
  induction t generalizing q par with
  | nil =>
    have hq : q = null := h
    simp only [SearchTree.toList, List.not_mem_nil, iff_false]
    intro hreach
    cases hreach with
    | here hx => exact hx hq
    | left hx _ => exact hx hq
    | right hx _ => exact hx hq
  | node l p r ihl ihr =>
    obtain ⟨rfl, hnull, -, hleft, hright⟩ := h
    simp only [SearchTree.toList, List.mem_append, List.mem_cons]
    constructor
    · intro hreach
      cases hreach with
      | here _ => exact .inr (.inl rfl)
      | left _ h => exact .inl ((ihl hleft).mp h)
      | right _ h => exact .inr (.inr ((ihr hright).mp h))
    · rintro (hy | rfl | hy)
      · exact .left hnull ((ihl hleft).mpr hy)
      · exact .here hnull
      · exact .right hnull ((ihr hright).mpr hy)

/-- A walk by one relation is a walk by a larger one. -/
theorem visits_mono {next next' : α → α → Prop} {x : α} {l : List α} (h : Visits next null x l)
    (hsub : ∀ a b, next a b → next' a b) : Visits next' null x l := by
  induction h with
  | done => exact .done
  | cons hx hnext _ ih => exact .cons hx (hsub _ _ hnext) ih

section Order

variable [DecidableEq α]

/-- Going left ends at the first node of the tree. -/
theorem leftmost_spec {l r : SearchTree α} {p : α} (h : L.Shape null q par (.node l p r)) :
    ∃ x, (SearchTree.node l p r).toList.head? = some x ∧ Exits (L.leftmostBody null) q x := by
  induction l generalizing q par p r with
  | nil =>
    obtain ⟨rfl, -, -, hleft, -⟩ := h
    have hleft' : L.left q = null := hleft
    exact ⟨q, rfl, exits_of_inr (if_neg (not_not_intro hleft'))⟩
  | node l₁ p₁ r₁ ihl _ =>
    obtain ⟨rfl, -, -, hleft, -⟩ := h
    have hne : L.left q ≠ null := by
      rw [hleft.1]
      exact hleft.2.1
    obtain ⟨x, hx, hexits⟩ := ihl hleft
    refine ⟨x, ?_, exits_of_inl (if_pos hne) hexits⟩
    rw [SearchTree.toList, List.head?_append, hx]
    rfl

/-- Inside of a tree with a way up to `y`, the cell behind `x` is the next one, and `y` is
behind the last. -/
theorem next_spec {y : α} (h : L.Shape null q par t) (hnd : t.toList.Nodup)
    (hup : t ≠ .nil → Exits (L.climbBody null) q y) {a b : List α} {x : α}
    (hlist : t.toList = a ++ x :: b) : L.Next null x ((b ++ [y]).head (by simp)) := by
  induction t generalizing q par y a b with
  | nil => simp [SearchTree.toList] at hlist
  | node l p r ihl ihr =>
    obtain ⟨rfl, hnull, hpar, hleft, hright⟩ := h
    have hup' := hup (by simp)
    rw [SearchTree.toList] at hnd hlist
    obtain ⟨hndl, hndr, hdisj⟩ := List.nodup_append.mp hnd
    have hq : q ∉ r.toList := (List.nodup_cons.mp hndr).1
    have htop : L.Next null q ((r.toList ++ [y]).head (by simp)) := by
      cases r with
      | nil =>
        have hnone : L.right q = null := hright
        rw [Links.Next, if_neg (not_not_intro hnone)]
        exact hup'
      | node r₁ p₁ r₂ =>
        have hsome : L.right q ≠ null := by
          rw [hright.1]
          exact hright.2.1
        obtain ⟨x, hx, hexits⟩ := leftmost_spec hright
        have hhead : ((SearchTree.node r₁ p₁ r₂).toList ++ [y]).head (by simp) = x := by
          rw [List.head_append_of_ne_nil (List.ne_nil_of_mem (List.mem_of_head? hx))]
          exact Option.some.inj ((List.head?_eq_some_head _).symm.trans hx)
        rw [Links.Next, if_pos hsome, hhead]
        exact hexits
    rcases List.append_eq_append_iff.mp hlist with ⟨c, hac, hc⟩ | ⟨c, hl, hc⟩
    · cases c with
      | nil =>
        obtain ⟨rfl, rfl⟩ := List.cons.inj hc
        exact htop
      | cons z c =>
        -- on the right the way up leads through the top
        obtain ⟨rfl, hr⟩ := List.cons.inj hc
        refine ihr hright (List.nodup_cons.mp hndr).2 (fun hne => ?_) hr
        cases r with
        | nil => exact absurd rfl hne
        | node r₁ p₁ r₂ =>
          obtain ⟨hp₁, hnull₁, hpar₁, -, -⟩ := hright
          refine exits_of_inl ?_ hup'
          rw [Links.climbBody, hp₁, hpar₁, if_pos ⟨hnull, hp₁⟩]
    · cases c with
      | nil =>
        obtain ⟨rfl, rfl⟩ := List.cons.inj hc
        exact htop
      | cons z c =>
        -- on the left the way up ends at the top
        obtain ⟨rfl, rfl⟩ := List.cons.inj hc
        have hnext := ihl (y := q) hleft hndl (fun hne => ?_) hl
        · convert hnext using 1
          cases c <;> rfl
        · cases l with
          | nil => exact absurd rfl hne
          | node l₁ p₁ l₂ =>
            obtain ⟨hp₁, hnull₁, hpar₁, -, -⟩ := hleft
            have hside : ¬ (q ≠ null ∧ L.right q = p₁) := by
              rintro ⟨-, hsame⟩
              cases r with
              | nil => exact hnull₁ (hsame.symm.trans hright)
              | node r₁ p₂ r₂ =>
                have hp₂ : p₁ = p₂ := hsame.symm.trans hright.1
                exact hdisj p₁ (by simp [SearchTree.toList]) p₁ (by simp [SearchTree.toList, hp₂]) rfl
            have hround : L.climbBody null (L.left q) = .inr q := by
              rw [Links.climbBody, hp₁, hpar₁, if_neg hside]
            exact exits_of_inr hround

omit [DecidableEq α] in
/-- A walk visits a list when each step goes to the element behind. -/
theorem visits_of_next {next : α → α → Prop} {l : List α} (hnull : null ∉ l)
    (h : ∀ a x b, l = a ++ x :: b → next x ((b ++ [null]).head (by simp))) :
    Visits next null ((l ++ [null]).head (by simp)) l := by
  induction l with
  | nil => exact .done
  | cons x l ih =>
    simp only [List.mem_cons, not_or] at hnull
    refine .cons (Ne.symm hnull.1) (h [] x l rfl) (ih hnull.2 fun a z b hl => ?_)
    exact h (x :: a) z b (by rw [hl, List.cons_append])

/-- The cells of a tree, from its leftmost one on. -/
theorem visits_toList (h : L.Shape null q null t) (hnd : t.toList.Nodup) :
    Visits (L.Next null) null ((t.toList ++ [null]).head (by simp)) t.toList := by
  refine visits_of_next (fun hmem => Links.shape_ne_null h null hmem rfl) fun a x b hlist => ?_
  refine next_spec h hnd (fun hne => ?_) hlist
  cases t with
  | nil => exact absurd rfl hne
  | node l p r =>
    obtain ⟨rfl, -, hpar, -, -⟩ := h
    have hround : L.climbBody null q = .inr null := by
      rw [Links.climbBody, hpar, if_neg (fun hn => hn.1 rfl)]
    exact exits_of_inr hround

end Order

end Frosk.Lib
