import Mathlib.Tactic
import Frosk.Lib.Run

/-!
# Binary search trees of linked cells

A `SearchTree` is the abstract tree; `Links` are cells with pointers to their
children and their parent, and a root; `Shape` says that the cells form a given
tree.

* `lookup` and `place` are the two operations of an unbalanced tree that
  replaces the cell of a key it already has by a new leaf, with everything that
  hung below it: `lookup_place_ne` says that no other key is touched if that
  cell is a leaf, `exists_lost` that some other key is lost if it is not.
* `descendBody` is the loop that follows a key down, with a *slot* in hand (the
  field it came through) and the cell it belongs to; `descend_spec` says where
  it ends, and that storing a new cell in that slot is `place`.
-/

namespace Frosk.Lib

inductive SearchTree (α : Type*) where
  | nil
  | node (l : SearchTree α) (p : α) (r : SearchTree α)

variable {α κ : Type*}

namespace SearchTree

/-- The cells from left to right. -/
def toList : SearchTree α → List α
  | nil => []
  | node l p r => l.toList ++ p :: r.toList

section Ordered

variable [LinearOrder κ]

/-- The keys ascend from left to right. -/
def Sorted (key : α → κ) (t : SearchTree α) : Prop := t.toList.Pairwise fun a b => key a < key b

def lookup (key : α → κ) (k : κ) : SearchTree α → Option α
  | nil => none
  | node l p r =>
    if k < key p then l.lookup key k else if key p < k then r.lookup key k else some p

/-- A new cell where the search for `k` ends. -/
def place (key : α → κ) (k : κ) (q : α) : SearchTree α → SearchTree α
  | nil => node nil q nil
  | node l p r =>
    if k < key p then node (l.place key k q) p r
    else if key p < k then node l p (r.place key k q)
    else node nil q nil

/-- Nothing hangs below the cell of `k`, if there is one. -/
def LeafAt (key : α → κ) (k : κ) : SearchTree α → Prop
  | nil => True
  | node l p r =>
    if k < key p then l.LeafAt key k else if key p < k then r.LeafAt key k else l = nil ∧ r = nil

variable {key key' : α → κ} {k k' : κ} {t : SearchTree α} {p q : α}

/-- A tree is sorted when its parts are, and the root is between. -/
theorem sorted_node {l r : SearchTree α} : (node l p r).Sorted key ↔
    l.Sorted key ∧ r.Sorted key ∧ (∀ x ∈ l.toList, key x < key p) ∧
      ∀ x ∈ r.toList, key p < key x := by
  simp only [Sorted, toList, List.pairwise_append, List.pairwise_cons, List.mem_cons]
  constructor
  · rintro ⟨hl, ⟨hp, hr⟩, hlr⟩
    exact ⟨hl, hr, fun x hx => hlr x hx p (.inl rfl), hp⟩
  · rintro ⟨hl, hr, hlp, hpr⟩
    refine ⟨hl, ⟨hpr, hr⟩, ?_⟩
    intro x hx y hy
    rcases hy with rfl | hy
    · exact hlp x hx
    · exact (hlp x hx).trans (hpr y hy)

/-- In a sorted tree the key finds the node that has it. -/
theorem lookup_eq_some (hs : t.Sorted key) :
    t.lookup key k = some q ↔ q ∈ t.toList ∧ key q = k := by
  induction t with
  | nil => simp [lookup, toList]
  | node l p r ihl ihr =>
    obtain ⟨hl, hr, hlp, hpr⟩ := sorted_node.mp hs
    simp only [lookup, toList, List.mem_append, List.mem_cons]
    split_ifs with h₁ h₂
    · rw [ihl hl]
      constructor
      · exact fun h => ⟨.inl h.1, h.2⟩
      · rintro ⟨hq | rfl | hq, hk⟩
        · exact ⟨hq, hk⟩
        · exact absurd (hk ▸ h₁) (lt_irrefl _)
        · exact absurd (hpr q hq) (not_lt.mpr (hk ▸ h₁.le))
    · rw [ihr hr]
      constructor
      · exact fun h => ⟨.inr (.inr h.1), h.2⟩
      · rintro ⟨hq | rfl | hq, hk⟩
        · exact absurd (hlp q hq) (not_lt.mpr (hk ▸ h₂.le))
        · exact absurd (hk ▸ h₂) (lt_irrefl _)
        · exact ⟨hq, hk⟩
    · have hpk : key p = k := le_antisymm (not_lt.mp h₁) (not_lt.mp h₂)
      constructor
      · intro h
        obtain rfl := Option.some.inj h
        exact ⟨.inr (.inl rfl), hpk⟩
      · rintro ⟨hq | rfl | hq, hk⟩
        · exact absurd (hlp q hq) (by rw [hk, hpk]; exact lt_irrefl _)
        · rfl
        · exact absurd (hpr q hq) (by rw [hk, hpk]; exact lt_irrefl _)

/-- A key that no node has finds nothing. -/
theorem lookup_eq_none (hs : t.Sorted key) :
    t.lookup key k = none ↔ ∀ q ∈ t.toList, key q ≠ k := by
  rw [Option.eq_none_iff_forall_ne_some]
  constructor
  · intro h q hq hk
    exact h q ((lookup_eq_some hs).mpr ⟨hq, hk⟩)
  · intro h q hq
    obtain ⟨hmem, hk⟩ := (lookup_eq_some hs).mp hq
    exact h q hmem hk

/-- The search depends on the keys of the nodes only. -/
theorem lookup_congr (h : ∀ x ∈ t.toList, key' x = key x) :
    t.lookup key' k = t.lookup key k := by
  induction t with
  | nil => rfl
  | node l p r ihl ihr =>
    simp only [toList, List.mem_append, List.mem_cons] at h
    rw [lookup, lookup, h p (.inr (.inl rfl)), ihl fun x hx => h x (.inl hx),
      ihr fun x hx => h x (.inr (.inr hx))]

/-- The order depends on the keys of the nodes only. -/
theorem sorted_congr (h : ∀ x ∈ t.toList, key' x = key x) (hs : t.Sorted key) :
    t.Sorted key' := by
  refine List.Pairwise.imp_of_mem ?_ hs
  intro a b ha hb hab
  rw [h a ha, h b hb]
  exact hab

/-- The cells after a placement: the new one, and old ones with other keys. -/
theorem mem_place {x : α} (hs : t.Sorted key) (hx : x ∈ (t.place key k q).toList) :
    x = q ∨ (x ∈ t.toList ∧ key x ≠ k) := by
  induction t with
  | nil => simpa [place, toList] using hx
  | node l p r ihl ihr =>
    obtain ⟨hl, hr, hlp, hpr⟩ := sorted_node.mp hs
    simp only [place] at hx
    split_ifs at hx with h₁ h₂ <;> simp only [toList, List.mem_append, List.mem_cons] at hx ⊢
    · rcases hx with hx | rfl | hx
      · rcases ihl hl hx with rfl | ⟨hx, hk⟩
        · exact .inl rfl
        · exact .inr ⟨.inl hx, hk⟩
      · exact .inr ⟨.inr (.inl rfl), h₁.ne'⟩
      · exact .inr ⟨.inr (.inr hx), (h₁.trans (hpr x hx)).ne'⟩
    · rcases hx with hx | rfl | hx
      · exact .inr ⟨.inl hx, ((hlp x hx).trans h₂).ne⟩
      · exact .inr ⟨.inr (.inl rfl), h₂.ne⟩
      · rcases ihr hr hx with rfl | ⟨hx, hk⟩
        · exact .inl rfl
        · exact .inr ⟨.inr (.inr hx), hk⟩
    · simp only [List.not_mem_nil, or_false, false_or] at hx
      exact .inl hx

/-- Cells with other keys stay. -/
theorem mem_place_of_ne {x : α} (hx : x ∈ t.toList) (hk : ∀ y ∈ t.toList, key y ≠ k) :
    x ∈ (t.place key k q).toList := by
  induction t with
  | nil => cases hx
  | node l p r ihl ihr =>
    simp only [toList, List.mem_append, List.mem_cons] at hx hk
    have hp := hk p (.inr (.inl rfl))
    simp only [place]
    split_ifs with h₁ h₂ <;> simp only [toList, List.mem_append, List.mem_cons]
    · exact hx.imp_left fun hx => ihl hx fun y hy => hk y (.inl hy)
    · exact hx.imp_right (.imp_right fun hx => ihr hx fun y hy => hk y (.inr (.inr hy)))
    · exact absurd (le_antisymm (not_lt.mp h₁) (not_lt.mp h₂)) hp

/-- The placed node is in the tree. -/
theorem self_mem_place : q ∈ (t.place key k q).toList := by
  induction t with
  | nil => simp [place, toList]
  | node l p r ihl ihr =>
    simp only [place]
    split_ifs <;> simp [toList, ihl, ihr]

theorem sorted_place (hs : t.Sorted key) (hq : key q = k) : (t.place key k q).Sorted key := by
  induction t with
  | nil => simp [place, Sorted, toList]
  | node l p r ihl ihr =>
    obtain ⟨hl, hr, hlp, hpr⟩ := sorted_node.mp hs
    simp only [place]
    split_ifs with h₁ h₂
    · refine sorted_node.mpr ⟨ihl hl, hr, ?_, hpr⟩
      intro x hx
      rcases mem_place hl hx with rfl | ⟨hx, _⟩
      · exact hq ▸ h₁
      · exact hlp x hx
    · refine sorted_node.mpr ⟨hl, ihr hr, hlp, ?_⟩
      intro x hx
      rcases mem_place hr hx with rfl | ⟨hx, _⟩
      · exact hq ▸ h₂
      · exact hpr x hx
    · simp [Sorted, toList]

/-- The placed node is what its key finds. -/
theorem lookup_place_self (hs : t.Sorted key) (hq : key q = k) :
    (t.place key k q).lookup key k = some q :=
  (lookup_eq_some (sorted_place hs hq)).mpr ⟨self_mem_place, hq⟩

/-- A tree of one node holds no other key. -/
theorem lookup_single_ne (hne : k' ≠ key q) : (node nil q nil).lookup key k' = none := by
  simp only [lookup]
  split_ifs with h₁ h₂
  · rfl
  · rfl
  · exact absurd (le_antisymm (not_lt.mp h₂) (not_lt.mp h₁)) hne

/-- A leaf can be replaced without harm to other keys. -/
theorem lookup_place_ne (hleaf : t.LeafAt key k) (hq : key q = k) (hne : k' ≠ k) :
    (t.place key k q).lookup key k' = t.lookup key k' := by
  have hsingle : (node nil q nil).lookup key k' = none := lookup_single_ne (hq ▸ hne)
  induction t with
  | nil => exact hsingle
  | node l p r ihl ihr =>
    simp only [LeafAt] at hleaf
    simp only [place]
    split_ifs at hleaf ⊢ with h₁ h₂
    · simp only [lookup, ihl hleaf]
    · simp only [lookup, ihr hleaf]
    · have hpk : key p = k := le_antisymm (not_lt.mp h₁) (not_lt.mp h₂)
      obtain ⟨rfl, rfl⟩ := hleaf
      rw [hsingle, lookup_single_ne (hpk ▸ hne)]

/-- Replacing a cell that is not a leaf loses another key. -/
theorem exists_lost (hs : t.Sorted key) (hleaf : ¬ t.LeafAt key k) (hq : key q = k) :
    ∃ x ∈ t.toList, key x ≠ k ∧ (t.place key k q).lookup key (key x) = none := by
  induction t with
  | nil => exact absurd trivial hleaf
  | node l p r ihl ihr =>
    obtain ⟨hl, hr, hlp, hpr⟩ := sorted_node.mp hs
    simp only [LeafAt] at hleaf
    simp only [place]
    split_ifs at hleaf ⊢ with h₁ h₂
    · obtain ⟨x, hx, hxk, hlost⟩ := ihl hl hleaf
      refine ⟨x, by simp [toList, hx], hxk, ?_⟩
      rw [lookup, if_pos (hlp x hx)]
      exact hlost
    · obtain ⟨x, hx, hxk, hlost⟩ := ihr hr hleaf
      refine ⟨x, by simp [toList, hx], hxk, ?_⟩
      rw [lookup, if_neg (hpr x hx).not_gt, if_pos (hpr x hx)]
      exact hlost
    · -- anything in the subtrees has a key other than `k`
      have hpk : key p = k := le_antisymm (not_lt.mp h₁) (not_lt.mp h₂)
      obtain ⟨x, hx, hxk⟩ : ∃ x ∈ (node l p r).toList, key x ≠ k := by
        cases l with
        | node l₁ x l₂ =>
          exact ⟨x, by simp [toList], ((hlp x (by simp [toList])).trans_eq hpk).ne⟩
        | nil =>
          cases r with
          | nil => exact absurd ⟨rfl, rfl⟩ hleaf
          | node r₁ x r₂ =>
            exact ⟨x, by simp [toList], (hpk.symm.trans_lt (hpr x (by simp [toList]))).ne'⟩
      exact ⟨x, hx, hxk, lookup_single_ne (hq ▸ hxk)⟩

/-- Placing depends on the keys of the nodes only. -/
theorem place_congr (h : ∀ x ∈ t.toList, key' x = key x) :
    t.place key' k q = t.place key k q := by
  induction t with
  | nil => rfl
  | node l p r ihl ihr =>
    simp only [toList, List.mem_append, List.mem_cons] at h
    rw [place, place, h p (.inr (.inl rfl)), ihl fun x hx => h x (.inl hx),
      ihr fun x hx => h x (.inr (.inr hx))]

/-- The place of a key depends on the keys of the nodes only. -/
theorem leafAt_congr (h : ∀ x ∈ t.toList, key' x = key x) :
    t.LeafAt key' k ↔ t.LeafAt key k := by
  induction t with
  | nil => rfl
  | node l p r ihl ihr =>
    simp only [toList, List.mem_append, List.mem_cons] at h
    rw [LeafAt, LeafAt, h p (.inr (.inl rfl)), ihl fun x hx => h x (.inl hx),
      ihr fun x hx => h x (.inr (.inr hx))]

end Ordered

end SearchTree

-- ---------------------------------------------------------------------------
-- Cells
-- ---------------------------------------------------------------------------

/-- The pointers of the cells of one tree. -/
@[ext]
structure Links (α : Type*) where
  root   : α
  left   : α → α
  right  : α → α
  parent : α → α

/-- A field that holds a cell. -/
inductive Slot (α : Type*) where
  | root
  | left (p : α)
  | right (p : α)

/-- The cell a slot is a field of, if it is one of the tree. -/
def Slot.owner : Slot α → Option α
  | .root => none
  | .left p | .right p => some p

namespace Links

def load (L : Links α) : Slot α → α
  | .root => L.root
  | .left p => L.left p
  | .right p => L.right p

section Stores

variable [DecidableEq α]

def store (L : Links α) (q : α) : Slot α → Links α
  | .root => { L with root := q }
  | .left p => { L with left := Function.update L.left p q }
  | .right p => { L with right := Function.update L.right p q }

/-- A new cell without children. -/
def create (L : Links α) (null q par : α) : Links α :=
  { L with
    left := Function.update L.left q null
    right := Function.update L.right q null
    parent := Function.update L.parent q par }

end Stores

/-- The cell `q`, with parent `par`, is the top of the tree. -/
def Shape (L : Links α) (null : α) : α → α → SearchTree α → Prop
  | q, _, .nil => q = null
  | q, par, .node l p r => q = p ∧ p ≠ null ∧ L.parent p = par ∧
      L.Shape null (L.left p) p l ∧ L.Shape null (L.right p) p r

/-- The links lay out a tree when they agree on its nodes. -/
theorem shape_congr {L L' : Links α} {null : α} {t : SearchTree α} :
    ∀ {q par : α}, L.Shape null q par t →
      (∀ x ∈ t.toList, L'.left x = L.left x ∧ L'.right x = L.right x ∧
        L'.parent x = L.parent x) → L'.Shape null q par t := by
  induction t with
  | nil => exact fun h _ => h
  | node l p r ihl ihr =>
    rintro q par ⟨rfl, hnull, hpar, hl, hr⟩ heq
    simp only [SearchTree.toList, List.mem_append, List.mem_cons] at heq
    obtain ⟨h₁, h₂, h₃⟩ := heq q (.inr (.inl rfl))
    refine ⟨rfl, hnull, h₃.trans hpar, ?_, ?_⟩
    · rw [h₁]
      exact ihl hl fun x hx => heq x (.inl hx)
    · rw [h₂]
      exact ihr hr fun x hx => heq x (.inr (.inr hx))

/-- No node of a tree is the null pointer. -/
theorem shape_ne_null {L : Links α} {null : α} {t : SearchTree α} :
    ∀ {q par : α}, L.Shape null q par t → ∀ x ∈ t.toList, x ≠ null := by
  induction t with
  | nil => simp [SearchTree.toList]
  | node l p r ihl ihr =>
    rintro q par ⟨rfl, hnull, _, hl, hr⟩ x hx
    simp only [SearchTree.toList, List.mem_append, List.mem_cons] at hx
    rcases hx with hx | rfl | hx
    · exact ihl hl x hx
    · exact hnull
    · exact ihr hr x hx

/-- At the null pointer there is no tree. -/
theorem shape_null {L : Links α} {null par : α} {t : SearchTree α} (h : L.Shape null null par t) :
    t = .nil := by
  cases t with
  | nil => rfl
  | node l p r => exact absurd h.1.symm h.2.1

/-- The cell of `k` is a leaf of the tree when both its links are empty. -/
theorem leafAt_iff [LinearOrder κ] {L : Links α} {null : α} {key : α → κ} {k : κ} {t : SearchTree α} :
    ∀ {q par : α}, L.Shape null q par t → (t.LeafAt key k ↔
      ∀ e, t.lookup key k = some e → L.left e = null ∧ L.right e = null) := by
  induction t with
  | nil => simp [SearchTree.LeafAt, SearchTree.lookup]
  | node l p r ihl ihr =>
    rintro q par ⟨rfl, _, _, hl, hr⟩
    simp only [SearchTree.LeafAt, SearchTree.lookup]
    split_ifs
    · exact ihl hl
    · exact ihr hr
    · constructor
      · rintro ⟨rfl, rfl⟩ e he
        obtain rfl := Option.some.inj he
        exact ⟨hl, hr⟩
      · intro h
        obtain ⟨hleft, hright⟩ := h q rfl
        rw [hleft] at hl
        rw [hright] at hr
        exact ⟨shape_null hl, shape_null hr⟩

section Stores

variable [DecidableEq α] {L : Links α} {null q par : α} {sl sl' : Slot α}

/-- A slot that was stored is loaded again. -/
theorem load_store_self : (L.store q sl).load sl = q := by
  cases sl <;> simp [store, load]

theorem load_store_ne (hne : sl ≠ sl') : (L.store q sl').load sl = L.load sl := by
  cases sl <;> cases sl' <;> simp only [store, load, Function.update_apply]
  · exact absurd rfl hne
  all_goals
    rw [if_neg]
    intro h
    exact hne (by rw [h])

/-- A new node leaves every slot that is not its own. -/
theorem load_create (hq : sl.owner ≠ some q) : (L.create null q par).load sl = L.load sl := by
  cases sl with
  | root => rfl
  | left p => exact Function.update_of_ne (fun h => hq (congrArg some h)) ..
  | right p => exact Function.update_of_ne (fun h => hq (congrArg some h)) ..

/-- A new cell is stored: any other cell that does not own the slot is as before. -/
theorem store_create_other {x : α} (hx : x ≠ q) (hsl : sl.owner ≠ some x) :
    ((L.create null q par).store q sl).left x = L.left x ∧
    ((L.create null q par).store q sl).right x = L.right x ∧
    ((L.create null q par).store q sl).parent x = L.parent x := by
  have hown : ∀ p, sl.owner = some p → x ≠ p := fun p hp hxp => hsl (hxp ▸ hp)
  cases sl with
  | root => simp [store, create, hx]
  | left p => simp [store, create, hx, hown p rfl]
  | right p => simp [store, create, hx, hown p rfl]

/-- The new cell itself is a leaf. -/
theorem shape_store_create (hq : q ≠ null) (hsl : sl.owner ≠ some q) :
    ((L.create null q par).store q sl).Shape null q par (.node .nil q .nil) := by
  have hown : ∀ p, sl.owner = some p → q ≠ p := fun p hp hqp => hsl (hqp ▸ hp)
  cases sl with
  | root => simp [Shape, store, create, hq]
  | left p => simp [Shape, store, create, hq, hown p rfl]
  | right p => simp [Shape, store, create, hq, hown p rfl]

end Stores

end Links

-- ---------------------------------------------------------------------------
-- Following a key down
-- ---------------------------------------------------------------------------

/-- One round: leave at an empty slot or at the cell looked for, or go on in the
slot on its side. -/
def descendBody [DecidableEq α] (L : Links α) (null : α) (cmp : α → Int) :
    Slot α × α → (Slot α × α) ⊕ (Slot α × α)
  | (sl, lpar) =>
    if L.load sl = null then .inr (sl, lpar)
    else if cmp (L.load sl) < 0 then .inl (.left (L.load sl), L.load sl)
    else if 0 < cmp (L.load sl) then .inl (.right (L.load sl), L.load sl)
    else .inr (sl, lpar)

/-- The loop does not look at parents. -/
theorem descendBody_parent [DecidableEq α] (L : Links α) (par : α → α) (null : α) (cmp : α → Int) :
    descendBody { L with parent := par } null cmp = descendBody L null cmp := by
  funext ⟨sl, lp⟩
  cases sl <;> rfl

/-- The loop ends at the slot of the key: it holds the cell the tree has for it,
and a new cell stored there gives the tree with that cell placed. -/
theorem descend_spec [DecidableEq α] [LinearOrder κ] {L : Links α} {null : α} (cmp : α → Int)
    (key : α → κ) (k : κ) (t : SearchTree α) :
    ∀ (sl : Slot α) (lp : α), L.Shape null (L.load sl) lp t → t.toList.Nodup →
      (∀ p, sl.owner = some p → p ∉ t.toList) →
      (∀ x ∈ t.toList, (cmp x < 0 ↔ k < key x) ∧ (0 < cmp x ↔ key x < k)) →
      ∃ sl' lp', Exits (descendBody L null cmp) (sl, lp) (sl', lp') ∧
        L.load sl' = (t.lookup key k).getD null ∧
        ((sl' = sl ∧ lp' = lp) ∨ ∃ x ∈ t.toList, sl'.owner = some x) ∧
        ∀ q, q ≠ null → q ∉ t.toList → sl.owner ≠ some q →
          ((L.create null q lp').store q sl').Shape null
            (((L.create null q lp').store q sl').load sl) lp (t.place key k q) := by
  induction t with
  | nil =>
    intro sl lp hshape _ _ _
    have hend : descendBody L null cmp (sl, lp) = .inr (sl, lp) := if_pos hshape
    refine ⟨sl, lp, exits_of_inr hend, hshape, .inl ⟨rfl, rfl⟩, ?_⟩
    intro q hq _ hown
    rw [Links.load_store_self]
    exact Links.shape_store_create hq hown
  | node l p r ihl ihr =>
    rintro sl lp ⟨hp, hnull, hpar, hl, hr⟩ hnd hown hcmp
    simp only [SearchTree.toList, List.mem_append, List.mem_cons] at hcmp hown
    obtain ⟨hndl, ⟨hpr, hndr⟩, hdisj⟩ : l.toList.Nodup ∧ (p ∉ r.toList ∧ r.toList.Nodup) ∧
        ∀ x ∈ l.toList, ∀ y ∈ p :: r.toList, x ≠ y := by
      simpa only [SearchTree.toList, List.nodup_append, List.nodup_cons] using hnd
    have hpl : p ∉ l.toList := fun h => hdisj p h p List.mem_cons_self rfl
    have hlr : ∀ x ∈ l.toList, x ∉ r.toList :=
      fun x hx hxr => hdisj x hx x (List.mem_cons_of_mem _ hxr) rfl
    obtain ⟨hlt, hgt⟩ := hcmp p (.inr (.inl rfl))
    have hload : L.load sl ≠ null := hp ▸ hnull
    -- what a store strictly below `p` leaves alone at `sl` and at `p`
    have hkeep : ∀ (sl' : Slot α) (lp' q : α), sl.owner ≠ some q → q ≠ p →
        (∃ x, sl'.owner = some x ∧ sl.owner ≠ some x) →
        ((L.create null q lp').store q sl').load sl = p ∧
          ((L.create null q lp').store q sl').parent p = lp := by
      rintro sl' lp' q hqo hqp ⟨x, hx, hxo⟩
      have hne : sl ≠ sl' := fun h => hxo (h ▸ hx)
      refine ⟨by rw [Links.load_store_ne hne, Links.load_create hqo, hp], ?_⟩
      cases sl' <;> simp [Links.store, Links.create, hqp.symm, hpar]
    by_cases h₁ : cmp p < 0
    · have hround : descendBody L null cmp (sl, lp) = .inl (.left p, p) := by
        rw [descendBody, if_neg hload, hp, if_pos h₁]
      obtain ⟨sl', lp', hex, hfind, hwhere, hplace⟩ := ihl (.left p) p hl hndl
        (fun x hx => by rw [← Option.some.inj hx]; exact hpl)
        (fun x hx => hcmp x (.inl hx))
      have hin : ∃ x ∈ p :: l.toList, sl'.owner = some x := by
        rcases hwhere with ⟨rfl, _⟩ | ⟨x, hx, hxo⟩
        · exact ⟨p, List.mem_cons_self, rfl⟩
        · exact ⟨x, List.mem_cons_of_mem _ hx, hxo⟩
      obtain ⟨x, hx, hxo⟩ := hin
      have hxt : x ∈ l.toList ∨ x = p ∨ x ∈ r.toList := by
        rcases List.mem_cons.mp hx with rfl | hx
        · exact .inr (.inl rfl)
        · exact .inl hx
      refine ⟨sl', lp', exits_of_inl hround hex, ?_, .inr ⟨x, ?_, hxo⟩, ?_⟩
      · rw [hfind, SearchTree.lookup, if_pos (hlt.mp h₁)]
      · simpa only [SearchTree.toList, List.mem_append, List.mem_cons] using hxt
      · intro q hq hqt hqo
        simp only [SearchTree.toList, List.mem_append, List.mem_cons, not_or] at hqt
        obtain ⟨hql, hqp, hqr⟩ := hqt
        obtain ⟨htop, hparent⟩ := hkeep sl' lp' q hqo hqp ⟨x, hxo, fun h => hown x h hxt⟩
        have hsub := hplace q hq hql (fun h => hqp (Option.some.inj h).symm)
        have hright : ((L.create null q lp').store q sl').right p = L.right p := by
          have hne : Slot.right p ≠ sl' := by
            rintro rfl
            rcases hwhere with ⟨h, _⟩ | ⟨y, hy, hyo⟩
            · cases h
            · exact hpl (Option.some.inj hyo ▸ hy)
          have hpq : (Slot.right p).owner ≠ some q := fun h => hqp (Option.some.inj h).symm
          exact (Links.load_store_ne hne).trans (Links.load_create hpq)
        rw [SearchTree.place, if_pos (hlt.mp h₁)]
        refine ⟨htop, hnull, hparent, hsub, ?_⟩
        rw [hright]
        refine Links.shape_congr hr fun y hy => Links.store_create_other ?_ ?_
        · rintro rfl
          exact hqr hy
        · rw [hxo]
          intro h
          obtain rfl := Option.some.inj h
          rcases List.mem_cons.mp hx with rfl | hx
          · exact hpr hy
          · exact hlr x hx hy
    · by_cases h₂ : 0 < cmp p
      · have hround : descendBody L null cmp (sl, lp) = .inl (.right p, p) := by
          rw [descendBody, if_neg hload, hp, if_neg h₁, if_pos h₂]
        obtain ⟨sl', lp', hex, hfind, hwhere, hplace⟩ := ihr (.right p) p hr hndr
          (fun x hx => by rw [← Option.some.inj hx]; exact hpr)
          (fun x hx => hcmp x (.inr (.inr hx)))
        have hin : ∃ x ∈ p :: r.toList, sl'.owner = some x := by
          rcases hwhere with ⟨rfl, _⟩ | ⟨x, hx, hxo⟩
          · exact ⟨p, List.mem_cons_self, rfl⟩
          · exact ⟨x, List.mem_cons_of_mem _ hx, hxo⟩
        obtain ⟨x, hx, hxo⟩ := hin
        have hxt : x ∈ l.toList ∨ x = p ∨ x ∈ r.toList := .inr (List.mem_cons.mp hx)
        have hnlt : ¬ k < key p := fun h => h₁ (hlt.mpr h)
        refine ⟨sl', lp', exits_of_inl hround hex, ?_, .inr ⟨x, ?_, hxo⟩, ?_⟩
        · rw [hfind, SearchTree.lookup, if_neg hnlt, if_pos (hgt.mp h₂)]
        · simpa only [SearchTree.toList, List.mem_append, List.mem_cons] using hxt
        · intro q hq hqt hqo
          simp only [SearchTree.toList, List.mem_append, List.mem_cons, not_or] at hqt
          obtain ⟨hql, hqp, hqr⟩ := hqt
          obtain ⟨htop, hparent⟩ := hkeep sl' lp' q hqo hqp ⟨x, hxo, fun h => hown x h hxt⟩
          have hsub := hplace q hq hqr (fun h => hqp (Option.some.inj h).symm)
          have hleft : ((L.create null q lp').store q sl').left p = L.left p := by
            have hne : Slot.left p ≠ sl' := by
              rintro rfl
              rcases hwhere with ⟨h, _⟩ | ⟨y, hy, hyo⟩
              · cases h
              · exact hpr (Option.some.inj hyo ▸ hy)
            have hpq : (Slot.left p).owner ≠ some q := fun h => hqp (Option.some.inj h).symm
            exact (Links.load_store_ne hne).trans (Links.load_create hpq)
          rw [SearchTree.place, if_neg hnlt, if_pos (hgt.mp h₂)]
          refine ⟨htop, hnull, hparent, ?_, hsub⟩
          rw [hleft]
          refine Links.shape_congr hl fun y hy => Links.store_create_other ?_ ?_
          · rintro rfl
            exact hql hy
          · rw [hxo]
            intro h
            obtain rfl := Option.some.inj h
            rcases List.mem_cons.mp hx with rfl | hx
            · exact hpl hy
            · exact hlr x hy hx
      · have hend : descendBody L null cmp (sl, lp) = .inr (sl, lp) := by
          rw [descendBody, if_neg hload, hp, if_neg h₁, if_neg h₂]
        have hnlt : ¬ k < key p := fun h => h₁ (hlt.mpr h)
        have hngt : ¬ key p < k := fun h => h₂ (hgt.mpr h)
        refine ⟨sl, lp, exits_of_inr hend, ?_, .inl ⟨rfl, rfl⟩, ?_⟩
        · rw [hp, SearchTree.lookup, if_neg hnlt, if_neg hngt, Option.getD_some]
        · intro q hq _ hqo
          rw [Links.load_store_self, SearchTree.place, if_neg hnlt, if_neg hngt]
          exact Links.shape_store_create hq hqo

/-- Where the loop leaves, for cells whose links stay among those that `S` holds of. -/
theorem descend_within [DecidableEq α] {L : Links α} {null : α} {cmp : α → Int} {S : α → Prop}
    (hclosed : ∀ sl : Slot α, (∀ x, sl.owner = some x → S x) → L.load sl = null ∨ S (L.load sl))
    {n : Nat} {sl sl' : Slot α} {lp lp' : α} (hsl : ∀ x, sl.owner = some x → S x)
    (h : iterate (descendBody L null cmp) n (sl, lp) = some (sl', lp')) :
    (∀ x, sl'.owner = some x → S x) ∧ (L.load sl' = null ∨ S (L.load sl') ∧ cmp (L.load sl') = 0) := by
  refine iterate_invariant (fun r : Slot α × α => ∀ x, r.1.owner = some x → S x)
    (fun r : Slot α × α => (∀ x, r.1.owner = some x → S x) ∧
      (L.load r.1 = null ∨ S (L.load r.1) ∧ cmp (L.load r.1) = 0)) ?_ ?_ hsl h
  · rintro ⟨sl, lp⟩ r hin hround x hx
    rw [descendBody] at hround
    split_ifs at hround with hnull hless hmore
    · obtain rfl := Sum.inl.inj hround
      obtain rfl := Option.some.inj hx
      exact (hclosed sl hin).resolve_left hnull
    · obtain rfl := Sum.inl.inj hround
      obtain rfl := Option.some.inj hx
      exact (hclosed sl hin).resolve_left hnull
  · rintro ⟨sl, lp⟩ r hin hleave
    rw [descendBody] at hleave
    split_ifs at hleave with hnull hless hmore
    · obtain rfl := Sum.inr.inj hleave
      exact ⟨hin, .inl hnull⟩
    · obtain rfl := Sum.inr.inj hleave
      exact ⟨hin, .inr ⟨(hclosed sl hin).resolve_left hnull, le_antisymm (not_lt.mp hmore) (not_lt.mp hless)⟩⟩

end Frosk.Lib
