import Mathlib.Tactic
import Frosk.Lib.Run
import Frosk.Builder.Blocks

/-!
# The image builder: every node is in a block

However many metadata blocks there are, and whatever the sizes of the nodes: what `new_node`
returns is a node that was not given out before, it is in the list of its block, and
`write_node` comes to it from the first block.

* `Reached` — the way to a node, from the first of its block on, and over branch nodes.
* `Wired` — the invariant of the allocator, with the nodes of the free list and the branch
  nodes.
* `newNode_gives` — the spec of `new_node`, for callers that store a type in the nodes they
  were given.
-/

namespace Frosk.Builder

open Lib Fs

variable {E : Env} {s s' s₁ : State} {m n x y p new : Ptr} {free br ts : List Ptr} {k size sz : Nat}

-- ---------------------------------------------------------------------------
-- The invariant
-- ---------------------------------------------------------------------------

/-- How `write_node` comes to a node from the block `m`, where `br` are the branch nodes. -/
inductive Reached (s : State) (br : List Ptr) (m : Ptr) : Ptr → Prop
  | first {n : Ptr} (hprev : (s.node n).prev = NULL) (hloc : (s.node n).location = m)
      (hfirst : (s.metaAt m).first = n) : Reached s br m n
  | sub {p n : Ptr} (hp : p ∈ br) (h : Reached s br m p) (hprev : (s.node n).prev = NULL)
      (hloc : (s.node n).location = (s.node p).freeNext)
      (hfirst : (s.metaAt (s.node p).freeNext).first = n) : Reached s br m n
  | next {p n : Ptr} (hp : p ∈ s.nodes) (h : Reached s br m p) (hprev : (s.node n).prev = p)
      (hnext : (s.node p).next = n) : Reached s br m n

/-- The nodes of the allocator: `free` are the free nodes, also those that the free list has
lost, `br` the branch nodes, and `ts` those that were given out. -/
structure Wired (s : State) (m : Ptr) (free br ts : List Ptr) : Prop where
  null   : NULL ∉ s.nodes
  root   : m ≠ NULL ∧ m ∈ s.metas
  list   : ∃ l, FreeList s s.freeMeta l ∧ l.Nodup ∧ ∀ n ∈ l, n ∈ free
  parts  : ∀ n, n ∈ s.nodes ↔ n ∈ free ∨ n ∈ br ∨ n ∈ ts
  apart  : (∀ n ∈ free, n ∉ br ∧ n ∉ ts) ∧ ∀ n ∈ br, n ∉ ts
  free   : ∀ n ∈ free, (s.node n).type = .FREE ∧ (s.node n).freePrev = NULL
  branch : ∀ n ∈ br, (s.node n).type = .BRANCH ∧ (s.node n).freeNext ∈ s.metas
  home   : ∀ n ∈ s.nodes, (s.node n).location ∈ s.metas
  reach  : ∀ n ∈ s.nodes, Reached s br m n

-- ---------------------------------------------------------------------------
-- Lists
-- ---------------------------------------------------------------------------

/-- The free list depends on its own links only. -/
theorem FreeList.congr {l : List Ptr} (h : FreeList s p l)
    (hnext : ∀ n ∈ l, (s'.node n).freeNext = (s.node n).freeNext) : FreeList s' p l := by
  induction l generalizing p with
  | nil => exact h
  | cons n l ih =>
    obtain ⟨rfl, hnull, hrest⟩ := h
    refine ⟨rfl, hnull, ?_⟩
    rw [hnext p (List.mem_cons_self ..)]
    exact ih hrest fun n hn => hnext n (List.mem_cons_of_mem _ hn)

/-- The free list behind one of its nodes. -/
theorem FreeList.behind {l : List Ptr} (h : FreeList s p l) (hn : n ∈ l) :
    ∃ l₁ l₂, l = l₁ ++ n :: l₂ ∧ FreeList s (s.node n).freeNext l₂ := by
  induction l generalizing p with
  | nil => cases hn
  | cons y l ih =>
    obtain ⟨rfl, -, hrest⟩ := h
    rcases List.mem_cons.mp hn with rfl | hn
    · exact ⟨[], l, rfl, hrest⟩
    · obtain ⟨l₁, l₂, rfl, hbehind⟩ := ih hrest hn
      exact ⟨p :: l₁, l₂, rfl, hbehind⟩

theorem FreeList.head {l : List Ptr} (h : FreeList s p l) : p = NULL ∨ p ∈ l := by
  cases l with
  | nil => exact .inl h
  | cons n l =>
    obtain ⟨rfl, -, -⟩ := h
    exact .inr (List.mem_cons_self ..)

/-- What `find_free` returns is a node of the list. -/
theorem findFree_mem {l : List Ptr} (h : FreeList s s.freeMeta l) (hfind : findFree k size s = some n) :
    n = NULL ∨ n ∈ l := by
  rw [findFree] at hfind
  split at hfind
  · cases hfind
  · obtain ⟨r, hr, hrn⟩ := Option.bind_eq_some_iff.mp hfind
    refine iterate_invariant (fun f => f = NULL ∨ f ∈ l) (fun r => ∀ n, r = some n → n = NULL ∨ n ∈ l)
      ?_ ?_ h.head hr n hrn
    · intro f f' hf hround
      rw [findFreeBody] at hround
      split_ifs at hround with hmore htype
      obtain rfl := Sum.inl.inj hround
      obtain ⟨l₁, l₂, rfl, hbehind⟩ := h.behind (hf.resolve_left hmore.1)
      exact hbehind.head.imp id fun hn => List.mem_append_right _ (List.mem_cons_of_mem _ hn)
    · intro f r hf hleave n hn
      rw [findFreeBody] at hleave
      split_ifs at hleave with hmore htype
      · obtain rfl := Sum.inr.inj hleave
        cases hn
      · obtain rfl := Sum.inr.inj hleave
        obtain rfl := Option.some.inj hn
        exact hf

/-- What is before a node leads to it. -/
theorem Reached.back (h : Reached s br m n) (hnull : NULL ∉ s.nodes) :
    ((s.node n).prev = NULL → (s.metaAt (s.node n).location).first = n) ∧
    ((s.node n).prev ≠ NULL → (s.node n).prev ∈ s.nodes ∧ (s.node (s.node n).prev).next = n) := by
  cases h with
  | first hprev hloc hfirst =>
    refine ⟨fun _ => ?_, fun hne => absurd hprev hne⟩
    rw [hloc]
    exact hfirst
  | sub hp h hprev hloc hfirst =>
    refine ⟨fun _ => ?_, fun hne => absurd hprev hne⟩
    rw [hloc]
    exact hfirst
  | next hp h hprev hnext =>
    constructor
    · intro hz
      exact absurd (hprev.symm.trans hz ▸ hp) hnull
    · intro _
      rw [hprev]
      exact ⟨hp, hnext⟩

/-- No node is its own neighbour. -/
theorem Reached.prev_ne (h : Reached s br m n) (hnull : NULL ∉ s.nodes) (hn : n ∈ s.nodes) :
    (s.node n).prev ≠ n := by
  have hne : n ≠ NULL := ne_of_mem_of_not_mem hn hnull
  induction h with
  | first hprev hloc hfirst =>
    rw [hprev]
    exact hne.symm
  | sub hp h hprev hloc hfirst ih =>
    rw [hprev]
    exact hne.symm
  | @next p n hp h hprev hnext ih =>
    rw [hprev]
    intro hpn
    refine ih hp (ne_of_mem_of_not_mem hp hnull) ?_
    rw [hpn, hprev, hpn]

-- ---------------------------------------------------------------------------
-- A node cut in two
-- ---------------------------------------------------------------------------

/-- A split leaves types and the free list as they are. -/
theorem split_same (s : State) (x new : Ptr) (sz : Nat) (y : Ptr) :
    ((s.split x new sz).node y).type = (s.node y).type ∧
    ((s.split x new sz).node y).freeNext = (s.node y).freeNext ∧
    ((s.split x new sz).node y).freePrev = (s.node y).freePrev := by
  simp only [State.split]
  split_ifs with hx hnew hprev
  · rw [hx]
    exact ⟨rfl, rfl, rfl⟩
  · rw [hnew]
    exact ⟨rfl, rfl, rfl⟩
  · exact ⟨rfl, rfl, rfl⟩
  · exact ⟨rfl, rfl, rfl⟩

/-- The new node, before the one that was cut. -/
theorem split_new (s : State) {x new : Ptr} (hx : new ≠ x) (sz : Nat) :
    (s.split x new sz).node new = { s.node new with
      size := sz, ptr := (s.node x).ptr, location := (s.node x).location, prev := (s.node x).prev,
      next := x } := by
  simp only [State.split, if_neg hx, if_true]

theorem split_location (s : State) {x new y : Ptr} (hy : y ≠ new) (sz : Nat) :
    ((s.split x new sz).node y).location = (s.node y).location := by
  simp only [State.split, if_neg hy]
  split_ifs with hx hprev
  · rw [hx]
  · rfl
  · rfl

theorem split_prev_self (s : State) (x new : Ptr) (sz : Nat) : ((s.split x new sz).node x).prev = new := by
  simp only [State.split, if_true]

theorem split_prev (s : State) {x new y : Ptr} (hx : y ≠ x) (hy : y ≠ new) (sz : Nat) :
    ((s.split x new sz).node y).prev = (s.node y).prev := by
  simp only [State.split, if_neg hx, if_neg hy]
  split_ifs <;> rfl

theorem split_next (s : State) {x new y : Ptr} (hy : y ≠ new) (hprev : y ≠ (s.node x).prev) (sz : Nat) :
    ((s.split x new sz).node y).next = (s.node y).next := by
  simp only [State.split, if_neg hy, hprev, false_and, if_false]
  split_ifs with hx
  · rw [hx]
  · rfl

/-- The neighbour leads to the new node. -/
theorem split_next_prev (s : State) {x new : Ptr} (hx : (s.node x).prev ≠ x) (hnew : (s.node x).prev ≠ new)
    (hnull : (s.node x).prev ≠ NULL) (sz : Nat) :
    ((s.split x new sz).node (s.node x).prev).next = new := by
  simp only [State.split, if_neg hx, if_neg hnew, true_and, if_pos hnull]

theorem split_first (s : State) {x new m : Ptr} (hm : (s.node x).prev ≠ NULL ∨ m ≠ (s.node x).location)
    (sz : Nat) : (s.split x new sz).metaAt m = s.metaAt m := by
  simp only [State.split]
  split_ifs with hnull
  · exact Function.update_of_ne (hm.resolve_left (not_not_intro hnull)) ..
  · rfl

/-- So does the block, if there was no neighbour. -/
theorem split_first_self (s : State) {x new : Ptr} (hnull : (s.node x).prev = NULL) (sz : Nat) :
    ((s.split x new sz).metaAt (s.node x).location).first = new := by
  simp only [State.split, if_pos hnull, Function.update_self]

/-- The way to each node is still there, and the new node is on the way to `x`. -/
theorem Reached.split (hx : Reached s br m x) (hxn : x ∈ s.nodes) (hnull : NULL ∉ s.nodes)
    (hnew : new ∉ s.nodes) (hbr : ∀ b ∈ br, b ∈ s.nodes) (sz : Nat)
    (h : Reached s br m n) (hn : n ∈ s.nodes) :
    Reached (s.split x new sz) br m n ∧ (n = x → Reached (s.split x new sz) br m new) := by
  have hxnew : new ≠ x := (ne_of_mem_of_not_mem hxn hnew).symm
  have hback := hx.back hnull
  have hsplit := split_new s hxnew sz
  -- once the new node is reached, `x` is behind it
  have hself : Reached (s.split x new sz) br m new → Reached (s.split x new sz) br m x := fun hr =>
    .next (List.mem_cons_self ..) hr (split_prev_self s x new sz) (by rw [hsplit])
  induction h with
  | @first n hprev hloc hfirst =>
    have hnn : n ≠ new := ne_of_mem_of_not_mem hn hnew
    by_cases hnx : n = x
    · subst hnx
      have hr : Reached (s.split n new sz) br m new := by
        refine .first ?_ ?_ ?_
        · rw [hsplit]
          exact hprev
        · rw [hsplit]
          exact hloc
        · rw [← hloc]
          exact split_first_self s hprev sz
      exact ⟨hself hr, fun _ => hr⟩
    · refine ⟨.first ?_ ?_ ?_, fun h => absurd h hnx⟩
      · rw [split_prev s hnx hnn]
        exact hprev
      · rw [split_location s hnn]
        exact hloc
      · rw [split_first s ?_ sz]
        · exact hfirst
        · by_contra hboth
          push Not at hboth
          exact hnx (hfirst.symm.trans (hboth.2 ▸ hback.1 hboth.1))
  | @sub p n hp h hprev hloc hfirst ih =>
    have hnn : n ≠ new := ne_of_mem_of_not_mem hn hnew
    have hr' := (ih (hbr p hp)).1
    obtain ⟨-, hfree, -⟩ := split_same s x new sz p
    by_cases hnx : n = x
    · subst hnx
      have hr : Reached (s.split n new sz) br m new := by
        refine .sub hp hr' ?_ ?_ ?_
        · rw [hsplit]
          exact hprev
        · rw [hsplit, hfree]
          exact hloc
        · rw [hfree, ← hloc]
          exact split_first_self s hprev sz
      exact ⟨hself hr, fun _ => hr⟩
    · refine ⟨.sub hp hr' ?_ ?_ ?_, fun h => absurd h hnx⟩
      · rw [split_prev s hnx hnn]
        exact hprev
      · rw [split_location s hnn, hfree]
        exact hloc
      · rw [hfree, split_first s ?_ sz]
        · exact hfirst
        · by_contra hboth
          push Not at hboth
          exact hnx (hfirst.symm.trans (hboth.2 ▸ hback.1 hboth.1))
  | @next p n hp h hprev hnext ih =>
    have hnn : n ≠ new := ne_of_mem_of_not_mem hn hnew
    have hpn : p ≠ new := ne_of_mem_of_not_mem hp hnew
    have hr' := (ih hp).1
    have hmem : p ∈ (s.split x new sz).nodes := List.mem_cons_of_mem _ hp
    by_cases hnx : n = x
    · subst hnx
      have hr : Reached (s.split n new sz) br m new := by
        refine .next hmem hr' ?_ ?_
        · rw [hsplit]
          exact hprev
        · rw [← hprev]
          refine split_next_prev s (hx.prev_ne hnull hxn) ?_ ?_ sz
          · rw [hprev]
            exact hpn
          · rw [hprev]
            exact ne_of_mem_of_not_mem hp hnull
      exact ⟨hself hr, fun _ => hr⟩
    · refine ⟨.next hmem hr' ?_ ?_, fun h => absurd h hnx⟩
      · rw [split_prev s hnx hnn]
        exact hprev
      · rw [split_next s hpn ?_ sz]
        · exact hnext
        · intro hpx
          have hne : (s.node x).prev ≠ NULL := hpx ▸ ne_of_mem_of_not_mem hp hnull
          have hxnext := (hback.2 hne).2
          rw [← hpx, hnext] at hxnext
          exact hnx hxnext

-- ---------------------------------------------------------------------------
-- carve
-- ---------------------------------------------------------------------------

section Wiring

variable {free' br' ts' : List Ptr}

theorem Wired.branch_mem (h : Wired s m free br ts) : ∀ b ∈ br, b ∈ s.nodes := fun b hb =>
  (h.parts b).mpr (.inr (.inl hb))

/-- A step that keeps the links of the blocks. -/
theorem Wired.reached (h : Wired s m free br ts) (hnodes : ∀ y ∈ s.nodes, y ∈ s'.nodes)
    (hbr : ∀ b ∈ br, b ∈ br') (hlinks : ∀ y ∈ s.nodes, (s'.node y).prev = (s.node y).prev ∧
      (s'.node y).location = (s.node y).location ∧ (s'.node y).next = (s.node y).next)
    (hsub : ∀ b ∈ br, (s'.node b).freeNext = (s.node b).freeNext)
    (hfirst : ∀ q ∈ s.metas, (s'.metaAt q).first = (s.metaAt q).first) (hn : n ∈ s.nodes) :
    Reached s' br' m n := by
  have hr := h.reach n hn
  induction hr with
  | @first n hprev hloc hroot =>
    obtain ⟨hprev', hloc', -⟩ := hlinks n hn
    exact .first (hprev'.trans hprev) (hloc'.trans hloc) ((hfirst m h.root.2).trans hroot)
  | @sub p n hp hr hprev hloc hroot ih =>
    obtain ⟨hprev', hloc', -⟩ := hlinks n hn
    refine .sub (hbr p hp) (ih (h.branch_mem p hp)) (hprev'.trans hprev) ?_ ?_
    · rw [hloc', hloc, hsub p hp]
    · rw [hsub p hp, hfirst _ (h.branch p hp).2]
      exact hroot
  | @next p n hp hr hprev hnext ih =>
    obtain ⟨hprev', -⟩ := hlinks n hn
    obtain ⟨-, -, hnext'⟩ := hlinks p hp
    exact .next (hnodes p hp) (ih hp) (hprev'.trans hprev) (hnext'.trans hnext)

/-- What `carve` and `new_node` give: the node `n`, and nothing else of what was given out has
changed its type. -/
structure Gives (s s' : State) (m : Ptr) (free' br' ts : List Ptr) (n : Ptr) : Prop where
  wired : Wired s' m free' br' (n :: ts)
  new   : n ∉ ts
  type  : ∀ y ∈ ts, (s'.node y).type = (s.node y).type
  block : s'.blockSize = s.blockSize

/-- The free node is taken as it is. -/
theorem Wired.take (h : Wired s m free br ts) (hx : x ∈ free)
    (hlist : ∃ l, FreeList s (s.node x).freeNext l ∧ l.Nodup ∧ ∀ y ∈ l, y ∈ free ∧ y ≠ x) :
    Gives s { s with freeMeta := (s.node x).freeNext } m (free.filter (· ≠ x)) br ts x := by
  obtain ⟨l, hl, hnodup, hsub⟩ := hlist
  have hfilter : ∀ y, y ∈ free.filter (· ≠ x) ↔ y ∈ free ∧ y ≠ x := by
    intro y
    rw [List.mem_filter, decide_eq_true_eq]
  refine ⟨⟨h.null, h.root, ⟨l, hl.congr fun _ _ => rfl, hnodup, fun y hy => (hfilter y).mpr (hsub y hy)⟩,
    fun y => ?_, ⟨fun y hy => ?_, fun b hb => ?_⟩, fun y hy => h.free y ((hfilter y).mp hy).1, h.branch,
    h.home, fun y hy => h.reached (fun _ hy => hy) (fun _ hb => hb) (fun _ _ => ⟨rfl, rfl, rfl⟩)
      (fun _ _ => rfl) (fun _ _ => rfl) hy⟩, (h.apart.1 x hx).2, fun _ _ => rfl, rfl⟩
  · show y ∈ s.nodes ↔ _
    rw [h.parts, hfilter, List.mem_cons]
    by_cases hyx : y = x
    · subst hyx
      simp [hx]
    · simp [hyx]
  · obtain ⟨hyf, hyx⟩ := (hfilter y).mp hy
    refine ⟨(h.apart.1 y hyf).1, ?_⟩
    intro hyt
    exact (List.mem_cons.mp hyt).elim hyx (h.apart.1 y hyf).2
  · intro hbt
    rcases List.mem_cons.mp hbt with rfl | hbt
    · exact (h.apart.1 b hx).1 hb
    · exact h.apart.2 b hb hbt

/-- A new node is cut off. -/
theorem Wired.split (h : Wired s m free br ts) (hx : x ∈ free ∨ x ∈ br) (hnew : new ∉ s.nodes)
    (hz : new ≠ NULL) (sz : Nat) : Gives s (s.split x new sz) m free br ts new := by
  have hxn : x ∈ s.nodes := (h.parts x).mpr (hx.imp_right .inl)
  have hxnew : new ≠ x := (ne_of_mem_of_not_mem hxn hnew).symm
  have hsame := split_same s x new sz
  have hfree : new ∉ free := fun hf => hnew ((h.parts new).mpr (.inl hf))
  have hbranch : new ∉ br := fun hb => hnew (h.branch_mem new hb)
  have hgiven : new ∉ ts := fun ht => hnew ((h.parts new).mpr (.inr (.inr ht)))
  have hreach := fun {y : Ptr} (hy : y ∈ s.nodes) =>
    (h.reach x hxn).split hxn h.null hnew h.branch_mem sz (h.reach y hy) hy
  obtain ⟨l, hl, hnodup, hsub⟩ := h.list
  refine ⟨⟨?_, h.root, ⟨l, hl.congr fun y _ => (hsame y).2.1, hnodup, hsub⟩, fun y => ?_,
    ⟨fun y hy => ⟨(h.apart.1 y hy).1, fun hyt => ?_⟩, fun b hb hbt => ?_⟩, fun y hy => ?_, fun b hb => ?_,
    fun y hy => ?_, fun y hy => ?_⟩, hgiven, fun y _ => (hsame y).1, rfl⟩
  · rintro (_ | ⟨_, hmem⟩)
    · exact hz rfl
    · exact h.null hmem
  · show y ∈ new :: s.nodes ↔ _
    rw [List.mem_cons, h.parts, List.mem_cons]
    tauto
  · rcases List.mem_cons.mp hyt with rfl | hyt
    · exact hfree hy
    · exact (h.apart.1 y hy).2 hyt
  · rcases List.mem_cons.mp hbt with rfl | hbt
    · exact hbranch hb
    · exact h.apart.2 b hb hbt
  · rw [(hsame y).1, (hsame y).2.2]
    exact h.free y hy
  · rw [(hsame b).1, (hsame b).2.1]
    exact h.branch b hb
  · rcases List.mem_cons.mp hy with rfl | hy
    · rw [split_new s hxnew]
      exact h.home x hxn
    · rw [split_location s (ne_of_mem_of_not_mem hy hnew)]
      exact h.home y hy
  · rcases List.mem_cons.mp hy with rfl | hy
    · exact (hreach hxn).2 rfl
    · exact (hreach hy).1

/-- `carve` takes the node as it is if it has the size, and else cuts a new one off. -/
theorem carve_gives (h : Wired s m free br ts) (hx : x ∈ free ∨ x ∈ br)
    (hexact : (s.node x).size = sz → x ∈ free ∧
      ∃ l, FreeList s (s.node x).freeNext l ∧ l.Nodup ∧ ∀ y ∈ l, y ∈ free ∧ y ≠ x)
    (hcarve : carve E sz x s = some (s', n)) :
    ∃ free', Gives s s' m free' br ts n ∧ (s'.node n).size = sz := by
  by_cases hsz : (s.node x).size = sz
  · obtain ⟨hfree, hlist⟩ := hexact hsz
    have hprev := (h.free x hfree).2
    rw [carve, if_pos hsz] at hcarve
    simp only [hprev, if_true] at hcarve
    obtain ⟨rfl, rfl⟩ := Prod.mk.inj (Option.some.inj hcarve)
    exact ⟨_, h.take hfree hlist, hsz⟩
  · obtain ⟨new, hnew⟩ : ∃ new, E.malloc.pick s.used = new := ⟨_, rfl⟩
    have hfresh : new ∉ s.nodes := by
      rw [← hnew]
      exact fun hn => E.malloc.fresh s.used (List.mem_append_left _ hn)
    have hz : new ≠ NULL := hnew ▸ E.malloc.ne_null s.used
    have hxn : x ∈ s.nodes := (h.parts x).mpr (hx.imp_right .inl)
    have hxnew : new ≠ x := (ne_of_mem_of_not_mem hxn hfresh).symm
    have hreach := h.reach x hxn
    have hprev : (s.node x).prev ≠ new := by
      by_cases hnull : (s.node x).prev = NULL
      · rw [hnull]
        exact hz.symm
      · exact ne_of_mem_of_not_mem ((hreach.back h.null).2 hnull).1 hfresh
    rw [carve_split E hnew hsz hxnew (hreach.prev_ne h.null hxn) hprev] at hcarve
    split at hcarve
    · cases hcarve
    · obtain ⟨rfl, rfl⟩ := Prod.mk.inj (Option.some.inj hcarve)
      refine ⟨free, h.split hx hfresh hz sz, ?_⟩
      rw [split_new s hxnew]

/-- A type is stored in a node that was given out. -/
theorem Wired.retype (h : Wired s m free br ts) (hn : n ∈ ts) (t : FnodeType) :
    Wired (s.modify n fun v => { v with type := t }) m free br ts := by
  have hnode : ∀ y, ((s.modify n fun v => { v with type := t }).node y) =
      { s.node y with type := if y = n then t else (s.node y).type } := by
    intro y
    by_cases hy : y = n
    · rw [hy, State.modify_node_self, if_pos rfl]
    · rw [State.modify_node_ne hy, if_neg hy]
  have htype : ∀ y, y ≠ n → ((s.modify n fun v => { v with type := t }).node y).type = (s.node y).type := by
    intro y hy
    rw [State.modify_node_ne hy]
  obtain ⟨l, hl, hnodup, hsub⟩ := h.list
  refine ⟨h.null, h.root, ⟨l, hl.congr fun y _ => by rw [hnode], hnodup, hsub⟩, h.parts, h.apart,
    fun y hy => ?_, fun b hb => ?_, fun y hy => ?_, fun y hy => ?_⟩
  · have hyn : y ≠ n := fun heq => (h.apart.1 y hy).2 (heq ▸ hn)
    rw [State.modify_node_ne hyn]
    exact h.free y hy
  · have hbn : b ≠ n := fun heq => h.apart.2 b hb (heq ▸ hn)
    rw [State.modify_node_ne hbn]
    exact h.branch b hb
  · rw [hnode]
    exact h.home y hy
  · refine h.reached (fun _ hy => hy) (fun _ hb => hb) (fun y _ => ?_) (fun b _ => ?_) (fun _ _ => rfl) hy
    · rw [hnode]
      exact ⟨rfl, rfl, rfl⟩
    · rw [hnode]

/-- The allocator does not look at the block that is next. -/
theorem Wired.setLba (h : Wired s m free br ts) (lba : Nat) :
    Wired { s with nextLba := lba } m free br ts := by
  obtain ⟨l, hl, hnodup, hsub⟩ := h.list
  exact ⟨h.null, h.root, ⟨l, hl.congr fun _ _ => rfl, hnodup, hsub⟩, h.parts, h.apart, h.free,
    h.branch, h.home,
    fun y hy => h.reached (fun _ hy => hy) (fun _ hb => hb) (fun _ _ => ⟨rfl, rfl, rfl⟩) (fun _ _ => rfl)
      (fun _ _ => rfl) hy⟩

/-- What `new_meta` makes: a block `q` with the free node `fr`. -/
structure Makes (s s' : State) (q fr : Ptr) : Prop where
  fresh : fr ∉ s.nodes ∧ fr ≠ NULL ∧ q ∉ s.metas ∧ q ≠ NULL
  node  : ∀ y, y ≠ fr → s'.node y = s.node y
  free  : (s'.node fr).type = .FREE ∧ (s'.node fr).prev = NULL ∧ (s'.node fr).location = q ∧
    (s'.node fr).freeNext = s.freeMeta ∧ (s'.node fr).freePrev = NULL
  nodes : s'.nodes = fr :: s.nodes
  first : (s'.metaAt q).first = fr ∧ ∀ r, r ≠ q → s'.metaAt r = s.metaAt r
  metas : s'.metas = q :: s.metas
  head  : s'.freeMeta = fr
  block : s'.blockSize = s.blockSize

/-- What `new_meta` makes: a block with one free node. -/
theorem newMeta_makes {q b : Ptr} (hmeta : newMeta E b s = some (s', q)) : ∃ fr, Makes s s' q fr := by
  rw [newMeta] at hmeta
  split at hmeta
  · cases hmeta
  · obtain ⟨rfl, rfl⟩ := Prod.mk.inj (Option.some.inj hmeta)
    have hfr := E.malloc.fresh s.used
    have hq := E.malloc.fresh (E.malloc.pick s.used :: s.used)
    refine ⟨E.malloc.pick s.used, ⟨fun hn => hfr (List.mem_append_left _ hn), E.malloc.ne_null _, fun hn =>
      hq (List.mem_cons_of_mem _ (List.mem_append_right _ hn)), E.malloc.ne_null _⟩, fun y hy =>
      Function.update_of_ne hy .., ?_, rfl, ⟨?_, fun r hr => Function.update_of_ne hr ..⟩, rfl, rfl, rfl⟩
    · simp only [Function.update_self, and_self]
    · simp only [Function.update_self]

/-- A node that was given out becomes a branch node, over a new block. -/
theorem Wired.descend (h : Wired s m free br (x :: ts)) (hx : x ∉ ts) {q : Ptr}
    (hmeta : newMeta E x (s.modify x fun v => { v with type := .BRANCH }) = some (s₁, q)) :
    ∃ fr, Wired (s₁.modify x (Node.setSub q)) m (fr :: free) (x :: br) ts ∧
      (∀ y ∈ ts, ((s₁.modify x (Node.setSub q)).node y).type = (s.node y).type) ∧
      ((s₁.modify x (Node.setSub q)).node x).size = (s.node x).size ∧ s₁.blockSize = s.blockSize := by
  obtain ⟨fr, hmakes⟩ := newMeta_makes hmeta
  obtain ⟨hfrn, hfrz, hq, -⟩ := hmakes.fresh
  obtain ⟨hftype, hfprev, hfloc, hfnext, hfback⟩ := hmakes.free
  have hxn : x ∈ s.nodes := (h.parts x).mpr (.inr (.inr (List.mem_cons_self ..)))
  have hxfr : fr ≠ x := (ne_of_mem_of_not_mem hxn hfrn).symm
  let s₂ := s₁.modify x (Node.setSub q)
  have hself : s₂.node x = { s.node x with type := .BRANCH, freeNext := q } := by
    rw [show s₂.node x = _ from State.modify_node_self s₁ x _, hmakes.node x hxfr.symm,
      State.modify_node_self]
    rfl
  have hother : ∀ y ∈ s.nodes, y ≠ x → s₂.node y = s.node y := by
    intro y hy hyx
    rw [show s₂.node y = _ from State.modify_node_ne hyx _, hmakes.node y (ne_of_mem_of_not_mem hy hfrn),
      State.modify_node_ne hyx]
  have hfr : s₂.node fr = s₁.node fr := State.modify_node_ne hxfr _
  have hnodes : s₂.nodes = fr :: s.nodes := hmakes.nodes
  have hmetas : s₂.metas = q :: s.metas := hmakes.metas
  have hmeta' : ∀ r ∈ s.metas, s₂.metaAt r = s.metaAt r := fun r hr =>
    hmakes.first.2 r (ne_of_mem_of_not_mem hr hq)
  have hold : ∀ y, y ∈ free ∨ y ∈ br ∨ y ∈ ts → y ∈ s.nodes ∧ y ≠ x := by
    intro y hy
    refine ⟨(h.parts y).mpr ?_, ?_⟩
    · exact hy.imp_right fun hy => hy.imp_right fun hy => List.mem_cons_of_mem _ hy
    · rintro rfl
      rcases hy with hy | hy | hy
      · exact (h.apart.1 y hy).2 (List.mem_cons_self ..)
      · exact h.apart.2 y hy (List.mem_cons_self ..)
      · exact hx hy
  have hlinks : ∀ y ∈ s.nodes, (s₂.node y).prev = (s.node y).prev ∧
      (s₂.node y).location = (s.node y).location ∧ (s₂.node y).next = (s.node y).next := by
    intro y hy
    by_cases hyx : y = x
    · rw [hyx, hself]
      exact ⟨rfl, rfl, rfl⟩
    · rw [hother y hy hyx]
      exact ⟨rfl, rfl, rfl⟩
  have hreach : ∀ y ∈ s.nodes, Reached s₂ (x :: br) m y := fun y hy =>
    h.reached (fun z hz => hnodes ▸ List.mem_cons_of_mem _ hz) (fun b hb => List.mem_cons_of_mem _ hb) hlinks
      (fun b hb => by rw [hother b (h.branch_mem b hb) (hold b (.inr (.inl hb))).2])
      (fun r hr => congrArg Meta.first (hmeta' r hr)) hy
  have hnot : ∀ y, y ∈ free ∨ y ∈ br ∨ y ∈ ts → y ≠ fr := fun y hy =>
    ne_of_mem_of_not_mem (hold y hy).1 hfrn
  obtain ⟨l, hl, hnodup, hsub⟩ := h.list
  have hwired : Wired s₂ m (fr :: free) (x :: br) ts := by
    refine ⟨?_, ⟨h.root.1, ?_⟩, ⟨fr :: l, ?_, ?_, ?_⟩, fun y => ?_, ⟨fun y hy => ?_, fun b hb => ?_⟩,
      fun y hy => ?_, fun b hb => ?_, fun y hy => ?_, fun y hy => ?_⟩
    · rw [hnodes]
      rintro (_ | ⟨_, hmem⟩)
      · exact hfrz rfl
      · exact h.null hmem
    · rw [hmetas]
      exact List.mem_cons_of_mem _ h.root.2
    · refine ⟨hmakes.head, hfrz, ?_⟩
      rw [hfr, hfnext]
      refine hl.congr ?_
      intro y hy
      rw [hother y (hold y (.inl (hsub y hy))).1 (hold y (.inl (hsub y hy))).2]
    · exact List.nodup_cons.mpr ⟨fun hmem => hnot fr (.inl (hsub fr hmem)) rfl, hnodup⟩
    · intro y hy
      rcases List.mem_cons.mp hy with rfl | hy
      · exact List.mem_cons_self ..
      · exact List.mem_cons_of_mem _ (hsub y hy)
    · rw [hnodes, List.mem_cons, h.parts]
      simp only [List.mem_cons]
      tauto
    · rcases List.mem_cons.mp hy with rfl | hy
      · refine ⟨fun hb => ?_, fun ht => hnot y (.inr (.inr ht)) rfl⟩
        rcases List.mem_cons.mp hb with rfl | hb
        · exact hxfr rfl
        · exact hnot y (.inr (.inl hb)) rfl
      · refine ⟨fun hb => ?_, fun ht => (h.apart.1 y hy).2 (List.mem_cons_of_mem _ ht)⟩
        rcases List.mem_cons.mp hb with rfl | hb
        · exact (hold y (.inl hy)).2 rfl
        · exact (h.apart.1 y hy).1 hb
    · rcases List.mem_cons.mp hb with rfl | hb
      · exact hx
      · exact fun ht => h.apart.2 b hb (List.mem_cons_of_mem _ ht)
    · rcases List.mem_cons.mp hy with rfl | hy
      · rw [hfr]
        exact ⟨hftype, hfback⟩
      · rw [hother y (hold y (.inl hy)).1 (hold y (.inl hy)).2]
        exact h.free y hy
    · rw [hmetas]
      rcases List.mem_cons.mp hb with rfl | hb
      · rw [hself]
        exact ⟨rfl, List.mem_cons_self ..⟩
      · rw [hother b (hold b (.inr (.inl hb))).1 (hold b (.inr (.inl hb))).2]
        exact ⟨(h.branch b hb).1, List.mem_cons_of_mem _ (h.branch b hb).2⟩
    · rw [hmetas]
      rw [hnodes] at hy
      rcases List.mem_cons.mp hy with rfl | hy
      · rw [hfr, hfloc]
        exact List.mem_cons_self ..
      · rw [(hlinks y hy).2.1]
        exact List.mem_cons_of_mem _ (h.home y hy)
    · rw [hnodes] at hy
      rcases List.mem_cons.mp hy with rfl | hy
      · have hq' : (s₂.node x).freeNext = q := by rw [hself]
        refine .sub (List.mem_cons_self ..) (hreach x hxn) ?_ ?_ ?_
        · rw [hfr, hfprev]
        · rw [hfr, hfloc, hq']
        · rw [hq']
          exact hmakes.first.1
      · exact hreach y hy
  refine ⟨fr, hwired, ?_, ?_, hmakes.block⟩
  · intro y hy
    show (s₂.node y).type = _
    rw [hother y (hold y (.inr (.inr hy))).1 (hold y (.inr (.inr hy))).2]
  · show (s₂.node x).size = _
    rw [hself]

-- ---------------------------------------------------------------------------
-- new_node
-- ---------------------------------------------------------------------------

/-- What was found in the free list is cut, or taken. -/
theorem Wired.found (h : Wired s m free br ts) (hfind : findFree k size s = some x) (hx : x ≠ NULL)
    (hcarve : carve E sz x s = some (s', n)) :
    ∃ free', Gives s s' m free' br ts n ∧ (s'.node n).size = sz := by
  obtain ⟨l, hl, hnodup, hsub⟩ := h.list
  have hmem := (findFree_mem hl hfind).resolve_left hx
  obtain ⟨l₁, l₂, rfl, hbehind⟩ := hl.behind hmem
  obtain ⟨hx₂, hnodup₂⟩ := List.nodup_cons.mp (List.nodup_append.mp hnodup).2.1
  refine carve_gives h (.inl (hsub x hmem)) (fun _ => ⟨hsub x hmem, l₂, hbehind, hnodup₂, fun y hy => ?_⟩)
    hcarve
  exact ⟨hsub y (List.mem_append_right _ (List.mem_cons_of_mem _ hy)), ne_of_mem_of_not_mem hy hx₂⟩

/-- A branch node, which has not the size that was looked for. -/
theorem newBranch_gives (h : Wired s m free br ts) (hfull : findFree k sz s = some NULL)
    (hbranch : newBranch E k s = some (s', x)) :
    ∃ free', Wired s' m free' (x :: br) ts ∧ x ≠ NULL ∧ (∀ y ∈ ts, (s'.node y).type = (s.node y).type) ∧
      (s'.node x).size ≠ sz ∧ s'.blockSize = s.blockSize := by
  obtain ⟨⟨s₁, n₁⟩, hnode, hbranch⟩ := Option.bind_eq_some_iff.mp hbranch
  rw [newNodehWith] at hnode
  obtain ⟨f, hfind, hnode⟩ := Option.bind_eq_some_iff.mp hnode
  by_cases hf : f = NULL
  · -- without room for a branch node the assertion fails
    simp only [hf, if_true, Option.bind_eq_bind, Option.bind_some] at hnode
    obtain ⟨rfl, rfl⟩ := Prod.mk.inj (Option.some.inj hnode)
    simp at hbranch
  · simp only [if_neg hf, Option.bind_eq_bind, Option.bind_some] at hnode
    obtain ⟨free₁, hgives, hsize⟩ := h.found hfind hf hnode
    have hn₁ : n₁ ≠ NULL := by
      refine ne_of_mem_of_not_mem ?_ hgives.wired.null
      exact (hgives.wired.parts n₁).mpr (.inr (.inr (List.mem_cons_self ..)))
    simp only [if_neg hn₁, Option.bind_eq_bind] at hbranch
    obtain ⟨⟨s₂, q⟩, hmeta, hresult⟩ := Option.bind_eq_some_iff.mp hbranch
    obtain ⟨rfl, rfl⟩ := Prod.mk.inj (Option.some.inj hresult)
    obtain ⟨fr, hwired, htype, hsize', hblock⟩ := hgives.wired.descend hgives.new hmeta
    refine ⟨_, hwired, hn₁, fun y hy => (htype y hy).trans (hgives.type y hy), ?_, hblock.trans hgives.block⟩
    rw [hsize', hsize]
    intro heq
    rw [heq, hfull] at hfind
    exact hf (Option.some.inj hfind).symm

/-- Every `new_node` that returns gives a new node that can be reached, and leaves the other nodes
their types. -/
theorem newNode_gives (h : Wired s m free br ts) (hnode : newNode E k size s = some (s', n)) :
    ∃ free' br', Gives s s' m free' br' ts n := by
  rw [newNode, newNodehWith] at hnode
  obtain ⟨f, hfind, hnode⟩ := Option.bind_eq_some_iff.mp hnode
  by_cases hf : f = NULL
  · simp only [hf, if_true, Option.bind_eq_bind] at hnode
    obtain ⟨⟨s₁, x⟩, hbranch, hcarve⟩ := Option.bind_eq_some_iff.mp hnode
    rw [hf] at hfind
    obtain ⟨free₁, hwired, hx, htype, hsize, hblock⟩ := newBranch_gives h hfind hbranch
    have hal : s₁.aligned size = s.aligned size := by
      rw [State.aligned, State.aligned, State.entrySize, State.entrySize, hblock]
    simp only [if_neg hx, hal] at hcarve
    obtain ⟨free', hgives, -⟩ := carve_gives hwired (.inr (List.mem_cons_self ..))
      (fun heq => absurd heq hsize) hcarve
    exact ⟨free', _, hgives.wired, hgives.new, fun y hy => (hgives.type y hy).trans (htype y hy),
      hgives.block.trans hblock⟩
  · simp only [if_neg hf, Option.bind_eq_bind, Option.bind_some] at hnode
    obtain ⟨free', hgives, -⟩ := h.found hfind hf hnode
    exact ⟨free', br, hgives⟩

end Wiring

/-- The first metadata block. -/
theorem newMeta_wired (hmeta : newMeta E NULL s = some (s', m)) (hnodes : s.nodes = [])
    (hfree : s.freeMeta = NULL) : ∃ fr, Wired s' m [fr] [] [] := by
  obtain ⟨fr, hmakes⟩ := newMeta_makes hmeta
  obtain ⟨-, hfrz, -, hmz⟩ := hmakes.fresh
  obtain ⟨hftype, hfprev, hfloc, hfnext, hfback⟩ := hmakes.free
  have hall : ∀ y, y ∈ s'.nodes ↔ y = fr := by
    intro y
    rw [hmakes.nodes, hnodes, List.mem_singleton]
  refine ⟨fr, ⟨fun hz => hfrz ((hall NULL).mp hz).symm, ⟨hmz, ?_⟩, ⟨[fr], ⟨hmakes.head, hfrz, ?_⟩,
    List.nodup_singleton fr, fun _ hn => hn⟩, fun y => ?_, ⟨fun _ _ => ⟨List.not_mem_nil, List.not_mem_nil⟩,
    fun b hb => absurd hb List.not_mem_nil⟩, fun y hy => ?_, fun b hb => absurd hb List.not_mem_nil,
    fun y hy => ?_, fun y hy => ?_⟩⟩
  · rw [hmakes.metas]
    exact List.mem_cons_self ..
  · exact hfnext.trans hfree
  · rw [hall]
    simp
  · obtain rfl := List.mem_singleton.mp hy
    exact ⟨hftype, hfback⟩
  · obtain rfl := (hall y).mp hy
    rw [hfloc, hmakes.metas]
    exact List.mem_cons_self ..
  · obtain rfl := (hall y).mp hy
    exact .first hfprev hfloc hmakes.first.1

end Frosk.Builder
